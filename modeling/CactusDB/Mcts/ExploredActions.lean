import CactusDB.Mcts.VisitAccounts

/-! The actions that a node has explored are the actions of its children, as long as every expansion
marks the one action that it takes. From this follows that an iteration can be completed. -/

namespace CactusDB.Mcts.ExploredActions
open Library.OrderedDict SearchTree VisitAccounts

variable {A R : Type}

def taken (space : Dict A Bool) : List A := (space.entries.filter (·.2)).map Prod.fst

def unexplored (space : Dict A Bool) : List A := (space.entries.filter fun entry => entry.2 = false).map Prod.fst

variable {space : Dict A Bool} {node : Node A R} {nodes : List (Node A R)}

theorem mem_taken {action : A} : action ∈ taken space ↔ (action, true) ∈ space.entries := by
  simp [taken]

theorem mem_unexplored {action : A} : action ∈ unexplored space ↔ (action, false) ∈ space.entries := by
  simp [unexplored]

theorem nodup_taken (space : Dict A Bool) : (taken space).Nodup :=
  List.Nodup.sublist (List.filter_sublist.map Prod.fst) space.distinct

theorem length_taken_add (space : Dict A Bool) : (taken space).length + (unexplored space).length = space.length := by
  simp only [taken, unexplored, List.length_map, Dict.length]
  have complement : (fun entry : A × Bool => decide (entry.2 = false)) = fun entry => !entry.2 := by
    funext entry
    cases entry.2 <;> rfl
  rw [complement]
  exact (List.length_eq_length_filter_add fun entry : A × Bool => entry.2).symm

theorem taken_empty_of_flags (flags : ∀ entry ∈ space.entries, entry.2 = false) : taken space = [] := by
  unfold taken
  rw [List.map_eq_nil_iff, List.filter_eq_nil_iff]
  intro entry mem
  simp [flags entry mem]

structure Marks (node : Node A R) (expansion : Expansion A) : Prop where
  chosen : (expansion.action, false) ∈ node.actionSpace.entries
  marked : ∀ entry, entry ∈ expansion.explored.entries ↔
    entry = (expansion.action, true) ∨ entry.1 ≠ expansion.action ∧ entry ∈ node.actionSpace.entries
  keys : expansion.explored.keys = node.actionSpace.keys
  unmarked : ∀ entry ∈ expansion.actionSpace.entries, entry.2 = false

theorem Marks.taken_perm {expansion : Expansion A} (marks : Marks node expansion) :
    (taken expansion.explored).Perm (expansion.action :: taken node.actionSpace) := by
  have fresh : expansion.action ∉ taken node.actionSpace := by
    intro mem
    have same := Dict.value_unique (mem_taken.mp mem) marks.chosen
    exact absurd same (by decide)
  rw [List.perm_ext_iff_of_nodup (nodup_taken _) (List.nodup_cons.mpr ⟨fresh, nodup_taken _⟩)]
  intro action
  rw [mem_taken, marks.marked, List.mem_cons, mem_taken]
  by_cases same : action = expansion.action
  · simp [same]
  · simp [same]

def fromActionOf (nodes : List (Node A R)) (id : Nat) : Option A := nodes[id]?.bind Node.fromAction

/-- The children of every node stand for its explored actions, one for each. -/
def Explored (nodes : List (Node A R)) : Prop :=
  ∀ (id : Nat) (node : Node A R), nodes[id]? = some node →
    (node.children.map (fromActionOf nodes)).Perm ((taken node.actionSpace).map some)

def Complete (nodes : List (Node A R)) (node : Node A R) : Prop :=
  ∀ action ∈ node.actionSpace.keys, ∃ child ∈ node.children, fromActionOf nodes child = some action

variable {id : Nat}

section

variable (explored : Explored nodes) (found : nodes[id]? = some node)
include explored found

theorem length_children : node.children.length = (taken node.actionSpace).length := by
  simpa using (explored id node found).length_eq

theorem allExpanded_iff : node.allExpanded = true ↔ unexplored node.actionSpace = [] := by
  have total := length_taken_add node.actionSpace
  unfold Node.allExpanded
  rw [beq_iff_eq, length_children explored found, ← List.length_eq_zero_iff]
  omega

/-- A node is full exactly when each of its actions has a child. -/
theorem allExpanded_iff_complete : node.allExpanded = true ↔ Complete nodes node := by
  have child_iff (action : A) :
      (∃ child ∈ node.children, fromActionOf nodes child = some action) ↔ action ∈ taken node.actionSpace := by
    rw [← List.mem_map, (explored id node found).mem_iff]
    simp
  rw [allExpanded_iff explored found]
  constructor
  · intro none action mem
    rw [child_iff, mem_taken]
    obtain ⟨flag, entry⟩ := Dict.mem_keys_iff.mp mem
    cases flag with
    | true => exact entry
    | false =>
      have left := mem_unexplored.mpr entry
      rw [none] at left
      exact absurd left List.not_mem_nil
  · intro complete
    apply List.eq_nil_iff_forall_not_mem.mpr
    intro action mem
    have entry := mem_unexplored.mp mem
    have explored := (child_iff action).mp (complete action (Dict.mem_keys_iff.mpr ⟨_, entry⟩))
    exact absurd (Dict.value_unique (mem_taken.mp explored) entry) (by decide)

end

section

variable [Zero R]

variable {nodes : List (Node A R)} {node : Node A R}

theorem fromActionOf_attach_old {id other : Nat} {old : Node A R}
    (expansion : Expansion A) (found : nodes[id]? = some node) (present : nodes[other]? = some old) :
    fromActionOf (attach nodes id node expansion) other = fromActionOf nodes other := by
  have bound := lt_length present
  unfold fromActionOf
  by_cases same : other = id
  · subst same
    rw [getElem?_attach_self found, found]
    rfl
  · rw [getElem?_attach_other same (by omega)]

theorem Explored.attach (explored : Explored nodes) (linked : Linked nodes) {id : Nat} (found : nodes[id]? = some node)
    {expansion : Expansion A} (marks : Marks node expansion) :
    Explored (SearchTree.attach nodes id node expansion) := by
  have kept {other : Nat} {old : Node A R} (there : nodes[other]? = some old) :
      old.children.map (fromActionOf (SearchTree.attach nodes id node expansion)) =
        old.children.map (fromActionOf nodes) := by
    apply List.map_congr_left
    intro child mem
    obtain ⟨_, below, present, _⟩ := linked.down _ _ _ there mem
    exact fromActionOf_attach_old expansion found present
  intro other after present
  obtain ⟨_, rfl⟩ | ⟨rfl, rfl⟩ | ⟨_, _, old⟩ := getElem?_attach_cases found present
  · simp [Node.new, taken_empty_of_flags marks.unmarked]
  · have new : fromActionOf (SearchTree.attach nodes other node expansion) nodes.length = some expansion.action := by
      unfold fromActionOf
      rw [getElem?_attach_new]
      rfl
    dsimp only
    rw [List.map_append, kept found, List.map_singleton, new]
    have front := List.perm_append_singleton (some expansion.action) (node.children.map (fromActionOf nodes))
    exact front.trans (((explored _ _ found).cons _).trans (marks.taken_perm.map some).symm)
  · rw [kept old]
    exact explored _ _ old

def Everywhere (holds : List A → Bool → Prop) (nodes : List (Node A R)) : Prop :=
  ∀ (id : Nat) (node : Node A R), nodes[id]? = some node → holds node.actionSpace.keys node.isTerminal

theorem Everywhere.attach {holds : List A → Bool → Prop} (everywhere : Everywhere holds nodes)
    {id : Nat} (found : nodes[id]? = some node) {expansion : Expansion A} (marks : Marks node expansion)
    (new : holds expansion.actionSpace.keys (expansion.isTerminal.getD (expansion.actionSpace.length == 0))) :
    Everywhere holds (SearchTree.attach nodes id node expansion) := by
  intro other after present
  obtain ⟨_, rfl⟩ | ⟨rfl, rfl⟩ | ⟨_, _, old⟩ := getElem?_attach_cases found present
  · exact new
  · dsimp only
    rw [marks.keys]
    exact everywhere _ _ found
  · exact everywhere _ _ old

variable [Add R] {moves : Moves A R} {reward : R} {nodes final : List (Node A R)} {path : List Nat}
  {growth : Option (Nat × Node A R × Expansion A)}

/-- The way back up changes visits and rewards only. -/
theorem exists_before (iterated : Iterated moves reward nodes final path growth) {later : Node A R}
    (present : final[id]? = some later) :
    ∃ before : Node A R, (grown nodes growth)[id]? = some before ∧ later.children = before.children ∧
      later.actionSpace = before.actionSpace ∧ later.isTerminal = before.isTerminal := by
  rw [iterated.each id] at present
  by_cases passed : id ∈ path
  · rw [if_pos passed, Option.map_eq_some_iff] at present
    obtain ⟨before, found, same⟩ := present
    subst same
    exact ⟨before, found, rfl, rfl, rfl⟩
  · rw [if_neg passed] at present
    exact ⟨later, present, rfl, rfl, rfl⟩

theorem fromActionOf_iterated (iterated : Iterated moves reward nodes final path growth) (id : Nat) :
    fromActionOf final id = fromActionOf (grown nodes growth) id := by
  unfold fromActionOf
  rw [iterated.each id]
  by_cases passed : id ∈ path
  · rw [if_pos passed, Option.bind_map]
    rfl
  · rw [if_neg passed]

def MarksAll (moves : Moves A R) (nodes : List (Node A R)) : Prop :=
  ∀ (id : Nat) (node : Node A R) (expansion : Expansion A), nodes[id]? = some node →
    moves.expand id node = .ok expansion → Marks node expansion

theorem Explored.iterated (explored : Explored nodes) (linked : Linked nodes) (marks : MarksAll moves nodes)
    (iterated : Iterated moves reward nodes final path growth) : Explored final := by
  have grownExplored : Explored (grown nodes growth) := by
    cases grows : growth with
    | none => exact explored
    | some entry =>
      obtain ⟨id, node, expansion⟩ := entry
      obtain ⟨found, _, _, expanded⟩ := growth_found iterated.descends grows
      exact explored.attach linked found (marks id node expansion found expanded)
  intro id later present
  obtain ⟨before, found, children, space, _⟩ := exists_before iterated present
  rw [children, space]
  have same : fromActionOf final = fromActionOf (grown nodes growth) := funext (fromActionOf_iterated iterated)
  rw [same]
  exact grownExplored id before found

theorem Everywhere.iterated {holds : List A → Bool → Prop} (everywhere : Everywhere holds nodes)
    (marks : MarksAll moves nodes) (new : ∀ id node expansion, moves.expand id node = .ok expansion →
      holds expansion.actionSpace.keys (expansion.isTerminal.getD (expansion.actionSpace.length == 0)))
    (iterated : Iterated moves reward nodes final path growth) : Everywhere holds final := by
  intro id later present
  obtain ⟨before, found, _, space, terminal⟩ := exists_before iterated present
  rw [space, terminal]
  cases grows : growth with
  | none =>
    rw [grows] at found
    exact everywhere id before found
  | some entry =>
    obtain ⟨at_, node, expansion⟩ := entry
    obtain ⟨there, _, _, expanded⟩ := growth_found iterated.descends grows
    rw [grows] at found
    exact everywhere.attach there (marks at_ node expansion there expanded)
      (new at_ node expansion expanded) id before found

end

section

/-- A node whose flag is up is full. The flag of a node that has become full goes up with its next check. -/
def FlagsSound (tree : Tree A R) : Prop :=
  ∀ (id : Nat) (node : Node A R), tree.nodes[id]? = some node → tree.isFullyExpanded id = true → node.allExpanded = true

variable {tree : Tree A R}

theorem FlagsSound.check (sound : FlagsSound tree) {id : Nat} {node : Node A R}
    (found : tree.nodes[id]? = some node) : FlagsSound (tree.checkAndUpdateIsFullyExpanded id node) := by
  intro other old present raised
  by_cases same : other = id
  · subst same
    rw [checkAndUpdate_nodes, found] at present
    cases present
    rwa [checkAndUpdate_flag] at raised
  · apply sound other old present
    simpa [Tree.checkAndUpdateIsFullyExpanded, same] using raised

variable [Zero R]

theorem FlagsSound.attach (sound : FlagsSound tree) {id : Nat} {node : Node A R}
    (found : tree.nodes[id]? = some node) (lowered : tree.isFullyExpanded id = false) (expansion : Expansion A) :
    FlagsSound (tree.attach id node expansion) := by
  intro other after present raised
  unfold Tree.attach at present raised
  dsimp only at raised
  obtain ⟨rfl, rfl⟩ | ⟨rfl, rfl⟩ | ⟨_, old, there⟩ := getElem?_attach_cases found present
  · rw [if_pos rfl, beq_iff_eq] at raised
    simp [Node.allExpanded, Node.new, raised]
  · have bound := lt_length found
    rw [if_neg (by omega), lowered] at raised
    exact absurd raised (by decide)
  · rw [if_neg old] at raised
    exact sound other after there raised

variable {moves : Moves A R} {after : Tree A R} {path : List Nat} (sound : FlagsSound tree)
include sound

theorem FlagsSound.descend {fuel id : Nat}
    (success : SearchTree.descend moves fuel tree id = .ok (after, path)) :
    FlagsSound after := by
  induction fuel generalizing id tree after path with
  | zero => simp [SearchTree.descend] at success
  | succ fuel ih =>
    obtain ⟨node, found, ⟨_, rfl, _⟩ | ⟨_, _, child, below, _, outcome, _⟩ | ⟨_, room, expansion, _, rfl, _⟩⟩ :=
      descend_succ_cases success
    · exact sound
    · exact ih (sound.check found) outcome
    · exact (sound.check found).attach found (by simpa using room) expansion

theorem FlagsSound.iterate [Add R] {reward : R} {log : Log R}
    (accounted : Accounted tree.nodes log) (selects : Selects moves)
    (success : SearchTree.iterate moves reward tree = .ok (after, path)) : FlagsSound after := by
  unfold SearchTree.iterate at success
  split at success
  · simp at success
  · next middle way down =>
      have descended := sound.descend down
      obtain ⟨growth, descends, nodes⟩ := descends_of_descend down
      obtain ⟨final, propagated, iterated⟩ := backPropagate_grown reward accounted selects descends
      rw [nodes, propagated] at success
      cases success
      intro id later present raised
      obtain ⟨before, found, children, space, _⟩ := exists_before iterated present
      rw [← nodes] at found
      have full := descended id before found raised
      unfold Node.allExpanded at full ⊢
      rwa [children, space]

end

variable {moves : Moves A R} {nodes : List (Node A R)}

def Ready (moves : Moves A R) (nodes : List (Node A R)) : Prop :=
  ∀ (id : Nat) (node : Node A R), nodes[id]? = some node → node.isTerminal = false →
    (node.allExpanded = true → ∃ child ∈ node.children, moves.select id nodes node = .ok child) ∧
    (node.allExpanded = false → ∃ expansion, moves.expand id node = .ok expansion)

variable [Zero R]

/-- The descent ends within the number of nodes that come after its start. -/
theorem descend_succeeds (linked : Linked nodes) (ready : Ready moves nodes) {fuel id : Nat}
    (tree : Tree A R) (same : tree.nodes = nodes) (bound : id < nodes.length) (enough : nodes.length ≤ fuel + id) :
    ∃ result, descend moves fuel tree id = .ok result := by
  induction fuel generalizing id tree with
  | zero => omega
  | succ fuel ih =>
    have found : nodes[id]? = some nodes[id] := List.getElem?_eq_getElem bound
    generalize nodes[id] = node at found
    unfold descend
    rw [same, found]
    dsimp only
    by_cases terminal : node.isTerminal = true
    · exact ⟨_, by rw [if_pos terminal]⟩
    · have inner : node.isTerminal = false := by simpa using terminal
      obtain ⟨whenFull, whenRoom⟩ := ready id node found inner
      simp only [inner, Bool.false_eq_true, if_false, checkAndUpdate_flag, checkAndUpdate_nodes, same]
      cases full : node.allExpanded with
      | true =>
        obtain ⟨child, mem, selected⟩ := whenFull full
        obtain ⟨later, below, there, _⟩ := linked.down _ _ _ found mem
        obtain ⟨result, success⟩ := ih (tree.checkAndUpdateIsFullyExpanded id node) same
          (lt_length there) (by omega)
        simp only [selected, success, if_true]
        exact ⟨_, rfl⟩
      | false =>
        obtain ⟨expansion, expanded⟩ := whenRoom full
        simp only [expanded, Bool.false_eq_true, if_false]
        exact ⟨_, rfl⟩

theorem iterate_succeeds [Add R] {tree : Tree A R} {log : Log R} (accounted : Accounted tree.nodes log)
    (selects : Selects moves) (ready : Ready moves tree.nodes) (reward : R) :
    ∃ after path, iterate moves reward tree = .ok (after, path) := by
  obtain ⟨root, found, _⟩ := accounted.linked.root
  obtain ⟨⟨middle, path⟩, down⟩ :=
    descend_succeeds accounted.linked ready tree rfl (lt_length found) (Nat.le_refl _)
  obtain ⟨growth, descends, same⟩ := descends_of_descend down
  obtain ⟨final, propagated, _⟩ := backPropagate_grown reward accounted selects descends
  unfold iterate
  rw [down]
  dsimp only
  rw [same, propagated]
  exact ⟨_, _, rfl⟩

end CactusDB.Mcts.ExploredActions
