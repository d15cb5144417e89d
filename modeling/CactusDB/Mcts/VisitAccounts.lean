import CactusDB.Mcts.SearchTree
import Mathlib.Algebra.BigOperators.Group.List.Basic
import Mathlib.Algebra.Order.Ring.Nat

/-! Visits and rewards over a whole training. Every iteration passes a path from the root down, and
what its reward is added to on the way back up is that path. -/

namespace CactusDB.Mcts.VisitAccounts
open Library.OrderedDict SearchTree
open List hiding attach getElem?_eq_some_iff iterate

variable {A R : Type}

/-- The links of the nodes: a child comes after its parent and points back to it. -/
structure Linked (nodes : List (Node A R)) : Prop where
  root : ∃ node : Node A R, nodes[0]? = some node ∧ node.parent = none
  down : ∀ (id : Nat) (node : Node A R) (child : Nat), nodes[id]? = some node → child ∈ node.children →
    id < child ∧ ∃ below : Node A R, nodes[child]? = some below ∧ below.parent = some id
  distinct : ∀ (id : Nat) (node : Node A R), nodes[id]? = some node → node.children.Nodup

def IsChild (nodes : List (Node A R)) (parent child : Nat) : Prop :=
  ∃ node : Node A R, nodes[parent]? = some node ∧ child ∈ node.children

variable {nodes : List (Node A R)}

theorem Linked.parent_unique (linked : Linked nodes) {first second child : Nat}
    (one : IsChild nodes first child) (two : IsChild nodes second child) : first = second := by
  obtain ⟨firstNode, firstFound, inFirst⟩ := one
  obtain ⟨secondNode, secondFound, inSecond⟩ := two
  obtain ⟨_, below, found, parent⟩ := linked.down _ _ _ firstFound inFirst
  obtain ⟨_, below', found', parent'⟩ := linked.down _ _ _ secondFound inSecond
  rw [found] at found'
  cases found'
  exact Option.some.inj (parent.symm.trans parent')

variable {parent child : Nat}

theorem Linked.lt (linked : Linked nodes) (link : IsChild nodes parent child) : parent < child := by
  obtain ⟨node, found, mem⟩ := link
  exact (linked.down _ _ _ found mem).1

variable {node : Node A R} {id : Nat}

theorem lt_length (found : nodes[id]? = some node) :
    id < nodes.length := (List.getElem?_eq_some_iff.mp found).1

section

variable [Zero R]

@[simp] theorem length_attach (nodes : List (Node A R)) (id : Nat) (node : Node A R) (expansion : Expansion A) :
    (attach nodes id node expansion).length = nodes.length + 1 := by
  simp [attach]

variable {nodes : List (Node A R)} {id : Nat} {node : Node A R}

theorem getElem?_attach_self {old : Node A R} (found : nodes[id]? = some old)
    (node : Node A R) (expansion : Expansion A) :
    (attach nodes id node expansion)[id]? =
      some { node with actionSpace := expansion.explored, children := node.children ++ [nodes.length] } := by
  have bound := lt_length found
  unfold attach
  rw [getElem?_append_left (by simpa using bound), getElem?_set_self bound]

theorem getElem?_attach_new (nodes : List (Node A R)) (id : Nat) (node : Node A R) (expansion : Expansion A) :
    (attach nodes id node expansion)[nodes.length]? =
      some (Node.new (some id) expansion.actionSpace expansion.isTerminal (some expansion.action)) := by
  unfold attach
  rw [getElem?_append_right (by simp)]
  simp

variable {other : Nat}

theorem getElem?_attach_other (different : other ≠ id)
    (old : other ≠ nodes.length) (node : Node A R) (expansion : Expansion A) :
    (attach nodes id node expansion)[other]? = nodes[other]? := by
  unfold attach
  by_cases bound : other < nodes.length
  · rw [getElem?_append_left (by simpa using bound), getElem?_set_ne (Ne.symm different)]
  · rw [getElem?_eq_none (by simp; omega), getElem?_eq_none (by omega)]

/-- A node after the growth is the new child, the expanded node, or an old one. -/
theorem getElem?_attach_cases {after : Node A R} {expansion : Expansion A} (found : nodes[id]? = some node)
    (present : (attach nodes id node expansion)[other]? = some after) :
    (other = nodes.length ∧
      after = Node.new (some id) expansion.actionSpace expansion.isTerminal (some expansion.action)) ∨ (other = id ∧
      after = { node with actionSpace := expansion.explored, children := node.children ++ [nodes.length] }) ∨
    (other ≠ id ∧ other ≠ nodes.length ∧ nodes[other]? = some after) := by
  by_cases new : other = nodes.length
  · subst new
    rw [getElem?_attach_new] at present
    exact .inl ⟨rfl, (Option.some.inj present).symm⟩
  · by_cases same : other = id
    · subst same
      rw [getElem?_attach_self found] at present
      exact .inr (.inl ⟨rfl, (Option.some.inj present).symm⟩)
    · rw [getElem?_attach_other same new] at present
      exact .inr (.inr ⟨same, new, present⟩)

/-- Every old node is still there with its parent, its visits and its reward, and no child is lost. -/
theorem exists_getElem?_attach {old : Node A R}
    (expansion : Expansion A) (found : nodes[id]? = some node) (present : nodes[other]? = some old) :
    ∃ after, (attach nodes id node expansion)[other]? = some after ∧ after.parent = old.parent ∧
      after.numVisit = old.numVisit ∧ after.reward = old.reward ∧ ∀ child ∈ old.children, child ∈ after.children := by
  have bound := lt_length present
  by_cases same : other = id
  · subst same
    rw [found] at present
    cases present
    exact ⟨_, getElem?_attach_self found _ _, rfl, rfl, rfl, fun child mem => mem_append_left _ mem⟩
  · refine ⟨old, ?_, rfl, rfl, rfl, fun child mem => mem⟩
    rw [getElem?_attach_other same (by omega)]
    exact present

theorem Linked.attach (linked : Linked nodes) (found : nodes[id]? = some node) (expansion : Expansion A) :
    Linked (SearchTree.attach nodes id node expansion) where
  root := by
    obtain ⟨root, present, noParent⟩ := linked.root
    obtain ⟨after, there, parent, _⟩ := exists_getElem?_attach expansion found present
    exact ⟨after, there, parent.trans noParent⟩
  down := by
    intro other after child present mem
    obtain ⟨_, rfl⟩ | ⟨rfl, rfl⟩ | ⟨_, _, old⟩ := getElem?_attach_cases found present
    · exact absurd mem not_mem_nil
    · cases mem_append.mp mem with
      | inl before =>
        obtain ⟨later, below, belowFound, parent⟩ := linked.down _ _ _ found before
        obtain ⟨afterBelow, there, sameParent, _⟩ := exists_getElem?_attach expansion found belowFound
        exact ⟨later, afterBelow, there, sameParent.trans parent⟩
      | inr new =>
        rw [mem_singleton.mp new]
        exact ⟨lt_length found, _, getElem?_attach_new _ _ _ _, rfl⟩
    · obtain ⟨later, below, belowFound, parent⟩ := linked.down _ _ _ old mem
      obtain ⟨afterBelow, there, sameParent, _⟩ := exists_getElem?_attach expansion found belowFound
      exact ⟨later, afterBelow, there, sameParent.trans parent⟩
  distinct := by
    intro other after present
    obtain ⟨_, rfl⟩ | ⟨rfl, rfl⟩ | ⟨_, _, old⟩ := getElem?_attach_cases found present
    · exact nodup_nil
    · apply (linked.distinct _ _ found).append (nodup_singleton _)
      intro child before new
      rw [mem_singleton.mp new] at before
      obtain ⟨_, below, belowFound, _⟩ := linked.down _ _ _ found before
      exact absurd (lt_length belowFound) (Nat.lt_irrefl _)
    · exact linked.distinct _ _ old

end

section

def Upward (nodes : List (Node A R)) : List Nat → Prop
  | [] => True
  | id :: above => (∃ node : Node A R, nodes[id]? = some node ∧ node.parent = above.head?) ∧ Upward nodes above

abbrev Downward (nodes : List (Node A R)) (path : List Nat) : Prop := List.IsChain (IsChild nodes) path

variable {path : List Nat} {growth : Option (Nat × Node A R × Expansion A)} {id : Nat}

theorem Upward.imp {nodes after : List (Node A R)} (kept : ∀ (id : Nat) (node : Node A R), nodes[id]? = some node →
      ∃ later : Node A R, after[id]? = some later ∧ later.parent = node.parent)
    (upward : Upward nodes path) : Upward after path := by
  induction path with
  | nil => trivial
  | cons id above ih =>
    obtain ⟨⟨node, found, parent⟩, rest⟩ := upward
    obtain ⟨later, there, same⟩ := kept id node found
    exact ⟨⟨later, there, same.trans parent⟩, ih rest⟩

def Selects (moves : Moves A R) : Prop :=
  ∀ id nodes node child, moves.select id nodes node = .ok child → child ∈ node.children

theorem pairwise_of_downward {nodes : List (Node A R)} (linked : Linked nodes)
    (downward : Downward nodes path) : path.Pairwise (· < ·) :=
  (downward.imp fun _ _ link => linked.lt link).pairwise

variable {moves : Moves A R} {nodes : List (Node A R)}

/-- What a descent tells of the node that it expands. -/
theorem growth_found (descends : Descends moves nodes id path growth) {at_ : Nat} {expansion : Expansion A}
    (grows : growth = some (at_, node, expansion)) :
    nodes[at_]? = some node ∧ node.isTerminal = false ∧ node.allExpanded = false ∧
      moves.expand at_ node = .ok expansion := by
  induction descends with
  | stop => cases grows
  | grow found inner room expanded =>
    cases grows
    exact ⟨found, inner, room, expanded⟩
  | pass _ _ _ _ _ ih => exact ih grows

variable [Zero R]

variable (descends : Descends moves nodes id path growth)
include descends

theorem isChild_grown (link : IsChild nodes parent child) : IsChild (grown nodes growth) parent child := by
  cases grows : growth with
  | none => exact link
  | some entry =>
    obtain ⟨at_, node, expansion⟩ := entry
    obtain ⟨old, found, mem⟩ := link
    obtain ⟨after, there, _, _, _, kept⟩ :=
      exists_getElem?_attach expansion (growth_found descends grows).1 found
    exact ⟨after, there, kept child mem⟩

theorem downward_of_descends (selects : Selects moves) :
    path.head? = some id ∧ Downward (grown nodes growth) path := by
  induction descends with
  | stop => exact ⟨rfl, isChain_singleton _⟩
  | grow found inner room expanded =>
    refine ⟨rfl, isChain_pair.mpr ⟨_, getElem?_attach_self found _ _, ?_⟩⟩
    exact mem_append_right _ mem_cons_self
  | @pass id child node path growth found inner full selected below ih =>
    refine ⟨rfl, ?_⟩
    cases path with
    | nil => cases ih.1
    | cons first rest =>
      cases ih.1
      exact isChain_cons_cons.mpr
        ⟨isChild_grown below ⟨node, found, selects _ _ _ _ selected⟩, ih.2⟩

theorem upward_of_descends (selects : Selects moves) (linked : Linked nodes)
    {above : List Nat} (start : Upward nodes (id :: above)) : Upward (grown nodes growth) (path.reverse ++ above) := by
  induction descends generalizing above with
  | stop => exact start
  | grow found inner room expanded =>
    refine ⟨⟨_, getElem?_attach_new _ _ _ _, rfl⟩, start.imp ?_⟩
    intro other old present
    obtain ⟨after, there, parent, _⟩ := exists_getElem?_attach _ found present
    exact ⟨after, there, parent⟩
  | pass found inner full selected below ih =>
    rw [reverse_cons, append_assoc]
    apply ih
    obtain ⟨_, node, present, parent⟩ := linked.down _ _ _ found (selects _ _ _ _ selected)
    exact ⟨⟨node, present, parent⟩, start⟩

/-- A new node is on the path of the descent that has brought it. -/
theorem new_mem_path {new : Nat} (present : new < (grown nodes growth).length)
    (absent : ¬ new < nodes.length) : new ∈ path := by
  induction descends with
  | stop => exact absurd present absent
  | grow found inner room expanded =>
    simp only [grown, length_attach] at present
    have last : new = nodes.length := by omega
    simp [last]
  | pass found inner full selected below ih => exact mem_cons_of_mem _ (ih present)

end

section

variable [Add R]

/-- The reward is added along the way up, and to nothing else. -/
theorem backPropagate_upward (reward : R) {upward : List Nat} (distinct : upward.Nodup) {nodes : List (Node A R)}
    (up : Upward nodes upward) {fuel : Nat} (enough : upward.length ≤ fuel) :
    ∃ after, backPropagate reward fuel nodes upward.head? = .ok after ∧ after.length = nodes.length ∧
      ∀ id : Nat, after[id]? = if id ∈ upward then nodes[id]?.map (Node.visit reward) else nodes[id]? := by
  induction upward generalizing nodes fuel with
  | nil => exact ⟨nodes, by cases fuel <;> rfl, rfl, fun id => by simp⟩
  | cons first above ih =>
    obtain ⟨⟨node, found, parent⟩, rest⟩ := up
    cases fuel with
    | zero => simp at enough
    | succ fuel =>
      have bound := lt_length found
      have kept : Upward (nodes.set first (node.visit reward)) above := by
        apply rest.imp
        intro other old present
        by_cases same : other = first
        · subst same
          rw [found] at present
          cases present
          exact ⟨_, getElem?_set_self bound, rfl⟩
        · exact ⟨old, by rw [getElem?_set_ne (Ne.symm same)]; exact present, rfl⟩
      simp only [nodup_cons] at distinct
      obtain ⟨after, success, length, each⟩ := ih distinct.2 kept (by simpa using enough)
      refine ⟨after, ?_, by simpa using length, ?_⟩
      · simp only [head?_cons, backPropagate, found, parent]
        exact success
      · intro id
        rw [each id]
        by_cases same : id = first
        · subst same
          simp [distinct.1, found, getElem?_set_self bound]
        · simp [same, getElem?_set_ne (Ne.symm same)]

end

section

def through (log : Log R) (id : Nat) : List R := (log.filter fun entry => id ∈ entry.1).map Prod.snd

@[simp] theorem through_append (log : Log R) (path : List Nat) (reward : R) (id : Nat) :
    through (log ++ [(path, reward)]) id = through log id ++ if id ∈ path then [reward] else [] := by
  unfold through
  rw [filter_append, map_append]
  by_cases passed : id ∈ path <;> simp [passed]

variable {nodes : List (Node A R)} {path : List Nat} {log : Log R}
  {growth : Option (Nat × Node A R × Expansion A)}

theorem mem_path_lt (linked : Linked nodes) {start : Nat}
    (first : path.head? = some start) (present : start < nodes.length) (downward : Downward nodes path) :
    ∀ id ∈ path, id < nodes.length := by
  induction path generalizing start with
  | nil => cases first
  | cons a rest ih =>
    cases first
    intro id mem
    cases mem_cons.mp mem with
    | inl same => exact same ▸ present
    | inr later =>
      cases rest with
      | nil => exact absurd later not_mem_nil
      | cons b rest =>
        obtain ⟨⟨node, found, child⟩, chain⟩ := isChain_cons_cons.mp downward
        obtain ⟨_, below, there, _⟩ := linked.down _ _ _ found child
        exact ih rfl (lt_length there) chain id later

theorem Linked.congr {after : List (Node A R)} (linked : Linked nodes)
    (same : ∀ id : Nat, after[id]?.map (fun node => (node.children, node.parent)) =
      nodes[id]?.map fun node => (node.children, node.parent)) : Linked after := by
  have forth {id : Nat} {node : Node A R} (found : nodes[id]? = some node) :
      ∃ later, after[id]? = some later ∧ later.children = node.children ∧ later.parent = node.parent := by
    have there := same id
    rw [found, Option.map_some, Option.map_eq_some_iff] at there
    obtain ⟨later, present, equal⟩ := there
    exact ⟨later, present, congrArg Prod.fst equal, congrArg Prod.snd equal⟩
  have back {id : Nat} {node : Node A R} (found : after[id]? = some node) :
      ∃ earlier, nodes[id]? = some earlier ∧ earlier.children = node.children := by
    have there := (same id).symm
    rw [found, Option.map_some, Option.map_eq_some_iff] at there
    obtain ⟨earlier, present, equal⟩ := there
    exact ⟨earlier, present, congrArg Prod.fst equal⟩
  constructor
  · obtain ⟨root, found, noParent⟩ := linked.root
    obtain ⟨later, there, _, parent⟩ := forth found
    exact ⟨later, there, parent.trans noParent⟩
  · intro id node child found mem
    obtain ⟨earlier, there, children⟩ := back found
    rw [← children] at mem
    obtain ⟨ordered, below, present, parent⟩ := linked.down _ _ _ there mem
    obtain ⟨later, afterwards, _, sameParent⟩ := forth present
    exact ⟨ordered, later, afterwards, sameParent.trans parent⟩
  · intro id node found
    obtain ⟨earlier, there, children⟩ := back found
    rw [← children]
    exact linked.distinct _ _ there

variable [Zero R] [Add R]

/-- Visits and rewards of every node are those of the iterations through it. -/
def Counted (nodes : List (Node A R)) (log : Log R) : Prop :=
  ∀ (id : Nat) (node : Node A R), nodes[id]? = some node →
    node.numVisit = (through log id).length ∧ node.reward = (through log id).foldl (· + ·) 0

structure Accounted (nodes : List (Node A R)) (log : Log R) : Prop where
  linked : Linked nodes
  paths : ∀ entry ∈ log, entry.1.head? = some 0 ∧ Downward nodes entry.1
  counted : Counted nodes log
  visited : ∀ id, 0 < id → id < nodes.length → ∃ entry ∈ log, id ∈ entry.1

theorem accounted_fresh (actionSpace : Dict A Bool) (isTerminal : Option Bool) :
    Accounted (fresh actionSpace isTerminal : Tree A R).nodes [] where
  linked := by
    refine ⟨⟨_, rfl, rfl⟩, ?_, ?_⟩
    · intro id node child found mem
      cases id with
      | zero =>
        cases found
        exact absurd mem not_mem_nil
      | succ id => simp [fresh] at found
    · intro id node found
      cases id with
      | zero =>
        cases found
        exact nodup_nil
      | succ id => simp [fresh] at found
  paths := fun entry mem => absurd mem not_mem_nil
  counted := by
    intro id node found
    cases id with
    | zero =>
      cases found
      exact ⟨rfl, rfl⟩
    | succ id => simp [fresh] at found
  visited := by
    intro id positive bound
    simp only [fresh, length_singleton] at bound
    omega

section

variable (accounted : Accounted nodes log)
include accounted

theorem Accounted.mem_path_lt {entry : List Nat × R} (mem : entry ∈ log) : ∀ id ∈ entry.1, id < nodes.length := by
  obtain ⟨root, found, _⟩ := accounted.linked.root
  obtain ⟨first, downward⟩ := accounted.paths entry mem
  exact VisitAccounts.mem_path_lt accounted.linked first (lt_length found) downward

theorem Accounted.through_new : through log nodes.length = [] := by
  unfold through
  rw [map_eq_nil_iff, filter_eq_nil_iff]
  intro entry mem passed
  have bound := accounted.mem_path_lt mem nodes.length (by simpa using passed)
  exact absurd bound (Nat.lt_irrefl _)

theorem Accounted.linked_grown {moves : Moves A R}
    (descends : Descends moves nodes id path growth) : Linked (grown nodes growth) := by
  cases grows : growth with
  | none => exact accounted.linked
  | some entry => exact accounted.linked.attach (growth_found descends grows).1 entry.2.2

/-- A new node has no visits yet, and no iteration has passed it. -/
theorem Accounted.counted_grown {moves : Moves A R}
    (descends : Descends moves nodes id path growth) : Counted (grown nodes growth) log := by
  cases grows : growth with
  | none => exact accounted.counted
  | some entry =>
    obtain ⟨at_, node, expansion⟩ := entry
    have found := (growth_found descends grows).1
    intro other after present
    obtain ⟨rfl, rfl⟩ | ⟨rfl, rfl⟩ | ⟨_, _, old⟩ := getElem?_attach_cases found present
    · rw [accounted.through_new]
      exact ⟨rfl, rfl⟩
    · exact accounted.counted other node found
    · exact accounted.counted _ _ old

end

structure Iterated (moves : Moves A R) (reward : R) (nodes after : List (Node A R)) (path : List Nat)
    (growth : Option (Nat × Node A R × Expansion A)) : Prop where
  descends : Descends moves nodes 0 path growth
  length : after.length = (grown nodes growth).length
  each : ∀ id : Nat, after[id]? =
    if id ∈ path then (grown nodes growth)[id]?.map (Node.visit reward) else (grown nodes growth)[id]?

variable {moves : Moves A R} {reward : R} {tree after : Tree A R} {log : Log R} {path : List Nat}

/-- The way back up is the path that came down, and it is over within the number of nodes. -/
theorem backPropagate_grown (reward : R) (accounted : Accounted tree.nodes log) (selects : Selects moves)
    (descends : Descends moves tree.nodes 0 path growth) :
    ∃ nodes, backPropagate reward (grown tree.nodes growth).length (grown tree.nodes growth) path.getLast? =
      .ok nodes ∧ Iterated moves reward tree.nodes nodes path growth := by
  have linked := accounted.linked_grown descends
  obtain ⟨first, downward⟩ := downward_of_descends descends selects
  have ordered := pairwise_of_downward linked downward
  obtain ⟨root, rootFound, noParent⟩ := accounted.linked.root
  have start : Upward tree.nodes [0] := ⟨⟨root, rootFound, noParent⟩, trivial⟩
  have up : Upward (grown tree.nodes growth) path.reverse := by
    simpa using upward_of_descends descends selects accounted.linked start
  have distinct : path.Nodup := ordered.imp Nat.ne_of_lt
  obtain ⟨grownRoot, grownFound, _⟩ := linked.root
  have short : path.reverse.length ≤ (grown tree.nodes growth).length := by
    have inside := mem_path_lt linked first (lt_length grownFound) downward
    have subset : path ⊆ range (grown tree.nodes growth).length :=
      fun id mem => mem_range.mpr (inside id mem)
    simpa using (subperm_of_subset distinct subset).length_le
  obtain ⟨nodes, success, length, each⟩ :=
    backPropagate_upward reward (nodup_reverse.mpr distinct) up short
  rw [head?_reverse] at success
  exact ⟨nodes, success, descends, length, by simpa using each⟩

theorem iterated_of_iterate (accounted : Accounted tree.nodes log) (selects : Selects moves)
    (success : iterate moves reward tree = .ok (after, path)) :
    ∃ growth, Iterated moves reward tree.nodes after.nodes path growth := by
  unfold iterate at success
  split at success
  · simp at success
  · next middle way down =>
      obtain ⟨growth, descends, nodes⟩ := descends_of_descend down
      obtain ⟨final, propagated, iterated⟩ := backPropagate_grown reward accounted selects descends
      rw [nodes, propagated] at success
      cases success
      exact ⟨growth, iterated⟩

variable {final : List (Node A R)}

theorem Iterated.linked
    (iterated : Iterated moves reward nodes final path growth) (linked : Linked (grown nodes growth)) :
    Linked final := by
  apply linked.congr
  intro id
  rw [iterated.each id]
  by_cases passed : id ∈ path
  · rw [if_pos passed, Option.map_map]
    rfl
  · rw [if_neg passed]

theorem Iterated.isChild (iterated : Iterated moves reward nodes final path growth)
    (link : IsChild (grown nodes growth) parent child) : IsChild final parent child := by
  obtain ⟨node, found, mem⟩ := link
  have there := iterated.each parent
  rw [found] at there
  by_cases passed : parent ∈ path
  · rw [if_pos passed] at there
    exact ⟨_, there, mem⟩
  · rw [if_neg passed] at there
    exact ⟨_, there, mem⟩

/-- One more iteration is on the accounts. -/
theorem Accounted.iterate (accounted : Accounted tree.nodes log) (selects : Selects moves)
    (success : SearchTree.iterate moves reward tree = .ok (after, path)) :
    Accounted after.nodes (log ++ [(path, reward)]) := by
  obtain ⟨growth, iterated⟩ := iterated_of_iterate accounted selects success
  have linked := accounted.linked_grown iterated.descends
  obtain ⟨first, downward⟩ := downward_of_descends iterated.descends selects
  refine ⟨iterated.linked linked, ?_, ?_, ?_⟩
  · intro entry mem
    cases mem_append.mp mem with
    | inl old =>
      obtain ⟨oldFirst, oldDownward⟩ := accounted.paths entry old
      exact ⟨oldFirst, oldDownward.imp fun _ _ link => iterated.isChild (isChild_grown iterated.descends link)⟩
    | inr new =>
      rw [mem_singleton.mp new]
      exact ⟨first, downward.imp fun _ _ link => iterated.isChild link⟩
  · intro id node found
    rw [iterated.each id] at found
    by_cases passed : id ∈ path
    · rw [if_pos passed, Option.map_eq_some_iff] at found
      obtain ⟨before, there, same⟩ := found
      obtain ⟨visits, rewards⟩ := accounted.counted_grown iterated.descends id before there
      subst same
      simp [passed, Node.visit, visits, rewards]
    · rw [if_neg passed] at found
      obtain ⟨visits, rewards⟩ := accounted.counted_grown iterated.descends id node found
      simp [passed, visits, rewards]
  · intro id positive bound
    rw [iterated.length] at bound
    by_cases old : id < tree.nodes.length
    · obtain ⟨entry, mem, passed⟩ := accounted.visited id positive old
      exact ⟨entry, mem_append_left _ mem, passed⟩
    · refine ⟨(path, reward), mem_append_right _ mem_cons_self, ?_⟩
      exact new_mem_path iterated.descends bound old

theorem Accounted.train {iterations : List (Moves A R × R)} {tree after : Tree A R} {final : Log R}
    (accounted : Accounted tree.nodes log) (selects : ∀ iteration ∈ iterations, Selects iteration.1)
    (success : SearchTree.train iterations (tree, log) = .ok (after, final)) :
    Accounted after.nodes final ∧ final.length = log.length + iterations.length ∧
      final.map Prod.snd = log.map Prod.snd ++ iterations.map Prod.snd := by
  induction iterations generalizing tree log with
  | nil =>
    cases success
    exact ⟨accounted, rfl, by simp⟩
  | cons iteration rest ih =>
    obtain ⟨moves, reward⟩ := iteration
    unfold SearchTree.train at success
    split at success
    · simp at success
    · next middle path outcome =>
        have step := accounted.iterate (selects _ mem_cons_self) outcome
        obtain ⟨later, length, rewards⟩ := ih step (fun other mem => selects other (mem_cons_of_mem _ mem)) success
        refine ⟨later, ?_, ?_⟩
        · rw [length]
          simp
          omega
        · rw [rewards]
          simp

end

section

def indicator (holds : Bool) : Nat := if holds then 1 else 0

theorem sum_indicator_eq (children : List Nat) (distinct : children.Nodup) (id : Nat) :
    (children.map fun child => indicator (decide (child = id))).sum = indicator (decide (id ∈ children)) := by
  induction children with
  | nil => rfl
  | cons child rest ih =>
    simp only [nodup_cons] at distinct
    rw [map_cons, sum_cons, ih distinct.2]
    by_cases same : child = id
    · subst same
      simp [indicator, distinct.1]
    · have different : ¬ id = child := fun equal => same equal.symm
      simp [indicator, same, different]

variable {nodes : List (Node A R)}

/-- A path through a node ends there or goes on to exactly one of its children. The start of the path
counts as passed by the child it may be. -/
theorem indicator_path (linked : Linked nodes)
    (found : nodes[id]? = some node) {start : Nat} {rest : List Nat} (downward : Downward nodes (start :: rest)) :
    indicator (decide (id ∈ start :: rest)) + indicator (decide (start ∈ node.children)) =
      indicator (decide ((start :: rest).getLast? = some id)) +
        (node.children.map fun child => indicator (decide (child ∈ start :: rest))).sum := by
  have distinct := linked.distinct _ _ found
  induction rest generalizing start with
  | nil =>
    have alone : (node.children.map fun child => indicator (decide (child ∈ [start]))).sum =
        indicator (decide (start ∈ node.children)) := by
      simpa using sum_indicator_eq node.children distinct start
    rw [alone]
    simp [indicator, eq_comm]
  | cons next rest ih =>
    obtain ⟨link, chain⟩ := isChain_cons_cons.mp downward
    have later : start ∉ next :: rest := by
      have ordered := pairwise_of_downward linked downward
      intro mem
      exact Nat.lt_irrefl _ ((pairwise_cons.mp ordered).1 start mem)
    have isNext : indicator (decide (next ∈ node.children)) = indicator (decide (id = start)) := by
      have parents : next ∈ node.children ↔ id = start :=
        ⟨fun mem => linked.parent_unique ⟨node, found, mem⟩ link, fun same => by
          obtain ⟨other, there, mem⟩ := link
          rw [← same, found] at there
          cases there
          exact mem⟩
      simp [parents]
    have passed : indicator (decide (id ∈ start :: next :: rest)) =
        indicator (decide (id = start)) + indicator (decide (id ∈ next :: rest)) := by
      by_cases same : id = start
      · subst same
        simp [indicator] at later ⊢
        simp [later]
      · simp [indicator, same]
    have children : (node.children.map fun child => indicator (decide (child ∈ start :: next :: rest))).sum =
        indicator (decide (start ∈ node.children)) +
          (node.children.map fun child => indicator (decide (child ∈ next :: rest))).sum := by
      rw [← sum_indicator_eq node.children distinct start, ← sum_map_add]
      congr 1
      apply map_congr_left
      intro child _
      by_cases same : child = start
      · subst same
        simp only [mem_cons] at later
        simp [indicator, later]
      · simp [indicator, same]
    have below := ih chain
    rw [isNext] at below
    rw [passed, children, getLast?_cons_cons]
    omega

theorem length_filter_cons (keep : List Nat × R → Bool) (entry : List Nat × R) (log : Log R) :
    ((entry :: log).filter keep).length = indicator (keep entry) + (log.filter keep).length := by
  cases kept : keep entry with
  | true =>
    simp [indicator, kept]
    omega
  | false => simp [indicator, kept]

/-- Over all iterations: those through a node end there or go on to one of its children. -/
theorem length_through (linked : Linked nodes) (found : nodes[id]? = some node) {log : Log R}
    (paths : ∀ entry ∈ log, entry.1.head? = some 0 ∧ Downward nodes entry.1) :
    (through log id).length = (log.filter fun entry => entry.1.getLast? = some id).length +
      (node.children.map fun child => (through log child).length).sum := by
  simp only [through, length_map]
  induction log with
  | nil => simp
  | cons entry rest ih =>
    have others := ih fun entry mem => paths entry (mem_cons_of_mem _ mem)
    obtain ⟨first, downward⟩ := paths entry mem_cons_self
    have here : indicator (decide (id ∈ entry.1)) = indicator (decide (entry.1.getLast? = some id)) +
        (node.children.map fun child => indicator (decide (child ∈ entry.1))).sum := by
      cases way : entry.1 with
      | nil => simp [way] at first
      | cons start below =>
        rw [way] at first downward
        cases first
        have notChild : 0 ∉ node.children :=
          fun mem => Nat.not_lt_zero _ (linked.down _ _ _ found mem).1
        have balance := indicator_path linked found downward
        have none : indicator (decide (0 ∈ node.children)) = 0 := by simp [indicator, notChild]
        omega
    simp only [length_filter_cons, sum_map_add]
    omega

end

def visitsOf (nodes : List (Node A R)) (id : Nat) : Nat := (nodes[id]?.map Node.numVisit).getD 0

/-- The tree's visits and rewards, told from the paths and rewards of the iterations. -/
structure ExactAccounts [Zero R] [Add R] (nodes : List (Node A R)) (log : Log R) : Prop where
  paths : ∀ entry ∈ log, entry.1.head? = some 0 ∧ Downward nodes entry.1
  root : visitsOf nodes 0 = log.length
  others : ∀ id, 0 < id → id < nodes.length → 1 ≤ visitsOf nodes id
  visits : ∀ (id : Nat) (node : Node A R), nodes[id]? = some node →
    node.numVisit = (log.filter fun entry => id ∈ entry.1).length
  split : ∀ (id : Nat) (node : Node A R), nodes[id]? = some node →
    node.numVisit = (log.filter fun entry => entry.1.getLast? = some id).length +
      (node.children.map (visitsOf nodes)).sum
  rewards : ∀ (id : Nat) (node : Node A R), nodes[id]? = some node →
    node.reward = ((log.filter fun entry => id ∈ entry.1).map Prod.snd).foldl (· + ·) 0

theorem Accounted.exactAccounts [Zero R] [Add R] {log : Log R}
    (accounted : Accounted nodes log) : ExactAccounts nodes log := by
  have visits (id : Nat) (node : Node A R) (found : nodes[id]? = some node) :
      node.numVisit = (log.filter fun entry => id ∈ entry.1).length := by
    simpa [through] using (accounted.counted id node found).1
  have visitsOf_eq {id : Nat} (bound : id < nodes.length) : visitsOf nodes id = (through log id).length := by
    have found := getElem?_eq_getElem bound
    unfold visitsOf
    rw [found, Option.map_some, Option.getD_some]
    exact (accounted.counted id _ found).1
  refine ⟨accounted.paths, ?_, ?_, visits, ?_, fun id node found => (accounted.counted id node found).2⟩
  · obtain ⟨root, found, _⟩ := accounted.linked.root
    rw [visitsOf_eq (lt_length found)]
    unfold through
    rw [length_map, filter_eq_self.mpr]
    intro entry mem
    simpa using mem_of_head? (accounted.paths entry mem).1
  · intro id positive bound
    obtain ⟨entry, mem, passed⟩ := accounted.visited id positive bound
    rw [visitsOf_eq bound]
    unfold through
    rw [length_map]
    exact length_pos_of_mem (mem_filter.mpr ⟨mem, by simpa using passed⟩)
  · intro id node found
    rw [(accounted.counted id node found).1, length_through accounted.linked found accounted.paths]
    congr 2
    apply map_congr_left
    intro child mem
    obtain ⟨_, below, there, _⟩ := accounted.linked.down _ _ _ found mem
    exact (visitsOf_eq (lt_length there)).symm

end CactusDB.Mcts.VisitAccounts
