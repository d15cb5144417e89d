import CactusDB.Library.TextScan
import CactusDB.Mcts.Selection
import Mathlib.Algebra.Order.Ring.Int

/-! The search over rules with a tree that is used again for other queries. The action space of a node
is the one of the query it was made for; at every node the optimizer is asked for the current one. -/

namespace CactusDB.Mcts.ReusableSearch
open Library TextScan OrderedDict SearchTree VisitAccounts ExploredActions Selection List Dict

abbrev Reply := List (Text × List Text)

def noAction : Text := "None".toList

def getActionSpace (received : Reply) : Dict Text Bool :=
  (received.foldl (fun space pair => pair.2.foldl (fun space action => space.set action false) space)
    empty).set noAction false

variable {R : Type}

def applicableChildren (live : Reply) (nodes : List (Node Text R)) (node : Node Text R) : List Nat :=
  node.children.filter fun child => (fromActionOf nodes child).any (getActionSpace live).keys.contains

def select (scoring : Scoring R) (live : Reply) (nodes : List (Node Text R)) (node : Node Text R) :
    Except Failure Nat := bestOf scoring nodes node (applicableChildren live nodes node)

/-- The search that follows the training goes down through selected children, whether a node is fully expanded or not,
to a terminal node, to one without children, or to one where its time is up. -/
def search (scoring : Scoring R) (live : Nat → Reply) (expired : Nat → Bool) :
    Nat → Tree Text R → Nat → Except Failure (Tree Text R × List Nat)
  | 0, _, _ => .error .endless
  | fuel + 1, tree, id =>
    match tree.nodes[id]? with
    | none => .error .dangling
    | some node =>
      if node.isTerminal || expired id || node.children.isEmpty then .ok (tree, [id])
      else
        let tree := tree.checkAndUpdateIsFullyExpanded id node
        match select scoring (live id) tree.nodes node with
        | .error failure => .error failure
        | .ok child =>
          match search scoring live expired fuel tree child with
          | .error failure => .error failure
          | .ok (after, path) => .ok (after, id :: path)

def unexploredOf (space : Dict Text Bool) : List Text → Except Failure (List Text)
  | [] => .ok []
  | key :: rest =>
    match space.get? key with
    | none => .error .keyError
    | some explored =>
      match unexploredOf space rest with
      | .error failure => .error failure
      | .ok others => .ok (if explored then others else key :: others)

def expand (draw : Nat) (live received : Reply) (node : Node Text R) : Except Failure (Expansion Text) :=
  match unexploredOf node.actionSpace (getActionSpace live).keys with
  | .error failure => .error failure
  | .ok actions =>
    match randomChoice draw actions with
    | none => .error .indexError
    | some selected => .ok {
        explored := node.actionSpace.set selected true
        action := selected
        actionSpace := getActionSpace received
        isTerminal := if selected = noAction then some true else none }

/-- What comes from outside in one iteration: `live` is the optimizer's reply at each node that the
iteration may pass, `received` its reply after the expansion. -/
structure Luck (R : Type) where
  draw : Nat
  live : Nat → Reply
  received : Reply
  reward : R

def moves (scoring : Scoring R) (luck : Luck R) : Moves Text R where
  select := fun id nodes node => select scoring (luck.live id) nodes node
  expand := fun id node => expand luck.draw (luck.live id) luck.received node

def iterations (scoring : Scoring R) (lucks : List (Luck R)) : List (Moves Text R × R) :=
  lucks.map fun luck => (moves scoring luck, luck.reward)

def applicableTargetExprs (actionsPair : Reply) (rule : Text) : List Text :=
  actionsPair.flatMap fun entry => (entry.2.filter (· = rule)).map fun _ => entry.1

def handleTakeAction (actionsPair : Reply) (rule : Text) : Except Text (List Text) :=
  if rule = noAction then .ok []
  else
    match applicableTargetExprs actionsPair rule with
    | [] => .error
        ("[INFO] No applicable target expressions found for the selected high level optimization rule: ".toList ++ rule)
    | exprs => .ok exprs

def rules (received : Reply) : List Text := received.flatMap Prod.snd

theorem getActionSpace_eq (received : Reply) : getActionSpace received =
      ((rules received).foldl (fun space key => space.set key false) empty).set noAction false := by
  rw [getActionSpace, rules, foldl_flatMap]

theorem mem_keys_getActionSpace {received : Reply} {action : Text} :
    action ∈ (getActionSpace received).keys ↔ action = noAction ∨ action ∈ rules received := by
  rw [getActionSpace_eq, mem_keys_set, mem_keys_foldl_set]
  simp [Dict.keys, empty]

theorem getActionSpace_flags (received : Reply) : ∀ entry ∈ (getActionSpace received).entries, entry.2 = false := by
  rw [getActionSpace_eq]
  apply forall_set (· = false) _ noAction rfl
  exact forall_foldl_set (· = false) (rules received) (by simp [empty]) rfl

/-- The optimizer accepts every action that it has on offer. -/
theorem handleTakeAction_succeeds {live : Reply} {action : Text} (offered : action ∈ (getActionSpace live).keys) :
    ∃ exprs, handleTakeAction live action = .ok exprs := by
  unfold handleTakeAction
  by_cases idle : action = noAction
  · exact ⟨[], by rw [if_pos idle]⟩
  · rw [if_neg idle]
    have listed : action ∈ rules live := (mem_keys_getActionSpace.mp offered).resolve_left idle
    obtain ⟨entry, inReply, inEntry⟩ := mem_flatMap.mp listed
    have target : entry.1 ∈ applicableTargetExprs live action := by
      apply mem_flatMap.mpr
      refine ⟨entry, inReply, mem_map.mpr ⟨action, mem_filter.mpr ⟨inEntry, by simp⟩, rfl⟩⟩
    cases exprs : applicableTargetExprs live action with
    | nil =>
      rw [exprs] at target
      exact absurd target not_mem_nil
    | cons first rest => exact ⟨_, rfl⟩

/-- All actions on offer are recorded at the node, and one of them has not been explored. -/
def Fits (live : Reply) (space : Dict Text Bool) : Prop :=
  (∀ action ∈ (getActionSpace live).keys, action ∈ space.keys) ∧
    ∃ action ∈ (getActionSpace live).keys, (action, false) ∈ space.entries

theorem unexploredOf_succeeds {space : Dict Text Bool} {keys : List Text} (recorded : ∀ key ∈ keys, key ∈ space.keys) :
    unexploredOf space keys = .ok (keys.filter fun key => space.get? key = some false) := by
  induction keys with
  | nil => rfl
  | cons key rest ih =>
    have others := ih fun other mem => recorded other (mem_cons_of_mem _ mem)
    obtain ⟨flag, entry⟩ := mem_keys_iff.mp (recorded key mem_cons_self)
    have value := get?_eq_some.mpr entry
    unfold unexploredOf
    rw [value, others]
    cases flag <;> simp [value]

theorem recorded_of_unexploredOf {space : Dict Text Bool} {keys actions : List Text}
    (success : unexploredOf space keys = .ok actions) : ∀ key ∈ keys, key ∈ space.keys := by
  induction keys generalizing actions with
  | nil => exact fun key mem => absurd mem not_mem_nil
  | cons key rest ih =>
    unfold unexploredOf at success
    split at success
    · simp at success
    · next explored found =>
        split at success
        · simp at success
        · next others below =>
            intro other mem
            cases mem_cons.mp mem with
            | inl same =>
              rw [same]
              exact mem_keys_iff.mpr ⟨_, get?_eq_some.mp found⟩
            | inr later => exact ih below other later

theorem expand_eq {draw : Nat} {live received : Reply} {node : Node Text R} {expansion : Expansion Text}
    (success : expand draw live received node = .ok expansion) :
    (∀ action ∈ (getActionSpace live).keys, action ∈ node.actionSpace.keys) ∧
      expansion.action ∈ (getActionSpace live).keys ∧ (expansion.action, false) ∈ node.actionSpace.entries ∧
      expansion.explored = node.actionSpace.set expansion.action true ∧
      expansion.actionSpace = getActionSpace received := by
  unfold expand at success
  split at success
  · simp at success
  · next actions looked =>
      have recorded := recorded_of_unexploredOf looked
      rw [unexploredOf_succeeds recorded] at looked
      cases looked
      split at success
      · simp at success
      · next selected chosen =>
          cases success
          obtain ⟨offered, unexplored⟩ := mem_filter.mp (mem_of_randomChoice chosen)
          exact ⟨recorded, offered, get?_eq_some.mp (by simpa using unexplored), rfl, rfl⟩

/-- The expansion of a node goes through exactly when the current action space fits the recorded one. -/
theorem expand_succeeds_iff (draw : Nat) (live received : Reply) (node : Node Text R) :
    (∃ expansion, expand draw live received node = .ok expansion) ↔ Fits live node.actionSpace := by
  constructor
  · intro success
    obtain ⟨expansion, success⟩ := success
    obtain ⟨recorded, offered, unexplored, _⟩ := expand_eq success
    exact ⟨recorded, expansion.action, offered, unexplored⟩
  · intro fits
    obtain ⟨recorded, action, offered, unexplored⟩ := fits
    have inhabited : ((getActionSpace live).keys.filter fun key => node.actionSpace.get? key = some false) ≠ [] := by
      apply ne_nil_of_mem (a := action)
      exact mem_filter.mpr ⟨offered, by simpa using get?_eq_some.mpr unexplored⟩
    obtain ⟨selected, chosen⟩ := randomChoice_succeeds draw inhabited
    unfold expand
    rw [unexploredOf_succeeds recorded]
    dsimp only
    rw [chosen]
    exact ⟨_, rfl⟩

theorem marks_of_expand {draw : Nat} {live received : Reply} {node : Node Text R} {expansion : Expansion Text}
    (success : expand draw live received node = .ok expansion) : Marks node expansion := by
  obtain ⟨_, _, unexplored, explored, space⟩ := expand_eq success
  have isKey : expansion.action ∈ node.actionSpace.keys := mem_keys_iff.mpr ⟨_, unexplored⟩
  refine ⟨unexplored, ?_, ?_, ?_⟩
  · intro entry
    rw [explored]
    exact mem_set
  · rw [explored]
    exact keys_set_of_mem isKey true
  · rw [space]
    exact getActionSpace_flags received

theorem selects_moves (scoring : Scoring R) (luck : Luck R) : Selects (moves scoring luck) :=
  fun _ _ _ _ selected => (mem_filter.mp (mem_of_bestOf selected)).1

section

variable [Zero R] [Add R] {scoring : Scoring R} {luck : Luck R} {nodes final : List (Node Text R)} {log : Log R}
  {reward : R} {path : List Nat} {growth : Option (Nat × Node Text R × Expansion Text)}

/-- Some child of a node stands for an action that is on offer. -/
def Offers (live : Reply) (nodes : List (Node Text R)) (node : Node Text R) : Prop :=
  ∃ child ∈ node.children, ∃ action ∈ (getActionSpace live).keys, fromActionOf nodes child = some action

omit [Zero R] [Add R] in
theorem mem_applicableChildren {live : Reply} {node : Node Text R} {child : Nat} :
    child ∈ applicableChildren live nodes node ↔ child ∈ node.children ∧
      ∃ action ∈ (getActionSpace live).keys, fromActionOf nodes child = some action := by
  unfold applicableChildren
  rw [mem_filter]
  cases fromActionOf nodes child <;> simp

/-- A child is selected exactly when one of them stands for an action on offer. -/
theorem select_succeeds_iff (accounted : Accounted nodes log) (scoring : Scoring R) (live : Reply) {id : Nat}
    {node : Node Text R} (found : nodes[id]? = some node) :
    (∃ child, select scoring live nodes node = .ok child) ↔ Offers live nodes node := by
  constructor
  · rintro ⟨child, selected⟩
    exact ⟨child, mem_applicableChildren.mp (mem_of_bestOf selected)⟩
  · rintro ⟨child, offered⟩
    have applicable := mem_applicableChildren.mpr offered
    exact bestOf_succeeds scoring (ne_nil_of_mem applicable)
      (fun child inside => child_visited accounted found (mem_filter.mp inside).1)
      (visited_of_child accounted found (ne_nil_of_mem offered.1))

structure Orderly (nodes : List (Node Text R)) (log : Log R) : Prop where
  accounted : Accounted nodes log
  explored : Explored nodes
  everywhere : Everywhere (fun actions _ => noAction ∈ actions) nodes

theorem orderly_fresh (received : Reply) :
    Orderly (fresh (getActionSpace received) none : Tree Text R).nodes [] where
  accounted := accounted_fresh _ _
  explored := by
    intro id node found
    cases id with
    | zero =>
      cases found
      simp [Node.new, taken_empty_of_flags (getActionSpace_flags received)]
    | succ id => simp [fresh] at found
  everywhere := by
    intro id node found
    cases id with
    | zero =>
      cases found
      exact mem_keys_getActionSpace.mpr (.inl rfl)
    | succ id => simp [fresh] at found

theorem Orderly.iterate {tree after : Tree Text R} (orderly : Orderly tree.nodes log)
    (success : SearchTree.iterate (moves scoring luck) reward tree = .ok (after, path)) :
    Orderly after.nodes (log ++ [(path, reward)]) := by
  have selects := selects_moves scoring luck
  have marks : MarksAll (moves scoring luck) tree.nodes := fun _ _ _ _ expanded => marks_of_expand expanded
  obtain ⟨growth, iterated⟩ := iterated_of_iterate orderly.accounted selects success
  refine ⟨orderly.accounted.iterate selects success,
    orderly.explored.iterated orderly.accounted.linked marks iterated,
    orderly.everywhere.iterated marks ?_ iterated⟩
  intro id node expansion expanded
  rw [(expand_eq expanded).2.2.2.2]
  exact mem_keys_getActionSpace.mpr (.inl rfl)

theorem Orderly.train {lucks : List (Luck R)} {tree after : Tree Text R} {finalLog : Log R}
    (orderly : Orderly tree.nodes log)
    (success : SearchTree.train (iterations scoring lucks) (tree, log) = .ok (after, finalLog)) :
    Orderly after.nodes finalLog := by
  induction lucks generalizing tree log with
  | nil =>
    cases success
    exact orderly
  | cons luck rest ih =>
    unfold iterations at success
    rw [map_cons, SearchTree.train] at success
    split at success
    · simp at success
    · next middle path outcome => exact ih (orderly.iterate outcome) success

def FitsTree (luck : Luck R) (nodes : List (Node Text R)) : Prop :=
  ∀ (id : Nat) (node : Node Text R), nodes[id]? = some node → node.isTerminal = false → node.allExpanded = false →
    Fits (luck.live id) node.actionSpace

/-- A full node has a child for taking no action, which is always on offer. -/
theorem ready_moves (orderly : Orderly nodes log) (fits : FitsTree luck nodes) : Ready (moves scoring luck) nodes := by
  intro id node found inner
  constructor
  · intro full
    have complete := (allExpanded_iff_complete orderly.explored found).mp full
    obtain ⟨idle, mem, fromIdle⟩ := complete noAction (orderly.everywhere id node found)
    have offers : Offers (luck.live id) nodes node :=
      ⟨idle, mem, noAction, mem_keys_getActionSpace.mpr (.inl rfl), fromIdle⟩
    obtain ⟨child, selected⟩ := (select_succeeds_iff orderly.accounted scoring _ found).mpr offers
    exact ⟨child, (mem_filter.mp (mem_of_bestOf selected)).1, selected⟩
  · intro room
    exact (expand_succeeds_iff luck.draw (luck.live id) luck.received node).mpr (fits id node found inner room)

/-- Along a path, every action sent from a node is on offer there and accepted by the optimizer. -/
def Accepted (live : Nat → Reply) (nodes : List (Node Text R)) (path : List Nat) : Prop :=
  List.IsChain (fun id child => ∃ action, fromActionOf nodes child = some action ∧
    action ∈ (getActionSpace (live id)).keys ∧ ∃ exprs, handleTakeAction (live id) action = .ok exprs) path

omit [Add R] in
theorem accepted_of_descends {id : Nat} (linked : Linked nodes)
    (descends : Descends (moves scoring luck) nodes id path growth) : Accepted luck.live (grown nodes growth) path := by
  induction descends with
  | stop => exact isChain_singleton _
  | @grow id node expansion found inner room expanded =>
    obtain ⟨_, offered, _⟩ := expand_eq expanded
    refine isChain_pair.mpr ⟨expansion.action, ?_, offered, handleTakeAction_succeeds offered⟩
    unfold fromActionOf grown
    rw [getElem?_attach_new]
    rfl
  | @pass id child node path growth found inner full selected below ih =>
    obtain ⟨mem, name, offered, action⟩ := mem_applicableChildren.mp (mem_of_bestOf selected)
    cases path with
    | nil => exact isChain_singleton _
    | cons first rest =>
      have head := (downward_of_descends below (selects_moves scoring luck)).1
      cases head
      refine isChain_cons_cons.mpr ⟨⟨name, ?_, offered, handleTakeAction_succeeds offered⟩, ih⟩
      obtain ⟨_, node', there, _⟩ := linked.down _ _ _ found mem
      cases grows : growth with
      | none => exact action
      | some entry =>
        rw [← action]
        exact fromActionOf_attach_old entry.2.2 (growth_found below grows).1 there

theorem fromActionOf_kept (iterated : Iterated (moves scoring luck) reward nodes final path growth) {id : Nat}
    (bound : id < nodes.length) : fromActionOf final id = fromActionOf nodes id := by
  rw [fromActionOf_iterated iterated]
  cases grows : growth with
  | none => rfl
  | some entry =>
    exact fromActionOf_attach_old entry.2.2 (growth_found iterated.descends grows).1 (getElem?_eq_getElem bound)

omit [Zero R] [Add R] in
theorem Accepted.congr {live : Nat → Reply} (accepted : Accepted live nodes path)
    (kept : ∀ id ∈ path, fromActionOf final id = fromActionOf nodes id) : Accepted live final path := by
  induction path with
  | nil => exact isChain_nil
  | cons id rest ih =>
    cases rest with
    | nil => exact isChain_singleton _
    | cons child rest =>
      obtain ⟨⟨action, sent, offered⟩, chain⟩ := isChain_cons_cons.mp accepted
      refine isChain_cons_cons.mpr ⟨⟨action, ?_, offered⟩, ?_⟩
      · rw [kept child (mem_cons_of_mem _ mem_cons_self)]
        exact sent
      · exact ih chain fun other mem => kept other (mem_cons_of_mem _ mem)

/-- Wherever the search can go on, a child stands for an action on offer. -/
def OffersTree (live : Nat → Reply) (expired : Nat → Bool) (nodes : List (Node Text R)) : Prop :=
  ∀ (id : Nat) (node : Node Text R), nodes[id]? = some node → node.isTerminal = false → expired id = false →
    node.children ≠ [] → Offers (live id) nodes node

/-- The search ends within the number of nodes that come after its start. -/
theorem search_succeeds {live : Nat → Reply} {expired : Nat → Bool} (accounted : Accounted nodes log)
    (offers : OffersTree live expired nodes) (scoring : Scoring R) {fuel id : Nat} (tree : Tree Text R)
    (same : tree.nodes = nodes) (bound : id < nodes.length) (enough : nodes.length ≤ fuel + id) :
    ∃ after rest, search scoring live expired fuel tree id = .ok (after, id :: rest) ∧
      Accepted live nodes (id :: rest) := by
  induction fuel generalizing id tree with
  | zero => omega
  | succ fuel ih =>
    have found : nodes[id]? = some nodes[id] := List.getElem?_eq_getElem bound
    generalize nodes[id] = node at found
    unfold search
    rw [same, found]
    dsimp only
    by_cases stops : (node.isTerminal || expired id || node.children.isEmpty) = true
    · exact ⟨tree, [], by rw [if_pos stops], isChain_singleton _⟩
    · have goesOn : (node.isTerminal = false ∧ expired id = false) ∧ node.children ≠ [] := by simpa using stops
      have offered := offers id node found goesOn.1.1 goesOn.1.2 goesOn.2
      obtain ⟨child, selected⟩ := (select_succeeds_iff accounted scoring (live id) found).mpr offered
      obtain ⟨mem, action, offered, sent⟩ := mem_applicableChildren.mp (mem_of_bestOf selected)
      obtain ⟨later, below, there, _⟩ := accounted.linked.down _ _ _ found mem
      obtain ⟨after, rest, success, accepted⟩ := ih (tree.checkAndUpdateIsFullyExpanded id node) same
        (lt_length there) (by omega)
      refine ⟨after, child :: rest, ?_, isChain_cons_cons.mpr ⟨⟨action, sent, offered, ?_⟩, accepted⟩⟩
      · simp only [if_neg stops, checkAndUpdate_nodes, same, selected, success]
      · exact handleTakeAction_succeeds offered

end

section

variable [Zero R] [Add R]

/-- Every iteration fits the tree that the iterations before it have left. -/
def FitsRun (scoring : Scoring R) : List (Luck R) → Tree Text R → Prop
  | [], _ => True
  | luck :: rest, tree =>
    FitsTree luck tree.nodes ∧
      ∀ after path, iterate (moves scoring luck) luck.reward tree = .ok (after, path) → FitsRun scoring rest after

theorem train_accepted {scoring : Scoring R} {lucks : List (Luck R)} {tree : Tree Text R} {log : Log R}
    (orderly : Orderly tree.nodes log) (fits : FitsRun scoring lucks tree) :
    ∃ after entries, train (iterations scoring lucks) (tree, log) = .ok (after, log ++ entries) ∧
      (∀ id < tree.nodes.length, fromActionOf after.nodes id = fromActionOf tree.nodes id) ∧
      List.Forall₂ (fun luck (entry : List Nat × R) => Accepted luck.live after.nodes entry.1) lucks entries := by
  induction lucks generalizing tree log with
  | nil => exact ⟨tree, [], by simp [iterations, train], fun _ _ => rfl, .nil⟩
  | cons luck rest ih =>
    have selects := selects_moves scoring luck
    obtain ⟨middle, path, success⟩ :=
      iterate_succeeds orderly.accounted selects (ready_moves orderly fits.1) luck.reward
    obtain ⟨growth, iterated⟩ := iterated_of_iterate orderly.accounted selects success
    have next := orderly.iterate success
    obtain ⟨after, entries, finished, kept, others⟩ := ih next (fits.2 middle path success)
    have here : Accepted luck.live middle.nodes path :=
      (accepted_of_descends orderly.accounted.linked iterated.descends).congr
        fun id _ => fromActionOf_iterated iterated id
    have inside := next.accounted.mem_path_lt (mem_append_right log (mem_cons_self (a := (path, luck.reward))))
    refine ⟨after, (path, luck.reward) :: entries, ?_, ?_, .cons ?_ others⟩
    · unfold iterations
      rw [map_cons, train, success]
      dsimp only
      rw [← iterations, finished, append_assoc]
      rfl
    · intro id bound
      have longer : tree.nodes.length ≤ middle.nodes.length := by
        rw [iterated.length]
        cases growth with
        | none => exact Nat.le_refl _
        | some entry => simp [grown]
      rw [kept id (by omega), fromActionOf_kept iterated bound]
    · exact here.congr fun id mem => kept id (inside id mem)

end

/-- With any tree of an earlier training, a training whose replies fit the recorded action spaces looks up
recorded keys only, always has something to choose from, and sends only actions that are on offer. So does the search
behind it, if every node with children has one for an action on offer. A node can be expanded, and a child of it
selected, under no weaker condition. -/
theorem reused_tree_safe [Zero R] [Add R] (scoring : Scoring R) (rootReceived : Reply) (earlier lucks : List (Luck R))
    (tree : Tree Text R) (log : Log R)
    (reused : train (iterations scoring earlier) (fresh (getActionSpace rootReceived) none, []) = .ok (tree, log))
    (fits : FitsRun scoring lucks tree) :
    (∃ after entries, train (iterations scoring lucks) (tree, log) = .ok (after, log ++ entries) ∧
      List.Forall₂ (fun luck (entry : List Nat × R) => Accepted luck.live after.nodes entry.1) lucks entries ∧
      (∀ (exploiting : Scoring R) (live : Nat → Reply) (expired : Nat → Bool), OffersTree live expired after.nodes →
        ∃ searched path, search exploiting live expired after.nodes.length after 0 = .ok (searched, path) ∧
          Accepted live after.nodes path) ∧
      ∀ (exploiting : Scoring R) (live : Reply) (id : Nat) (node : Node Text R), after.nodes[id]? = some node →
        ((∃ child, select exploiting live after.nodes node = .ok child) ↔ Offers live after.nodes node)) ∧
    ∀ (draw : Nat) (live received : Reply) (node : Node Text R),
      (∃ expansion, expand draw live received node = .ok expansion) ↔ Fits live node.actionSpace := by
  have orderly := (orderly_fresh (R := R) rootReceived).train reused
  obtain ⟨after, entries, finished, _, accepted⟩ := train_accepted orderly fits
  have accounted := (orderly.train finished).accounted
  refine ⟨⟨after, entries, finished, accepted, fun exploiting live expired offers => ?_,
    fun exploiting live id node found => select_succeeds_iff accounted exploiting live found⟩, expand_succeeds_iff⟩
  obtain ⟨root, found, _⟩ := accounted.linked.root
  obtain ⟨searched, rest, success, accepted⟩ :=
    search_succeeds accounted offers exploiting after rfl (lt_length found) (Nat.le_refl _)
  exact ⟨searched, 0 :: rest, success, accepted⟩

def byReward : Scoring Int := ⟨Int, fun reward _ _ => reward, fun first second => decide (second < first)⟩

def steady (draw : Nat) (reply : Reply) (reward : Int) : Luck Int := ⟨draw, fun _ => reply, reply, reward⟩

def recordedReply : Reply := [("e".toList, ["r".toList])]

def sampleTree : Tree Text Int × Log Int :=
  match train (iterations byReward [steady 1 recordedReply (-1)]) (fresh (getActionSpace recordedReply) none, []) with
  | .ok outcome => outcome
  | .error _ => (fresh empty none, [])

theorem sampleTree_reused :
    train (iterations byReward [steady 1 recordedReply (-1)]) (fresh (getActionSpace recordedReply) none, []) =
      .ok sampleTree := by rfl

theorem sampleTree_fits : FitsRun byReward [steady 0 recordedReply (-2)] sampleTree.1 := by
  refine ⟨?_, fun _ _ _ => trivial⟩
  intro id node found inner room
  match id with
  | 0 =>
    cases found
    exact ⟨by decide +kernel, "r".toList, by decide +kernel, by decide +kernel⟩
  | 1 =>
    cases found
    exact absurd inner (by decide +kernel)
  | id + 2 => exact absurd (lt_length found) (by simp [show sampleTree.1.nodes.length = 2 from rfl])

def sampleAfter : Tree Text Int :=
  match train (iterations byReward [steady 0 recordedReply (-2)]) sampleTree with
  | .ok outcome => outcome.1
  | .error _ => sampleTree.1

theorem sampleAfter_offers : OffersTree (fun _ => recordedReply) (fun _ => false) sampleAfter.nodes := by
  intro id node found inner _ parents
  match id with
  | 0 =>
    cases found
    exact ⟨1, by decide +kernel, noAction, by decide +kernel, by decide +kernel⟩
  | 1 | 2 =>
    cases found
    exact absurd rfl parents
  | id + 3 => exact absurd (lt_length found) (by simp [show sampleAfter.nodes.length = 3 from rfl])

theorem reused_tree_safe_sample :
    ∃ searched path, search byReward (fun _ => recordedReply) (fun _ => false) sampleAfter.nodes.length sampleAfter 0 =
      .ok (searched, path) ∧ Accepted (fun _ => recordedReply) sampleAfter.nodes path := by
  obtain ⟨⟨after, entries, trained, _, searches, _⟩, _⟩ := reused_tree_safe byReward recordedReply
    [steady 1 recordedReply (-1)] [steady 0 recordedReply (-2)] sampleTree.1 sampleTree.2 sampleTree_reused
    sampleTree_fits
  have same : after = sampleAfter := by
    unfold sampleAfter
    rw [show sampleTree = (sampleTree.1, sampleTree.2) from rfl, trained]
  subst same
  exact searches byReward _ _ sampleAfter_offers

def ruleTree : Tree Text Int × Log Int :=
  match train (iterations byReward [steady 0 recordedReply (-1)]) (fresh (getActionSpace recordedReply) none, []) with
  | .ok outcome => outcome
  | .error _ => (fresh empty none, [])

/-- A query with a rule that the reused root does not know, one for which every action on offer has
been explored while the root has more, and a search whose only child stands for a rule that is not on offer. -/
theorem other_queries_fail :
    train (iterations byReward [steady 0 [("e".toList, ["s".toList])] (-2)]) sampleTree = .error .keyError ∧
      train (iterations byReward [steady 0 [] (-2)]) sampleTree = .error .indexError ∧
      (search byReward (fun _ => []) (fun _ => false) ruleTree.1.nodes.length ruleTree.1 0).map Prod.snd =
        .error .valueError := ⟨by rfl, by rfl, by rfl⟩

end CactusDB.Mcts.ReusableSearch
