import CactusDB.Library.TextScan
import CactusDB.Mcts.Selection
import Mathlib.Algebra.Order.Ring.Int

/-! The search over pairs of an expression and a rule. An expansion takes one rule of an expression and
marks every rule of that expression as explored. -/

namespace CactusDB.Mcts.ExpressionSearch
open Library TextScan OrderedDict SearchTree VisitAccounts ExploredActions Selection List Dict

abbrev Action := Text × Text

abbrev Reply := List (Text × List Text)

def noAction : Action := ("None".toList, "None".toList)

/-- Taking no action is possible in the root and wherever another action is. -/
def getActionSpace (isRoot : Bool) (received : Reply) : Dict Action Bool :=
  let actionSpace := received.foldl (fun space pair =>
    pair.2.foldl (fun space action => space.set (pair.1, action) false) space) empty
  if isRoot || actionSpace.length != 0 then actionSpace.set noAction false else actionSpace

variable {R : Type}

def select (scoring : Scoring R) (nodes : List (Node Action R)) (node : Node Action R) : Except Failure Nat :=
  bestOf scoring nodes node node.children

def expand (draw : Nat) (received : Reply) (node : Node Action R) : Except Failure (Expansion Action) :=
  match randomChoice draw (unexplored node.actionSpace) with
  | none => .error .indexError
  | some selected =>
    let matchedKeys := node.actionSpace.keys.filter fun key => key.1 = selected.1
    .ok {
      explored := matchedKeys.foldl (fun space key => space.set key true) node.actionSpace
      action := selected
      actionSpace := getActionSpace false received
      isTerminal := if selected.1 = "None".toList then some true else none }

structure Luck (R : Type) where
  draw : Nat
  received : Reply
  reward : R

def moves (scoring : Scoring R) (luck : Luck R) : Moves Action R where
  select := fun _ nodes node => select scoring nodes node
  expand := fun _ node => expand luck.draw luck.received node

def search [Zero R] [Add R] (scoring : Scoring R) (rootReceived : Reply) (lucks : List (Luck R)) :
    Except Failure (Tree Action R × Log R) :=
  train (lucks.map fun luck => (moves scoring luck, luck.reward))
    (fresh (getActionSpace true rootReceived) none, [])

theorem selects_moves (scoring : Scoring R) (luck : Luck R) : Selects (moves scoring luck) :=
  fun _ _ _ _ selected => mem_of_bestOf selected

/-- For any replies, draws and rewards, the visits and rewards after a completed training are those of
its iterations. -/
theorem search_exactAccounts [Zero R] [Add R] (scoring : Scoring R) (rootReceived : Reply) (lucks : List (Luck R))
    (tree : Tree Action R) (log : Log R) (completed : search scoring rootReceived lucks = .ok (tree, log)) :
    ExactAccounts tree.nodes log ∧ log.length = lucks.length ∧ log.map Prod.snd = lucks.map Luck.reward := by
  have selects : ∀ iteration ∈ lucks.map fun luck => (moves scoring luck, luck.reward), Selects iteration.1 := by
    intro iteration mem
    obtain ⟨luck, _, same⟩ := mem_map.mp mem
    rw [← same]
    exact selects_moves scoring luck
  obtain ⟨accounted, length, rewards⟩ :=
    (accounted_fresh (getActionSpace true rootReceived) none).train selects completed
  refine ⟨accounted.exactAccounts, by simpa using length, ?_⟩
  rw [rewards]
  simp

def pairs (received : Reply) : List Action := received.flatMap fun pair => pair.2.map (pair.1, ·)

theorem getActionSpace_eq (isRoot : Bool) (received : Reply) : getActionSpace isRoot received =
      let actionSpace := (pairs received).foldl (fun space key => space.set key false) empty
      if isRoot || actionSpace.length != 0 then actionSpace.set noAction false else actionSpace := by
  simp only [getActionSpace, pairs, foldl_flatMap, foldl_map]

theorem getActionSpace_flags (isRoot : Bool) (received : Reply) :
    ∀ entry ∈ (getActionSpace isRoot received).entries, entry.2 = false := by
  have flags : ∀ entry ∈ ((pairs received).foldl (fun space key => space.set key false) empty).entries,
      entry.2 = false := forall_foldl_set (· = false) (pairs received) (by simp [empty]) rfl
  rw [getActionSpace_eq]
  dsimp only
  split
  · exact forall_set (· = false) flags noAction rfl
  · exact flags

theorem mem_keys_getActionSpace {isRoot : Bool} {received : Reply} {action : Action}
    (mem : action ∈ (getActionSpace isRoot received).keys) : action ∈ pairs received ∨ action = noAction := by
  have listed (found : action ∈ ((pairs received).foldl (fun space key => space.set key false) empty).keys) :
      action ∈ pairs received := by
    have mem := (mem_keys_foldl_set (pairs received) empty false action).mp found
    simpa [Dict.keys, empty] using mem
  rw [getActionSpace_eq] at mem
  dsimp only at mem
  split at mem
  · exact (mem_keys_set.mp mem).elim .inr fun found => .inl (listed found)
  · exact .inl (listed mem)

/-- No expression comes with two rules, and the expression `None` with no rule but `None`. -/
def OneRule (received : Reply) : Prop :=
  ∀ first ∈ noAction :: pairs received, ∀ second ∈ noAction :: pairs received, first.1 = second.1 → first = second

instance (received : Reply) : Decidable (OneRule received) :=
  inferInstanceAs (Decidable (∀ first ∈ noAction :: pairs received, ∀ second ∈ noAction :: pairs received,
    first.1 = second.1 → first = second))

/-- What holds of the actions of every node: none is told from another by its rule only, and a node
without actions is terminal. -/
def Distinguished (actions : List Action) (isTerminal : Bool) : Prop :=
  (∀ first ∈ actions, ∀ second ∈ actions, first.1 = second.1 → first = second) ∧
    (isTerminal = false → actions ≠ [])

theorem distinguished_getActionSpace {received : Reply} (one : OneRule received) (isRoot : Bool)
    (isTerminal : Option Bool) (given : isTerminal ≠ some false) :
    Distinguished (getActionSpace isRoot received).keys
      (isTerminal.getD ((getActionSpace isRoot received).length == 0)) := by
  constructor
  · intro first inFirst second inSecond
    apply one
    · exact mem_cons.mpr (mem_keys_getActionSpace inFirst).symm
    · exact mem_cons.mpr (mem_keys_getActionSpace inSecond).symm
  · intro inner none
    have length : (getActionSpace isRoot received).length = 0 := by rw [length_eq, none]; rfl
    match isTerminal with
    | some true => simp at inner
    | some false => exact given rfl
    | .none => simp [length] at inner

section

variable {nodes : List (Node Action R)} {node : Node Action R}

/-- When no other action has its expression, the chosen action is the only one that gets marked. -/
theorem marks_of_expand {draw : Nat} {received : Reply} {expansion : Expansion Action}
    (distinguished : Distinguished node.actionSpace.keys node.isTerminal)
    (success : expand draw received node = .ok expansion) : Marks node expansion := by
  unfold expand at success
  split at success
  · simp at success
  · next selected chosen =>
      have entry := mem_unexplored.mp (mem_of_randomChoice chosen)
      have isKey : selected ∈ node.actionSpace.keys := mem_keys_iff.mpr ⟨_, entry⟩
      have alone : (node.actionSpace.keys.filter fun key => key.1 = selected.1) = [selected] := by
        have distinct : node.actionSpace.keys.Nodup := node.actionSpace.distinct
        rw [← perm_singleton, perm_ext_iff_of_nodup (distinct.filter _) (nodup_singleton _)]
        intro key
        rw [mem_filter, mem_singleton]
        constructor
        · intro found
          exact distinguished.1 key found.1 selected isKey (by simpa using found.2)
        · intro same
          subst same
          exact ⟨isKey, by simp⟩
      rw [alone] at success
      cases success
      refine ⟨entry, ?_, keys_set_of_mem isKey true, getActionSpace_flags false received⟩
      intro other
      exact mem_set

theorem isTerminal_of_expand {draw : Nat} {received : Reply} {expansion : Expansion Action}
    (success : expand draw received node = .ok expansion) :
    expansion.actionSpace = getActionSpace false received ∧ expansion.isTerminal ≠ some false := by
  unfold expand at success
  split at success
  · simp at success
  · cases success
    refine ⟨rfl, ?_⟩
    dsimp only
    split <;> simp

variable [Zero R] [Add R] {log : Log R}

/-- Between iterations, a full node has visited children and the others an action left. -/
theorem ready_moves (scoring : Scoring R) (luck : Luck R) (accounted : Accounted nodes log) (explored : Explored nodes)
    (everywhere : Everywhere Distinguished nodes) : Ready (moves scoring luck) nodes := by
  intro id node found inner
  constructor
  · intro full
    have some_child : node.children ≠ [] := by
      intro none
      have noActions := everywhere id node found
      apply noActions.2 inner
      have length : node.children.length = node.actionSpace.length := by simpa [Node.allExpanded] using full
      rw [none, length_eq] at length
      exact length_eq_zero_iff.mp length.symm
    obtain ⟨child, selected⟩ := bestOf_succeeds scoring some_child
      (fun child mem => child_visited accounted found mem) (visited_of_child accounted found some_child)
    exact ⟨child, mem_of_bestOf selected, selected⟩
  · intro room
    have left : unexplored node.actionSpace ≠ [] := by
      intro none
      rw [(allExpanded_iff explored found).mpr none] at room
      exact absurd room (by decide)
    obtain ⟨selected, chosen⟩ := randomChoice_succeeds luck.draw left
    unfold moves expand
    dsimp only
    rw [chosen]
    exact ⟨_, rfl⟩

end

section

variable [Zero R] [Add R]

structure Orderly (tree : Tree Action R) (log : Log R) : Prop where
  accounted : Accounted tree.nodes log
  explored : Explored tree.nodes
  everywhere : Everywhere Distinguished tree.nodes
  flags : FlagsSound tree

theorem orderly_fresh {received : Reply} (one : OneRule received) :
    Orderly (fresh (getActionSpace true received) none : Tree Action R) [] where
  accounted := accounted_fresh _ _
  explored := by
    intro id node found
    cases id with
    | zero =>
      cases found
      simp [Node.new, taken_empty_of_flags (getActionSpace_flags true received)]
    | succ id => simp [fresh] at found
  everywhere := by
    intro id node found
    cases id with
    | zero =>
      cases found
      exact distinguished_getActionSpace one true none (by simp)
    | succ id => simp [fresh] at found
  flags := by
    intro id node found raised
    cases id with
    | zero =>
      cases found
      have none : (getActionSpace true received).length = 0 := by simpa [fresh] using raised
      simp [Node.allExpanded, Node.new, none]
    | succ id => simp [fresh] at found

variable {tree : Tree Action R} {log : Log R} (orderly : Orderly tree log) (scoring : Scoring R)
include log orderly

theorem Orderly.marksAll (luck : Luck R) : MarksAll (moves scoring luck) tree.nodes :=
  fun id node _ found expanded => marks_of_expand (orderly.everywhere id node found) expanded

/-- An iteration is completed and leaves everything in order. -/
theorem Orderly.iterate {luck : Luck R} (one : OneRule luck.received) :
    ∃ after path, SearchTree.iterate (moves scoring luck) luck.reward tree = .ok (after, path) ∧
      Orderly after (log ++ [(path, luck.reward)]) := by
  have selects := selects_moves scoring luck
  have ready := ready_moves scoring luck orderly.accounted orderly.explored orderly.everywhere
  obtain ⟨after, path, success⟩ := iterate_succeeds orderly.accounted selects ready luck.reward
  obtain ⟨growth, iterated⟩ := iterated_of_iterate orderly.accounted selects success
  have marks := orderly.marksAll scoring luck
  refine ⟨after, path, success, orderly.accounted.iterate selects success,
    orderly.explored.iterated orderly.accounted.linked marks iterated,
    orderly.everywhere.iterated marks ?_ iterated, orderly.flags.iterate orderly.accounted selects success⟩
  intro id node expansion expanded
  obtain ⟨space, given⟩ := isTerminal_of_expand expanded
  rw [space]
  exact distinguished_getActionSpace one false expansion.isTerminal given

theorem Orderly.train {lucks : List (Luck R)} (one : ∀ luck ∈ lucks, OneRule luck.received) :
    ∃ after final, SearchTree.train (lucks.map fun luck => (moves scoring luck, luck.reward)) (tree, log) =
      .ok (after, final) ∧ Orderly after final := by
  induction lucks generalizing tree log with
  | nil => exact ⟨tree, log, rfl, orderly⟩
  | cons luck rest ih =>
    obtain ⟨middle, path, success, next⟩ := orderly.iterate scoring (one luck mem_cons_self)
    obtain ⟨after, final, finished, last⟩ := ih next fun other mem => one other (mem_cons_of_mem _ mem)
    refine ⟨after, final, ?_, last⟩
    rw [map_cons, SearchTree.train, success]
    exact finished

end

/-- When no reply gives an expression two rules, every training is completed: each expansion finds an
unexplored action. A check marks a node exactly when each of its actions has a child, and no mark is
wrong at any time. -/
theorem search_completes [Zero R] [Add R] (scoring : Scoring R) (rootReceived : Reply) (lucks : List (Luck R))
    (rootOne : OneRule rootReceived) (one : ∀ luck ∈ lucks, OneRule luck.received) :
    ∃ tree log, search scoring rootReceived lucks = .ok (tree, log) ∧
      ∀ (id : Nat) (node : Node Action R), tree.nodes[id]? = some node →
        ((tree.checkAndUpdateIsFullyExpanded id node).isFullyExpanded id = true ↔ Complete tree.nodes node) ∧
        (tree.isFullyExpanded id = true → Complete tree.nodes node) := by
  obtain ⟨tree, log, success, orderly⟩ := (orderly_fresh (R := R) rootOne).train scoring one
  refine ⟨tree, log, success, ?_⟩
  intro id node found
  have complete := allExpanded_iff_complete orderly.explored found
  rw [checkAndUpdate_flag]
  exact ⟨complete, fun raised => complete.mp (orderly.flags id node found raised)⟩

def byReward : Scoring Int := ⟨Int, fun reward _ _ => reward, fun first second => decide (second < first)⟩

def oneRuleReply : Reply := [("e".toList, ["r".toList]), ("f".toList, ["s".toList])]

def twoRulesReply : Reply := [("e".toList, ["r".toList, "s".toList])]

def sampleLucks : List (Luck Int) := [⟨0, oneRuleReply, -3⟩, ⟨1, [], -2⟩, ⟨0, [], -1⟩, ⟨0, [], -4⟩]

theorem search_completes_sample :
    ∃ tree log, search byReward oneRuleReply sampleLucks = .ok (tree, log) ∧
      ∀ (id : Nat) (node : Node Action Int), tree.nodes[id]? = some node →
        ((tree.checkAndUpdateIsFullyExpanded id node).isFullyExpanded id = true ↔ Complete tree.nodes node) ∧
        (tree.isFullyExpanded id = true → Complete tree.nodes node) :=
  search_completes byReward oneRuleReply sampleLucks (by decide) (by decide)

/-- Both rules of the expression are marked by the first expansion, but only one child is counted: the
third iteration has nothing left to draw from. -/
theorem twoRules_stuck :
    search byReward twoRulesReply [⟨0, [], -1⟩, ⟨0, [], -2⟩, ⟨0, [], -3⟩] = .error .indexError := by rfl

def sampleOutcome : Tree Action Int × Log Int :=
  match search byReward oneRuleReply sampleLucks with
  | .ok outcome => outcome
  | .error _ => (fresh empty none, [])

theorem sampleOutcome_completed : search byReward oneRuleReply sampleLucks = .ok sampleOutcome := by rfl

theorem sampleOutcome_exactAccounts :
    ExactAccounts sampleOutcome.1.nodes sampleOutcome.2 ∧ sampleOutcome.2.length = 4 ∧
      sampleOutcome.2.map Prod.snd = [-3, -2, -1, -4] :=
  search_exactAccounts byReward oneRuleReply sampleLucks _ _ sampleOutcome_completed

end CactusDB.Mcts.ExpressionSearch
