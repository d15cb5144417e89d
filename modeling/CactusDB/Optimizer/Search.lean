import CactusDB.Optimizer.InnerRewrites
import Mathlib.Data.Char
import Mathlib.Data.List.Dedup
import Mathlib.Data.List.Lex

/-! The search state of the optimizer: which rules are on offer for which targets, which have been
applied already, and the step that applies a list of them. -/

namespace CactusDB.Optimizer.Search
open Std Library TextScan Stateful Core.Plan Core.SqlText Resources RewriteAction List

variable {K : Type}

structure RuleManager (K : Type) where
  rules : TextMap (Rule K)

def RuleManager.pickRule (ruleManager : RuleManager K) (ruleName : Text) : Option (Rule K) :=
  ruleManager.rules[ruleName]?

structure PlanState where
  actionsPair : TextMap (List Text) := ∅
  transformedExprs : TextMap (List Text) := ∅
  preAction : Text := []

structure SearchState (K : Type) where
  workspace : Workspace K
  planState : PlanState

abbrev SearchM (K : Type) := Procedure Text (SearchState K)

def contains (map : TextMap (List Text)) (target ruleName : Text) : Bool :=
  match map[target]? with
  | some ruleNames => ruleNames.contains ruleName
  | none => false

def push (map : TextMap (List Text)) (target ruleName : Text) : TextMap (List Text) :=
  map.insert target (map[target]?.getD [] ++ [ruleName])

theorem contains_push (map : TextMap (List Text)) (target ruleName other otherRule : Text) :
    contains (push map target ruleName) other otherRule =
      (contains map other otherRule || (decide (other = target) && decide (otherRule = ruleName))) := by
  unfold contains push
  by_cases same : other = target
  · subst same
    cases found : map[other]? <;> simp
  · have different : ¬ target = other := fun equal => same equal.symm
    simp [ExtTreeMap.getElem?_insert, same, different]

/-- The targets get the rule, and nothing else changes. -/
theorem contains_foldl_push (ruleName : Text) (targets : List Text) (map : TextMap (List Text))
    (other otherRule : Text) :
    contains (targets.foldl (fun map target => push map target ruleName) map) other otherRule =
      (contains map other otherRule || (decide (other ∈ targets) && decide (otherRule = ruleName))) := by
  induction targets generalizing map with
  | nil => simp
  | cons target rest ih =>
    rw [foldl_cons, ih, contains_push]
    by_cases same : other = target <;> by_cases rule : otherRule = ruleName <;>
      simp [same, rule]

namespace PlanState

variable (planState : PlanState)

def checkIsValidRule (targetRule targetString : Text) : Bool :=
  contains planState.actionsPair targetString targetRule

def isRuleApplied (targetString targetRule : Text) : Bool :=
  contains planState.transformedExprs targetString targetRule

def addTransformedExpr (targetString targetRule : Text) : PlanState :=
  { planState with transformedExprs := push planState.transformedExprs targetString targetRule }

def clearTransformedExpr : PlanState := { planState with transformedExprs := ∅ }

def offer (ruleName : Text) (actions : List Text) : PlanState :=
  actions.foldl (fun planState action =>
    if planState.isRuleApplied action ruleName then planState
    else { planState with actionsPair := push planState.actionsPair action ruleName }) planState

end PlanState

def foundBy (rule : Rule K) (workspace : Workspace K) : List Text :=
  let (success, actions) := rule.check workspace.cataLog workspace.functions workspace.planNode
  if success then (actions.insertionSort (· ≤ ·)).dedup else []

def getPossibleActions (ruleManager : RuleManager K) (state : SearchState K) : SearchState K :=
  { state with
    planState := ruleManager.rules.toList.foldl
      (fun planState entry => planState.offer entry.1 (foundBy entry.2 state.workspace))
      { state.planState with actionsPair := ∅ } }

def newTargets (planState : PlanState) (ruleName : Text) (actions : List Text) : List Text :=
  actions.filter fun action => !planState.isRuleApplied action ruleName

theorem offer_eq (planState : PlanState) (ruleName : Text) (actions : List Text) :
    planState.offer ruleName actions =
      { planState with
        actionsPair := (newTargets planState ruleName actions).foldl
          (fun map target => push map target ruleName) planState.actionsPair } := by
  unfold PlanState.offer newTargets
  induction actions generalizing planState with
  | nil => rfl
  | cons action rest ih =>
    rw [foldl_cons, ih]
    by_cases applied : planState.isRuleApplied action ruleName
    · simp [applied]
    · simp only [applied, Bool.false_eq_true, if_false, Bool.not_false, filter_cons, if_true,
        foldl_cons]
      rfl

def offersOf (entries : List (Text × List Text)) (map : TextMap (List Text)) : TextMap (List Text) :=
  entries.foldl (fun map entry => entry.2.foldl (fun map target => push map target entry.1) map) map

def newOffers (ruleManager : RuleManager K) (state : SearchState K) : List (Text × List Text) :=
  ruleManager.rules.toList.map fun entry =>
    (entry.1, newTargets state.planState entry.1 (foundBy entry.2 state.workspace))

theorem getPossibleActions_eq (ruleManager : RuleManager K) (state : SearchState K) :
    getPossibleActions ruleManager state =
      { state with
        planState := { state.planState with actionsPair := offersOf (newOffers ruleManager state) ∅ } } := by
  have fold (entries : List (Text × Rule K)) (map : TextMap (List Text)) :
      entries.foldl (fun planState entry => planState.offer entry.1 (foundBy entry.2 state.workspace))
        { state.planState with actionsPair := map } =
      { state.planState with
        actionsPair := offersOf (entries.map fun entry =>
          (entry.1, newTargets state.planState entry.1 (foundBy entry.2 state.workspace))) map } := by
    induction entries generalizing map with
    | nil => rfl
    | cons entry rest ih =>
      rw [foldl_cons, offer_eq]
      exact ih _
  unfold getPossibleActions newOffers
  rw [fold]

theorem contains_offersOf (entries : List (Text × List Text)) (map : TextMap (List Text)) (target ruleName : Text) :
    contains (offersOf entries map) target ruleName ↔
      contains map target ruleName ∨ ∃ entry ∈ entries, target ∈ entry.2 ∧ ruleName = entry.1 := by
  induction entries generalizing map with
  | nil => simp [offersOf]
  | cons entry rest ih =>
    have unfolded : offersOf (entry :: rest) map =
        offersOf rest (entry.2.foldl (fun map target => push map target entry.1) map) := rfl
    rw [unfolded, ih, contains_foldl_push]
    simp [or_assoc]

def groupedActions (targetActions : List (Text × Text)) : List (Text × List Text) :=
  (targetActions.map Prod.snd).dedup.map fun ruleName =>
    (ruleName, (targetActions.filter (·.2 = ruleName)).map Prod.fst)

def notValid (targetRule targetString : Text) : Text :=
  "[ERROR]: ".toList ++ targetRule ++ " is not a valid rule on: ".toList ++ targetString ++ ['\n']

def checkTargets (planState : PlanState) (targetRule : Text) : List Text → Except Text Unit
  | [] => .ok ()
  | targetString :: rest =>
    if planState.checkIsValidRule targetRule targetString then checkTargets planState targetRule rest
    else .error (notValid targetRule targetString)

def onWorkspace {α : Type} (step : RewriteM K α) : SearchM K α :=
  zoom SearchState.workspace (fun workspace state => { state with workspace := workspace }) step

def record (targetRule : Text) (targetStrings : List Text) (planState : PlanState) : PlanState :=
  targetStrings.foldl (fun planState targetString => planState.addTransformedExpr targetString targetRule)
    { planState with preAction := targetRule }

variable (targetRule : Text) (targetStrings : List Text) (planState : PlanState)

theorem record_eq :
    record targetRule targetStrings planState = { planState with
      preAction := targetRule
      transformedExprs := targetStrings.foldl (fun map target =>
        push map target targetRule) planState.transformedExprs } := by
  unfold record
  induction targetStrings generalizing planState with
  | nil => rfl
  | cons targetString rest ih => exact ih (planState.addTransformedExpr targetString targetRule)

theorem record_transformedExprs :
    (record targetRule targetStrings planState).transformedExprs =
      targetStrings.foldl (fun map target => push map target targetRule) planState.transformedExprs := by
  rw [record_eq]

theorem record_actionsPair : (record targetRule targetStrings planState).actionsPair = planState.actionsPair := by
  rw [record_eq]

/-- One group: all its targets are checked, then its rule is applied to `curNode`. An unknown rule
is only reported. -/
def applyGroup (ruleManager : RuleManager K) (curNode : PlanNode) (group : Text × List Text) :
    SearchM K Unit := do
  let state ← get
  match checkTargets state.planState group.1 group.2 with
  | .error message => throw message
  | .ok _ =>
    match ruleManager.pickRule group.1 with
    | none => pure ()
    | some rule => do
      let _ ← onWorkspace (rule.apply curNode group.2)
      modify fun state => { state with planState := record group.1 group.2 state.planState }

def applyGroups (ruleManager : RuleManager K) (curNode : PlanNode) :
    List (Text × List Text) → SearchM K Unit
  | [] => pure ()
  | group :: rest => do
    applyGroup ruleManager curNode group
    applyGroups ruleManager curNode rest

/-- The groups are taken in the order in which the hash map gives them, and every rule is applied to
the root that the plan had at the start. -/
def takeAction (ruleManager : RuleManager K) (order : List (Text × List Text)) : SearchM K Unit := do
  let state ← get
  applyGroups ruleManager state.workspace.planNode order

def PlanState.Offered (planState : PlanState) (targetAction : Text × Text) : Prop :=
  planState.checkIsValidRule targetAction.2 targetAction.1 = true

instance (planState : PlanState) (targetAction : Text × Text) : Decidable (planState.Offered targetAction) :=
  inferInstanceAs (Decidable (_ = true))

variable {state : SearchState K} {ruleManager : RuleManager K} {ruleName : Text}
  {targetActions : List (Text × Text)} {group : Text × List Text}

/-- A pair is on offer when the rule's check finds the target and the rule has not been applied to it. -/
theorem offered_getPossibleActions_iff {target : Text} :
    (getPossibleActions ruleManager state).planState.Offered (target, ruleName) ↔
      ∃ rule, (ruleName, rule) ∈ ruleManager.rules.toList ∧ target ∈ foundBy rule state.workspace ∧
        state.planState.isRuleApplied target ruleName = false := by
  unfold PlanState.Offered PlanState.checkIsValidRule
  rw [getPossibleActions_eq, contains_offersOf]
  constructor
  · intro offered
    cases offered with
    | inl before => simp [contains] at before
    | inr offered =>
      obtain ⟨entry, mem, found, same⟩ := offered
      obtain ⟨⟨name, rule⟩, known, shape⟩ := mem_map.mp mem
      subst shape
      subst same
      have kept := mem_filter.mp found
      exact ⟨rule, known, kept.1, by simpa using kept.2⟩
  · intro offered
    obtain ⟨rule, known, found, fresh⟩ := offered
    refine .inr ⟨_, mem_map.mpr ⟨(ruleName, rule), known, rfl⟩, ?_, rfl⟩
    exact mem_filter.mpr ⟨found, by simp [fresh]⟩

theorem checkTargets_eq_ok {planState : PlanState} {targetRule : Text} {targetStrings : List Text} :
    checkTargets planState targetRule targetStrings = .ok () ↔
      ∀ targetString ∈ targetStrings, planState.Offered (targetString, targetRule) := by
  induction targetStrings with
  | nil => simp [checkTargets]
  | cons targetString rest ih =>
    unfold checkTargets
    by_cases offered : planState.checkIsValidRule targetRule targetString
    · simp [offered, ih, PlanState.Offered]
    · simp [offered, PlanState.Offered]

theorem mem_groupedActions : group ∈ groupedActions targetActions ↔
      group.1 ∈ targetActions.map Prod.snd ∧
        group.2 = (targetActions.filter (·.2 = group.1)).map Prod.fst := by
  unfold groupedActions
  constructor
  · intro mem
    obtain ⟨ruleName, mentioned, same⟩ := mem_map.mp mem
    subst same
    exact ⟨mem_dedup.mp mentioned, rfl⟩
  · intro shape
    exact mem_map.mpr ⟨group.1, mem_dedup.mpr shape.1, Prod.ext rfl shape.2.symm⟩

/-- The targets of a group are those that the list pairs with its rule. -/
theorem mem_group_targets (mem : group ∈ groupedActions targetActions) {targetString : Text} :
    targetString ∈ group.2 ↔ (targetString, group.1) ∈ targetActions := by
  rw [(mem_groupedActions.mp mem).2]
  simp

theorem run_applyGroup_of_offered {curNode : PlanNode} {rule : Rule K} {applied : Bool} {workspace : Workspace K}
    (offered : ∀ targetString ∈ group.2, state.planState.Offered (targetString, group.1))
    (known : ruleManager.pickRule group.1 = some rule)
    (success : run (rule.apply curNode group.2) state.workspace = (.ok applied, workspace)) :
    run (applyGroup ruleManager curNode group) state =
      (.ok (), ⟨workspace, record group.1 group.2 state.planState⟩) := by
  unfold applyGroup
  rw [run_bind]
  simp only [run_get, checkTargets_eq_ok.mpr offered, known, run_bind]
  unfold onWorkspace
  simp only [run_zoom, success, run_modify]

def applyRule (ruleManager : RuleManager K) (node : PlanNode) (group : Text × List Text) : RewriteM K Unit :=
  match ruleManager.pickRule group.1 with
  | none => pure ()
  | some rule => do
    let _ ← rule.apply node group.2

/-- Rules that are all applied to one node. -/
def applyTo (ruleManager : RuleManager K) (node : PlanNode) : List (Text × List Text) → RewriteM K Unit
  | [] => pure ()
  | group :: rest => do
    applyRule ruleManager node group
    applyTo ruleManager node rest

/-- Rules that are applied one after another, each to the plan that is there then. -/
def applyInTurn (ruleManager : RuleManager K) : List (Text × List Text) → RewriteM K Unit
  | [] => pure ()
  | group :: rest => do
    let workspace ← get
    applyRule ruleManager workspace.planNode group
    applyInTurn ruleManager rest

/-- The rule stops with an error, and leaves the plan and the catalog as they are. -/
def Refuses (rule : Rule K) (workspace : Workspace K) (targets : List Text) : Prop :=
  ∃ message after, run (rule.apply workspace.planNode targets) workspace = (.error message, after) ∧
    after.planNode = workspace.planNode ∧ after.cataLog = workspace.cataLog

/-- What the rules of a list have to meet on a plan. With a pair that is not on offer, no rule may go
through that has all its pairs on offer. With all pairs on offer, the rules have to build the same plan
from the old root, in any order, as they do one after another. -/
structure Separable (ruleManager : RuleManager K) (state : SearchState K) (targetActions : List (Text × Text)) :
  Prop where
  refused : (¬ ∀ targetAction ∈ targetActions, state.planState.Offered targetAction) →
    ∀ group ∈ groupedActions targetActions, (∀ target ∈ group.2, state.planState.Offered (target, group.1)) →
      ∀ rule, ruleManager.pickRule group.1 = some rule → Refuses rule state.workspace group.2
  independent : (∀ targetAction ∈ targetActions, state.planState.Offered targetAction) →
    ∀ order : List (Text × List Text), order.Perm (groupedActions targetActions) →
      (run (applyTo ruleManager state.workspace.planNode order) state.workspace).2.planNode =
        (run (applyInTurn ruleManager (groupedActions targetActions)) state.workspace).2.planNode

section

variable {curNode : PlanNode} {rest : List (Text × List Text)}

end

theorem forall_offered_iff {state : SearchState K} {order : List (Text × List Text)}
    (grouped : order.Perm (groupedActions targetActions)) :
    (∀ targetAction ∈ targetActions, state.planState.Offered targetAction) ↔
      ∀ group ∈ order, ∀ target ∈ group.2, state.planState.Offered (target, group.1) := by
  constructor
  · intro offered group mem target inGroup
    exact offered _ ((mem_group_targets (grouped.mem_iff.mp mem)).mp inGroup)
  · intro offered pair mem
    let group : Text × List Text := (pair.2, (targetActions.filter (·.2 = pair.2)).map Prod.fst)
    have isGroup : group ∈ groupedActions targetActions := mem_groupedActions.mpr ⟨mem_map_of_mem mem, rfl⟩
    exact offered group (grouped.mem_iff.mpr isGroup) pair.1 ((mem_group_targets isGroup).mpr mem)

section

variable (ruleManager : RuleManager K) {state : SearchState K}

end

section

variable (oneRule : ∀ first ∈ targetActions, ∀ second ∈ targetActions, first.2 = second.2)
include oneRule

/-- A list with one rule makes one group. -/
theorem groupedActions_of_one_rule :
    groupedActions targetActions = [] ∨ ∃ group, groupedActions targetActions = [group] := by
  unfold groupedActions
  have distinct := nodup_dedup (targetActions.map Prod.snd)
  have mentioned : ∀ ruleName ∈ (targetActions.map Prod.snd).dedup, ∃ pair ∈ targetActions, pair.2 = ruleName :=
    fun ruleName mem => mem_map.mp (mem_dedup.mp mem)
  match rules : (targetActions.map Prod.snd).dedup with
  | [] => exact .inl rfl
  | [ruleName] => exact .inr ⟨_, rfl⟩
  | first :: second :: rest =>
    rw [rules] at distinct mentioned
    obtain ⟨a, inList, firstRule⟩ := mentioned first mem_cons_self
    obtain ⟨b, alsoInList, secondRule⟩ := mentioned second (mem_cons_of_mem _ mem_cons_self)
    have same : first = second := firstRule ▸ secondRule ▸ oneRule a inList b alsoInList
    rw [same] at distinct
    exact absurd mem_cons_self (nodup_cons.mp distinct).1

/-- Pairs of a single rule are separable on every plan. -/
theorem separable_of_one_rule (ruleManager : RuleManager K) (state : SearchState K) :
    Separable ruleManager state targetActions := by
  rcases groupedActions_of_one_rule oneRule with none | ⟨group, single⟩
  · refine ⟨fun _ group mem => ?_, fun _ order grouped => ?_⟩
    · rw [none] at mem
      cases mem
    · rw [none] at grouped ⊢
      rw [perm_nil.mp grouped]
      rfl
  · refine ⟨fun missing other mem offered => ?_, fun _ order grouped => ?_⟩
    · rw [single, mem_singleton] at mem
      subst mem
      refine absurd ((forall_offered_iff (Perm.refl _)).mpr ?_) missing
      rw [single]
      simpa using offered
    · rw [single] at grouped ⊢
      rw [perm_singleton.mp grouped]
      rfl

end

/-- Pairs of any rules are separable on a plan with none of them on offer. -/
theorem separable_of_none_offered {ruleManager : RuleManager K} {state : SearchState K}
    (none : ∀ targetAction ∈ targetActions, ¬ state.planState.Offered targetAction) :
    Separable ruleManager state targetActions := by
  refine ⟨fun _ group mem offered => ?_, fun offered order grouped => ?_⟩
  · obtain ⟨pair, inList, named⟩ := mem_map.mp (mem_groupedActions.mp mem).1
    have listed : (pair.1, group.1) ∈ targetActions := named ▸ inList
    exact absurd (offered pair.1 ((mem_group_targets mem).mpr listed)) (none _ listed)
  · obtain rfl : targetActions = [] :=
      eq_nil_iff_forall_not_mem.mpr fun pair mem => none pair mem (offered pair mem)
    rw [perm_nil.mp grouped]
    rfl

def networkOverProduct : PlanNode :=
  .mk 2 (.project [⟨"p0".toList, .call "torchdnn1".toList [.field "v".toList]⟩])
    [.mk 1 (.project [⟨"v".toList, .call "mat_mul0".toList [.field "v".toList]⟩])
      [.mk 0 (.tableScan ["v".toList]) []]]

def twoRules : RuleManager Nat where
  rules := ((∅ : TextMap (Rule Nat)).insert "Mul2JoinAggRewriteAction".toList (Mul2JoinAgg.rule sqlParser)).insert
    "TorchNN2TwoLayerUDFRewriteAction".toList (TorchNN2TwoLayer.rule sqlParser)

def networkState : SearchState Nat :=
  let product := InnerRewrites.sampleWorkspace "mat_mul0".toList (.matrixMultiply [1, 1] 2 1)
  getPossibleActions twoRules
    { workspace :=
        { product with
          planNode := networkOverProduct
          functions := product.functions.insert "torchdnn1".toList
            (.torchDNN2Level [[1], [1]] [[0], [0]] [1, 1, 1]) }
      planState := {} }

def product : Text × Text := ("mat_mul0".toList, "Mul2JoinAggRewriteAction".toList)
def network : Text × Text := ("torchdnn1".toList, "TorchNN2TwoLayerUDFRewriteAction".toList)
end CactusDB.Optimizer.Search
