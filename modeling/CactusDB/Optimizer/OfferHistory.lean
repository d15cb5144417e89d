import CactusDB.Optimizer.Search

/-! Offers over a whole history of calls. The targets that the checks find are collected in a member
of the plan state that all rules share, and the pairs that have been applied are kept until they are
cleared. -/

namespace CactusDB.Optimizer.OfferHistory
open Std Library TextScan Stateful Core.Plan Resources RewriteAction Search PlanState

variable {K : Type}

structure Planner where
  planState : PlanState := {}
  actions : List Text := []

/-- One turn of the loop over the rules: what the vector holds is sorted and offered if the check
succeeds, and the vector is cleared in any case. -/
def scanRule (workspace : Workspace K) (planner : Planner) (entry : Text × Rule K) : Planner :=
  let (success, appended) := entry.2.check workspace.cataLog workspace.functions workspace.planNode
  let actions := planner.actions ++ appended
  ⟨if success then planner.planState.offer entry.1 (actions.insertionSort (· ≤ ·)).dedup else planner.planState, []⟩

def Planner.getPossibleActions (ruleManager : RuleManager K) (workspace : Workspace K) (planner : Planner) : Planner :=
  ruleManager.rules.toList.foldl (scanRule workspace)
    ⟨{ planner.planState with actionsPair := ∅ }, planner.actions⟩

variable (workspace : Workspace K) (planState : PlanState)

theorem scanRule_eq (entry : Text × Rule K) :
    scanRule workspace ⟨planState, []⟩ entry = ⟨planState.offer entry.1 (foundBy entry.2 workspace), []⟩ := by
  unfold scanRule foundBy
  cases success : (entry.2.check workspace.cataLog workspace.functions workspace.planNode).1 with
  | true => simp [success]
  | false => simp [success, offer]

variable (ruleManager : RuleManager K)

/-- With an empty vector at the start, no rule sees what another one has appended. -/
theorem getPossibleActions_scratch :
    Planner.getPossibleActions ruleManager workspace ⟨planState, []⟩ =
      ⟨(getPossibleActions ruleManager ⟨workspace, planState⟩).planState, []⟩ := by
  have fold (entries : List (Text × Rule K)) (start : PlanState) :
      entries.foldl (scanRule workspace) ⟨start, []⟩ =
        ⟨entries.foldl (fun planState entry => planState.offer entry.1 (foundBy entry.2 workspace)) start, []⟩ := by
    induction entries generalizing start with
    | nil => rfl
    | cons entry rest ih => rw [List.foldl_cons, scanRule_eq, ih, List.foldl_cons]
  exact fold _ _

section

def listed (map : TextMap (List Text)) (target ruleName : Text) : Nat :=
  (map[target]?.getD []).count ruleName

theorem listed_push (map : TextMap (List Text)) (target ruleName other otherRule : Text) :
    listed (push map target ruleName) other otherRule =
      listed map other otherRule + if other = target ∧ otherRule = ruleName then 1 else 0 := by
  unfold listed push
  by_cases same : other = target
  · subst same
    by_cases rule : otherRule = ruleName
    · simp [rule]
    · have different : ¬ ruleName = otherRule := fun equal => rule equal.symm
      simp [rule, different]
  · have different : ¬ target = other := fun equal => same equal.symm
    simp [ExtTreeMap.getElem?_insert, same, different]

theorem listed_foldl_push (ruleName : Text) (targets : List Text) (map : TextMap (List Text))
    (other otherRule : Text) :
    listed (targets.foldl (fun map target => push map target ruleName) map) other otherRule =
      listed map other otherRule + if otherRule = ruleName then targets.count other else 0 := by
  induction targets generalizing map with
  | nil => simp
  | cons target rest ih =>
    rw [List.foldl_cons, ih, listed_push]
    by_cases rule : otherRule = ruleName
    · by_cases same : other = target
      · simp [rule, same]
        omega
      · have different : ¬ target = other := fun equal => same equal.symm
        simp [rule, same, different]
    · simp [rule]

variable {entries : List (Text × List Text)}

theorem listed_offersOf_of_not_mem {ruleName : Text}
    (absent : ruleName ∉ entries.map Prod.fst) (map : TextMap (List Text)) (target : Text) :
    listed (offersOf entries map) target ruleName = listed map target ruleName := by
  induction entries generalizing map with
  | nil => rfl
  | cons entry rest ih =>
    simp only [List.map_cons, List.mem_cons, not_or] at absent
    have unfolded : offersOf (entry :: rest) map =
        offersOf rest (entry.2.foldl (fun map target => push map target entry.1) map) := rfl
    rw [unfolded, ih absent.2, listed_foldl_push]
    simp [absent.1]

/-- Each rule has one entry, so it is listed as often as its entry has the target. -/
theorem listed_offersOf_of_mem (distinct : (entries.map Prod.fst).Nodup)
    {entry : Text × List Text} (mem : entry ∈ entries) (map : TextMap (List Text)) (target : Text) :
    listed (offersOf entries map) target entry.1 = listed map target entry.1 + entry.2.count target := by
  induction entries generalizing map with
  | nil => exact absurd mem List.not_mem_nil
  | cons first rest ih =>
    have unfolded : offersOf (first :: rest) map =
        offersOf rest (first.2.foldl (fun map target => push map target first.1) map) := rfl
    simp only [List.map_cons, List.nodup_cons] at distinct
    rw [unfolded]
    cases List.mem_cons.mp mem with
    | inl same =>
      subst same
      rw [listed_offersOf_of_not_mem distinct.1, listed_foldl_push]
      simp
    | inr later =>
      have different : entry.1 ≠ first.1 := by
        intro same
        exact distinct.1 (same ▸ List.mem_map_of_mem later)
      rw [ih distinct.2 later, listed_foldl_push]
      simp [different]

end

/-- The check of the rule succeeds and appends the target. -/
def Found (ruleManager : RuleManager K) (workspace : Workspace K) (target ruleName : Text) : Prop :=
  ∃ rule, ruleManager.pickRule ruleName = some rule ∧
    (rule.check workspace.cataLog workspace.functions workspace.planNode).1 = true ∧
    target ∈ (rule.check workspace.cataLog workspace.functions workspace.planNode).2

/-- The rules listed are those whose check finds the target, each once, except for excluded pairs. -/
def Exact (ruleManager : RuleManager K) (workspace : Workspace K) (excluded : List (Text × Text))
    (planState : PlanState) : Prop :=
  ∀ target ruleName,
    (Found ruleManager workspace target ruleName ∧ (target, ruleName) ∉ excluded →
      listed planState.actionsPair target ruleName = 1) ∧
    (¬ (Found ruleManager workspace target ruleName ∧ (target, ruleName) ∉ excluded) →
      listed planState.actionsPair target ruleName = 0)

variable {workspace : Workspace K}

theorem mem_foundBy {rule : Rule K} {target : Text} :
    target ∈ foundBy rule workspace ↔
      (rule.check workspace.cataLog workspace.functions workspace.planNode).1 = true ∧
      target ∈ (rule.check workspace.cataLog workspace.functions workspace.planNode).2 := by
  unfold foundBy
  cases success : (rule.check workspace.cataLog workspace.functions workspace.planNode).1 with
  | true | false => simp [success]

theorem nodup_newTargets (ruleName : Text) (rule : Rule K) (workspace : Workspace K) :
    (newTargets planState ruleName (foundBy rule workspace)).Nodup := by
  apply List.Nodup.filter
  unfold foundBy
  dsimp only
  split
  · exact List.nodup_dedup _
  · exact List.nodup_nil

theorem nodup_newOffers (state : SearchState K) : ((newOffers ruleManager state).map Prod.fst).Nodup := by
  have keys : (newOffers ruleManager state).map Prod.fst = ruleManager.rules.keys := by
    unfold newOffers
    rw [List.map_map, ← ExtTreeMap.map_fst_toList_eq_keys]
    rfl
  rw [keys]
  exact ExtTreeMap.nodup_keys

def Records (planState : PlanState) (excluded : List (Text × Text)) : Prop :=
  ∀ target ruleName, planState.isRuleApplied target ruleName = true ↔ (target, ruleName) ∈ excluded

variable {excluded : List (Text × Text)}

theorem exact_getPossibleActions {ruleManager : RuleManager K} {planState : PlanState}
    (records : Records planState excluded) :
    Exact ruleManager workspace excluded (getPossibleActions ruleManager ⟨workspace, planState⟩).planState := by
  intro target ruleName
  rw [getPossibleActions_eq]
  dsimp only
  have start : listed (∅ : TextMap (List Text)) target ruleName = 0 := by simp [listed]
  cases known : ruleManager.pickRule ruleName with
  | none =>
    have absent : ruleName ∉ (newOffers ruleManager ⟨workspace, planState⟩).map Prod.fst := by
      intro mem
      obtain ⟨offer, inOffers, sameName⟩ := List.mem_map.mp mem
      obtain ⟨⟨name, rule⟩, inRules, shape⟩ := List.mem_map.mp inOffers
      subst shape
      subst sameName
      have found := ExtTreeMap.mem_toList_iff_getElem?_eq_some.mp inRules
      exact absurd (known.symm.trans found) (by simp)
    rw [listed_offersOf_of_not_mem absent, start]
    refine ⟨fun offered => ?_, fun _ => rfl⟩
    obtain ⟨rule, picked, _⟩ := offered.1
    exact absurd (known.symm.trans picked) (by simp)
  | some rule =>
    have inRules : (ruleName, rule) ∈ ruleManager.rules.toList :=
      ExtTreeMap.mem_toList_iff_getElem?_eq_some.mpr known
    have inOffers : (ruleName, newTargets planState ruleName (foundBy rule workspace)) ∈
        newOffers ruleManager ⟨workspace, planState⟩ := List.mem_map.mpr ⟨(ruleName, rule), inRules, rfl⟩
    rw [listed_offersOf_of_mem (nodup_newOffers ruleManager _) inOffers, start, Nat.zero_add]
    have offered : target ∈ newTargets planState ruleName (foundBy rule workspace) ↔
        Found ruleManager workspace target ruleName ∧ (target, ruleName) ∉ excluded := by
      unfold newTargets Found
      rw [List.mem_filter, mem_foundBy, known, ← records target ruleName]
      simp
    constructor
    · intro expected
      exact List.count_eq_one_of_mem (nodup_newTargets _ _ _ _) (offered.mpr expected)
    · intro unexpected
      exact List.count_eq_zero_of_not_mem fun mem => unexpected (offered.mp mem)

section

inductive GroupStep (ruleManager : RuleManager K) (group : Text × List Text) (planState : PlanState) :
    Except Text Unit → PlanState → Prop where
  | stopped (message : Text) : GroupStep ruleManager group planState (.error message) planState
  | unknown (offered : ∀ target ∈ group.2, planState.Offered (target, group.1))
      (missing : ruleManager.pickRule group.1 = none) : GroupStep ruleManager group planState (.ok ()) planState
  | applied (offered : ∀ target ∈ group.2, planState.Offered (target, group.1)) :
      GroupStep ruleManager group planState (.ok ()) (record group.1 group.2 planState)

theorem groupStep_applyGroup (curNode : PlanNode) (group : Text × List Text) (state : SearchState K) :
    GroupStep ruleManager group state.planState (run (applyGroup ruleManager curNode group) state).1
      (run (applyGroup ruleManager curNode group) state).2.planState := by
  unfold applyGroup
  rw [run_bind]
  simp only [run_get]
  cases checked : checkTargets state.planState group.1 group.2 with
  | error message => exact .stopped message
  | ok _ =>
    dsimp only
    cases known : ruleManager.pickRule group.1 with
    | none => exact .unknown (checkTargets_eq_ok.mp checked) known
    | some rule =>
      dsimp only
      rw [run_bind]
      unfold onWorkspace
      rw [run_zoom]
      cases outcome : (run (rule.apply curNode group.2) state.workspace).1 with
      | error message => exact .stopped message
      | ok _ => exact .applied (checkTargets_eq_ok.mp checked)

variable {ruleManager : RuleManager K} {curNode : PlanNode}

variable {before after : PlanState} {groups : List (Text × List Text)} {state : SearchState K}

theorem GroupStep.actionsPair_eq {group : Text × List Text} {result : Except Text Unit}
    (step : GroupStep ruleManager group before result after) : after.actionsPair = before.actionsPair := by
  cases step with
  | stopped | unknown => rfl
  | applied => exact record_actionsPair _ _ _

def OffersKnown (ruleManager : RuleManager K) (planState : PlanState) : Prop :=
  ∀ target ruleName, planState.Offered (target, ruleName) → (ruleManager.pickRule ruleName).isSome

theorem isRuleApplied_record (targetRule : Text) (targetStrings : List Text) (planState : PlanState)
    (target ruleName : Text) :
    (record targetRule targetStrings planState).isRuleApplied target ruleName = true ↔
      planState.isRuleApplied target ruleName = true ∨ target ∈ targetStrings ∧ ruleName = targetRule := by
  unfold isRuleApplied
  rw [record_transformedExprs, contains_foldl_push]
  simp

/-- A group that is applied puts its pairs on record. -/
theorem GroupStep.records {group : Text × List Text} {excluded : List (Text × Text)}
    (step : GroupStep ruleManager group before (.ok ()) after) (known : OffersKnown ruleManager before)
    (recorded : Records before excluded) : Records after (excluded ++ group.2.map (·, group.1)) := by
  intro target ruleName
  cases step with
  | unknown offered missing =>
    have noTargets : group.2 = [] := by
      apply List.eq_nil_iff_forall_not_mem.mpr
      intro other mem
      have found := known other group.1 (offered other mem)
      rw [missing] at found
      exact absurd found (by simp)
    rw [recorded target ruleName, noTargets]
    simp
  | applied offered =>
    rw [isRuleApplied_record, recorded target ruleName]
    simp [and_comm, eq_comm]

theorem OffersKnown.of_actionsPair_eq (known : OffersKnown ruleManager before)
    (same : after.actionsPair = before.actionsPair) : OffersKnown ruleManager after := by
  intro target ruleName offered
  apply known target ruleName
  unfold PlanState.Offered checkIsValidRule at offered ⊢
  rwa [← same]

/-- When no group stops, the pairs of all groups go on record. -/
theorem records_applyGroups_ok (recorded : Records state.planState excluded)
    (known : OffersKnown ruleManager state.planState)
    (success : (run (applyGroups ruleManager curNode groups) state).1 = .ok ()) :
    Records (run (applyGroups ruleManager curNode groups) state).2.planState
      (excluded ++ groups.flatMap fun group => group.2.map (·, group.1)) := by
  induction groups generalizing state excluded with
  | nil =>
    have same : run (applyGroups ruleManager curNode []) state = (.ok (), state) := rfl
    rw [same]
    simpa using recorded
  | cons group rest ih =>
    have step := groupStep_applyGroup ruleManager curNode group state
    unfold applyGroups at success ⊢
    rw [run_bind] at success ⊢
    rcases outcome : run (applyGroup ruleManager curNode group) state with ⟨result, after⟩
    rw [outcome] at step success
    cases result with
    | error message => simp at success
    | ok _ =>
      have later := ih (step.records known recorded) (known.of_actionsPair_eq step.actionsPair_eq) success
      simpa [List.append_assoc] using later

theorem applyGroups_actionsPair (groups : List (Text × List Text)) (state : SearchState K) :
    (run (applyGroups ruleManager curNode groups) state).2.planState.actionsPair = state.planState.actionsPair := by
  induction groups generalizing state with
  | nil => rfl
  | cons group rest ih =>
    have step := (groupStep_applyGroup ruleManager curNode group state).actionsPair_eq
    unfold applyGroups
    rw [run_bind]
    rcases outcome : run (applyGroup ruleManager curNode group) state with ⟨result, after⟩
    rw [outcome] at step
    cases result with
    | error message => exact step
    | ok _ => exact (ih after).trans step

/-- One group that stops leaves the record alone. -/
theorem applyGroups_error_of_length_le (short : groups.length ≤ 1) {message : Text}
    (failure : (run (applyGroups ruleManager curNode groups) state).1 = .error message) :
    (run (applyGroups ruleManager curNode groups) state).2.planState = state.planState := by
  match groups with
  | [] => rfl
  | [group] =>
    have step := groupStep_applyGroup ruleManager curNode group state
    unfold applyGroups applyGroups at failure ⊢
    rw [run_bind] at failure ⊢
    rcases outcome : run (applyGroup ruleManager curNode group) state with ⟨result, after⟩
    rw [outcome] at step failure
    cases result with
    | ok _ => simp at failure
    | error other =>
      dsimp only at step ⊢
      generalize after.planState = planState at step
      cases step with
      | stopped => rfl
  | _ :: _ :: _ => simp at short

/-- The rules of the groups return when they are applied in turn. -/
def Returns (ruleManager : RuleManager K) (curNode : PlanNode) : List (Text × List Text) → Workspace K → Prop
  | [], _ => True
  | group :: rest, workspace =>
    match ruleManager.pickRule group.1 with
    | none => Returns ruleManager curNode rest workspace
    | some rule => ∃ applied after, run (rule.apply curNode group.2) workspace = (.ok applied, after) ∧
      Returns ruleManager curNode rest after

theorem applyGroups_ok (offered : ∀ group ∈ groups, ∀ target ∈ group.2, state.planState.Offered (target, group.1))
    (returns : Returns ruleManager curNode groups state.workspace) :
    (run (applyGroups ruleManager curNode groups) state).1 = .ok () := by
  induction groups generalizing state with
  | nil => rfl
  | cons group rest ih =>
    have step := (groupStep_applyGroup ruleManager curNode group state).actionsPair_eq
    have here := offered group List.mem_cons_self
    obtain ⟨after, outcome, later⟩ : ∃ after, run (applyGroup ruleManager curNode group) state = (.ok (), after) ∧
        Returns ruleManager curNode rest after.workspace := by
      unfold Returns at returns
      split at returns
      next unknown =>
        refine ⟨state, ?_, returns⟩
        unfold applyGroup
        rw [run_bind]
        simp only [run_get, checkTargets_eq_ok.mpr here, unknown]
        rfl
      next rule known =>
        obtain ⟨applied, workspace, success, later⟩ := returns
        exact ⟨_, run_applyGroup_of_offered here known success, later⟩
    unfold applyGroups
    rw [run_bind, outcome]
    rw [outcome] at step
    refine ih (fun other mem target inGroup => ?_) later
    have before := offered other (List.mem_cons_of_mem _ mem) target inGroup
    unfold PlanState.Offered checkIsValidRule at before ⊢
    rwa [step]

end

/-- A call on the planner. The plan and the catalog may be others at every call. The groups of an
action come in the order of a hash map. -/
inductive Call (K : Type) where
  | getPossibleActions (workspace : Workspace K)
  | takeAction (workspace : Workspace K) (targetActions : List (Text × Text)) (order : List (Text × List Text))
      (grouped : order.Perm (groupedActions targetActions))
  | clearTransformedExpr

namespace Call

def perform (ruleManager : RuleManager K) : Call K → Planner → Planner
  | getPossibleActions workspace, planner => planner.getPossibleActions ruleManager workspace
  | takeAction workspace _ order _, planner =>
    { planner with planState := (run (Search.takeAction ruleManager order) ⟨workspace, planner.planState⟩).2.planState }
  | clearTransformedExpr, planner => { planner with planState := planner.planState.clearTransformedExpr }

def applied (ruleManager : RuleManager K) (planner : Planner) : Call K → List (Text × Text) → List (Text × Text)
  | getPossibleActions _, earlier => earlier
  | takeAction workspace targetActions order _, earlier =>
    match (run (Search.takeAction ruleManager order) ⟨workspace, planner.planState⟩).1 with
    | .ok _ => earlier ++ targetActions
    | .error _ => earlier
  | clearTransformedExpr, _ => []

/-- An action with one rule, or with pairs on offer only whose rules return in it: it cannot stop
after a rule has been applied. -/
def Clean (ruleManager : RuleManager K) (planState : PlanState) : Call K → Prop
  | takeAction workspace targetActions order _ =>
    (∀ first ∈ targetActions, ∀ second ∈ targetActions, first.2 = second.2) ∨
    ((∀ pair ∈ targetActions, planState.Offered pair) ∧ Returns ruleManager workspace.planNode order workspace)
  | _ => True

end Call

structure History where
  planner : Planner := {}
  applied : List (Text × Text) := []

def History.extend (ruleManager : RuleManager K) (history : History) (call : Call K) : History :=
  ⟨call.perform ruleManager history.planner, call.applied ruleManager history.planner history.applied⟩

open History

def History.after (ruleManager : RuleManager K) (calls : List (Call K)) : History :=
  calls.foldl (extend ruleManager) {}

def CleanRun (ruleManager : RuleManager K) : List (Call K) → History → Prop
  | [], _ => True
  | call :: rest, history =>
    call.Clean ruleManager history.planner.planState ∧ CleanRun ruleManager rest (history.extend ruleManager call)

section

variable {ruleManager : RuleManager K}

/-- What holds between calls. -/
structure Consistent (ruleManager : RuleManager K) (history : History) : Prop where
  empty : history.planner.actions = []
  known : OffersKnown ruleManager history.planner.planState
  records : Records history.planner.planState history.applied

theorem consistent_start : Consistent ruleManager {} where
  empty := rfl
  known := by
    intro target ruleName offered
    simp [PlanState.Offered, checkIsValidRule, contains] at offered
  records := by
    intro target ruleName
    simp [isRuleApplied, contains]

variable {targetActions : List (Text × Text)} {order : List (Text × List Text)} {history : History}

theorem mem_flatMap_order (grouped : order.Perm (groupedActions targetActions)) (pair : Text × Text) :
    (pair ∈ order.flatMap fun group => group.2.map (·, group.1)) ↔ pair ∈ targetActions := by
  rw [List.mem_flatMap]
  constructor
  · intro found
    obtain ⟨group, mem, inGroup⟩ := found
    obtain ⟨target, inTargets, shape⟩ := List.mem_map.mp inGroup
    subst shape
    exact (mem_group_targets (grouped.mem_iff.mp mem)).mp inTargets
  · intro mem
    let targets := (targetActions.filter (·.2 = pair.2)).map Prod.fst
    have inGroups : (pair.2, targets) ∈ groupedActions targetActions :=
      mem_groupedActions.mpr ⟨List.mem_map_of_mem mem, rfl⟩
    refine ⟨(pair.2, targets), grouped.mem_iff.mpr inGroups, List.mem_map.mpr ⟨pair.1, ?_, rfl⟩⟩
    exact (mem_group_targets inGroups).mpr mem

theorem length_order_le (grouped : order.Perm (groupedActions targetActions))
    (oneRule : ∀ first ∈ targetActions, ∀ second ∈ targetActions, first.2 = second.2) : order.length ≤ 1 := by
  rw [grouped.length_eq]
  cases groupedActions_of_one_rule oneRule with
  | inl none => simp [none]
  | inr single =>
    obtain ⟨group, single⟩ := single
    simp [single]

theorem run_takeAction (order : List (Text × List Text)) (state : SearchState K) :
    run (takeAction ruleManager order) state = run (applyGroups ruleManager state.workspace.planNode order) state := by
  unfold takeAction
  rw [run_bind]
  rfl

theorem records_takeAction (consistent : Consistent ruleManager history)
    {grouped : order.Perm (groupedActions targetActions)}
    (clean : (Call.takeAction workspace targetActions order grouped).Clean ruleManager history.planner.planState) :
    Records ((Call.takeAction workspace targetActions order grouped).perform ruleManager history.planner).planState
      ((Call.takeAction workspace targetActions order grouped).applied ruleManager history.planner
        history.applied) := by
  unfold Call.perform Call.applied
  dsimp only
  rw [run_takeAction]
  cases outcome : (run (applyGroups ruleManager workspace.planNode order)
      ⟨workspace, history.planner.planState⟩).1 with
  | ok _ =>
    intro target ruleName
    rw [records_applyGroups_ok consistent.records consistent.known outcome target ruleName, List.mem_append,
      List.mem_append, mem_flatMap_order grouped]
  | error message =>
    have oneRule : ∀ first ∈ targetActions, ∀ second ∈ targetActions, first.2 = second.2 := by
      cases clean with
      | inl oneRule => exact oneRule
      | inr safe =>
        have success : (run (applyGroups ruleManager workspace.planNode order)
            ⟨workspace, history.planner.planState⟩).1 = .ok () := by
          refine applyGroups_ok (fun group mem target inGroup => ?_) safe.2
          exact safe.1 _ ((mem_group_targets (grouped.mem_iff.mp mem)).mp inGroup)
        exact absurd (outcome.symm.trans success) (by simp)
    rw [applyGroups_error_of_length_le (length_order_le grouped oneRule) outcome]
    exact consistent.records

theorem Consistent.extend (consistent : Consistent ruleManager history) {call : Call K}
    (clean : call.Clean ruleManager history.planner.planState) :
    Consistent ruleManager (history.extend ruleManager call) := by
  cases call with
  | clearTransformedExpr =>
    refine ⟨consistent.empty, consistent.known.of_actionsPair_eq rfl, ?_⟩
    intro target ruleName
    simp [History.extend, Call.perform, Call.applied, clearTransformedExpr, isRuleApplied,
      contains]
  | takeAction workspace targetActions order grouped =>
    refine ⟨consistent.empty, consistent.known.of_actionsPair_eq ?_, records_takeAction consistent clean⟩
    unfold History.extend Call.perform
    dsimp only
    rw [run_takeAction, applyGroups_actionsPair]
  | getPossibleActions workspace =>
    have scanned : history.planner.getPossibleActions ruleManager workspace =
        ⟨(getPossibleActions ruleManager ⟨workspace, history.planner.planState⟩).planState, []⟩ := by
      have shape : history.planner = ⟨history.planner.planState, []⟩ := by
        rw [← consistent.empty]
      rw [shape]
      exact getPossibleActions_scratch _ _ _
    unfold History.extend Call.perform Call.applied
    dsimp only
    rw [scanned]
    refine ⟨rfl, ?_, ?_⟩
    · intro target ruleName offered
      obtain ⟨rule, inRules, _⟩ := offered_getPossibleActions_iff.mp offered
      have found := ExtTreeMap.mem_toList_iff_getElem?_eq_some.mp inRules
      unfold RuleManager.pickRule
      simp [found]
    · intro target ruleName
      rw [getPossibleActions_eq]
      exact consistent.records target ruleName

theorem CleanRun.consistent {calls : List (Call K)} (clean : CleanRun ruleManager calls history)
    (consistent : Consistent ruleManager history) :
    Consistent ruleManager (calls.foldl (extend ruleManager) history) := by
  induction calls generalizing history with
  | nil => exact consistent
  | cons call rest ih => exact ih clean.2 (consistent.extend clean.1)

end

/-- Right after a scan, the rules listed are those whose checks find the target now, each once, except
for the pairs that successful actions have applied since the last clearing. -/
theorem offers_exact_of_cleanRun (ruleManager : RuleManager K) (calls : List (Call K)) (workspace : Workspace K)
    (clean : CleanRun ruleManager calls {}) :
    Exact ruleManager workspace (after ruleManager calls).applied
      (after ruleManager (calls ++ [.getPossibleActions workspace])).planner.planState := by
  have consistent : Consistent ruleManager (after ruleManager calls) := clean.consistent consistent_start
  have scanned : (after ruleManager (calls ++ [.getPossibleActions workspace])).planner =
      ⟨(getPossibleActions ruleManager
        ⟨workspace, (after ruleManager calls).planner.planState⟩).planState, []⟩ := by
    have shape : (after ruleManager calls).planner =
        ⟨(after ruleManager calls).planner.planState, []⟩ := by
      rw [← consistent.empty]
    calc
      _ = (after ruleManager calls).planner.getPossibleActions ruleManager workspace := by
        unfold after
        rw [List.foldl_append]
        rfl
      _ = _ := by
        rw [shape]
        exact getPossibleActions_scratch _ _ _
  rw [scanned]
  exact exact_getPossibleActions consistent.records

def finder (ruleName : Text) (targets : List Text) : Rule Unit where
  name := ruleName
  check := fun _ _ _ => (true, targets)
  apply := fun _ _ => pure true

def sampleManager : RuleManager Unit :=
  ⟨((∅ : TextMap (Rule Unit)).insert "r".toList (finder "r".toList ["b".toList, "a".toList, "b".toList])).insert
    "s".toList (finder "s".toList ["a".toList])⟩

def sampleWorkspace : Workspace Unit :=
  { planNode := .mk 0 (.values []) [], nextId := 1, cataLog := {}, functions := ∅, compute := [] }

def cleanCalls : List (Call Unit) :=
  [.getPossibleActions sampleWorkspace,
    .takeAction sampleWorkspace [("a".toList, "r".toList)] [("r".toList, ["a".toList])] (by decide)]

theorem cleanCalls_clean : CleanRun sampleManager cleanCalls {} := by
  refine ⟨trivial, .inl ?_, trivial⟩
  intro first firstMember second secondMember
  rw [List.mem_singleton.mp firstMember, List.mem_singleton.mp secondMember]

/-- The second pair is not on offer, but the rule of the first one has been applied by then. -/
def stoppedCalls : List (Call Unit) :=
  [.getPossibleActions sampleWorkspace,
    .takeAction sampleWorkspace [("a".toList, "r".toList), ("c".toList, "s".toList)]
      [("r".toList, ["a".toList]), ("s".toList, ["c".toList])] (by decide)]

theorem offers_exact_cleanCalls :
    Exact sampleManager sampleWorkspace (after sampleManager cleanCalls).applied
      (after sampleManager (cleanCalls ++ [.getPossibleActions sampleWorkspace])).planner.planState :=
  offers_exact_of_cleanRun sampleManager cleanCalls sampleWorkspace cleanCalls_clean

theorem stoppedCalls_not_exact :
    ¬ Exact sampleManager sampleWorkspace (after sampleManager stoppedCalls).applied
      (after sampleManager (stoppedCalls ++ [.getPossibleActions sampleWorkspace])).planner.planState := by
  intro exact_
  have found : Found sampleManager sampleWorkspace "a".toList "r".toList :=
    ⟨finder "r".toList ["b".toList, "a".toList, "b".toList], rfl, rfl, by decide⟩
  have notApplied : (after sampleManager stoppedCalls).applied = [] := by decide +kernel
  have once := (exact_ "a".toList "r".toList).1 ⟨found, by simp [notApplied]⟩
  have never : listed (after sampleManager
      (stoppedCalls ++ [.getPossibleActions sampleWorkspace])).planner.planState.actionsPair
      "a".toList "r".toList = 0 := by decide +kernel
  omega

end CactusDB.Optimizer.OfferHistory
