import CactusDB.Optimizer.Search

/-! The command loop of the tree search. The client asks for the action space, takes actions, and
goes back to cached states by their identifiers. A cached state is the serialized plan and the map
from nodes to files. -/

namespace CactusDB.Optimizer.Session
open Std Library TextScan Stateful Core.Plan Core.SqlText MlFunctions.Functions Resources RewriteAction TorchNN2TwoLayer
open Search

/-- How plans are stored: reading back what has been written gives the same plan. -/
structure Serde where
  Serialized : Type
  serialize : PlanNode → Serialized
  deserialize : Serialized → Option PlanNode
  deserialize_serialize : ∀ plan, deserialize (serialize plan) = some plan

variable {K : Type} {serde : Serde}

structure SessionState (serde : Serde) (K : Type) where
  search : SearchState K
  queryPlanCacheId : Nat
  queryPlanCaches : ExtTreeMap Nat serde.Serialized
  cataLogIdAddressMapCaches : ExtTreeMap Nat (ExtTreeMap PlanNodeId (List Text))
  initQueryPlanCacheId : Nat

namespace SessionState

variable (session : SessionState serde K)

def plan : PlanNode := session.search.workspace.planNode
def cataLog : CataLog := session.search.workspace.cataLog
def functions : TextMap (VectorFunction K) := session.search.workspace.functions
def planState : PlanState := session.search.planState

def setPlan (plan : PlanNode) : SessionState serde K :=
  { session with search.workspace.planNode := plan }

def setIdAddressMap (map : ExtTreeMap PlanNodeId (List Text)) :
    SessionState serde K :=
  { session with search.workspace.cataLog := session.cataLog.setIdAddressMapTo map }

end SessionState

abbrev SessionM (serde : Serde) (K : Type) := Procedure Text (SessionState serde K)

def SessionState.cached (session : SessionState serde K) : SessionState serde K :=
  { session with
    queryPlanCacheId := session.queryPlanCacheId + 1
    queryPlanCaches := session.queryPlanCaches.insert session.queryPlanCacheId (serde.serialize session.plan)
    cataLogIdAddressMapCaches := session.cataLogIdAddressMapCaches.insert session.queryPlanCacheId
      session.cataLog.getIdAddressMap }

def cacheQueryPlanAndCateLog : SessionM serde K Nat := do
  let session ← get
  set session.cached
  return session.queryPlanCacheId

def notCached (queryPlanCacheId : Nat) (place : Text) : Text :=
  "[ERROR]queryPlanCacheId: ".toList ++ decimal queryPlanCacheId ++ " was not found ".toList ++ place

def resetQueryPlanAndQueryPlanFromCache (queryPlanCacheId : Nat) : SessionM serde K Unit := do
  let session ← get
  match session.queryPlanCaches[queryPlanCacheId]?.bind serde.deserialize with
  | none => throw (notCached queryPlanCacheId "queryPlanCaches.".toList)
  | some plan => do
    modify (·.setPlan plan)
    match session.cataLogIdAddressMapCaches[queryPlanCacheId]? with
    | none => throw (notCached queryPlanCacheId "in cataLogIdAddressMapCaches.".toList)
    | some map => modify (·.setIdAddressMap map)

open SessionState

def onSearch {α : Type} (step : SearchM K α) : SessionM serde K α :=
  zoom search (fun search session => { session with search := search }) step

/-- `takeAction` is given the rule and, after the trials, the number of the target to keep. -/
inductive Command where
  | getActionSpace
  | takeAction (rule : Text) (selected : Nat)
  | cacheState
  | resetState (queryPlanCacheId : Nat)
  | resetPlan

def applicableTargetExprs (planState : PlanState) (rule : Text) : List Text :=
  planState.actionsPair.toList.flatMap fun entry => (entry.2.filter (· = rule)).map fun _ => entry.1

open PlanState

theorem offered_of_mem_applicable {planState : PlanState} {rule target : Text}
    (mem : target ∈ applicableTargetExprs planState rule) : planState.Offered (target, rule) := by
  obtain ⟨entry, listed, chosen⟩ := List.mem_flatMap.mp mem
  obtain ⟨ruleName, kept, same⟩ := List.mem_map.mp chosen
  obtain ⟨inEntry, isRule⟩ := List.mem_filter.mp kept
  have found : planState.actionsPair[entry.1]? = some entry.2 :=
    ExtTreeMap.mem_toList_iff_getElem?_eq_some.mp listed
  rw [of_decide_eq_true isRule] at inEntry
  subst same
  unfold PlanState.Offered checkIsValidRule contains
  rw [found]
  simpa using inEntry

variable (ruleManager : RuleManager K)

def tryTargets (rule : Text) (cachedQueryPlanCacheId : Nat) : List Text → SessionM serde K Unit
  | [] => pure ()
  | target :: rest => do
    onSearch (takeAction ruleManager [(rule, [target])])
    resetQueryPlanAndQueryPlanFromCache cachedQueryPlanCacheId
    tryTargets rule cachedQueryPlanCacheId rest

def noApplicable (rule : Text) : Text :=
  "[INFO] No applicable target expressions found for the selected high level optimization rule: ".toList ++ rule

def refresh : SessionM serde K Unit := onSearch (modify (getPossibleActions ruleManager))

def takeSelected (rule : Text) (selected : Nat) (targets : List Text) : SessionM serde K Unit := do
  let cachedQueryPlanCacheId ← cacheQueryPlanAndCateLog
  tryTargets ruleManager rule cachedQueryPlanCacheId targets
  resetQueryPlanAndQueryPlanFromCache cachedQueryPlanCacheId
  match targets[selected]? with
  | none => throw "selectedPlanIdx is out of range".toList
  | some target => do
    onSearch (takeAction ruleManager [(rule, [target])])
    refresh ruleManager

def perform : Command → SessionM serde K Unit
  | .getActionSpace => do
    refresh ruleManager
    let _ ← cacheQueryPlanAndCateLog
  | .takeAction rule selected =>
    if rule = "None".toList then pure ()
    else do
      let session ← get
      match applicableTargetExprs session.planState rule with
      | [] => throw (noApplicable rule)
      | target :: rest => takeSelected ruleManager rule selected (target :: rest)
  | .cacheState => do
    let _ ← cacheQueryPlanAndCateLog
  | .resetState queryPlanCacheId => resetQueryPlanAndQueryPlanFromCache queryPlanCacheId
  | .resetPlan => do
    let session ← get
    resetQueryPlanAndQueryPlanFromCache session.initQueryPlanCacheId
    onSearch (modify fun search => { search with planState := search.planState.clearTransformedExpr })
    refresh ruleManager

def restored (issued workspace : Workspace K) : Workspace K :=
  { workspace with
    planNode := issued.planNode
    cataLog := workspace.cataLog.setIdAddressMapTo issued.cataLog.getIdAddressMap }

/-- The file formats are the same, and the checks will find the same targets once the plan and the
node-to-file map of the issued state are back. -/
def SameForChecks (issued before after : Workspace K) : Prop :=
  after.cataLog.idFileFormatMap = before.cataLog.idFileFormatMap ∧
    ∀ entry ∈ ruleManager.rules.toList,
      foundBy entry.2 (restored issued after) = foundBy entry.2 (restored issued before)

structure SearchUnchanged (issued search : SearchState K) : Prop where
  workspace : SameForChecks ruleManager issued.workspace issued.workspace search.workspace
  applied : ∀ entry ∈ ruleManager.rules.toList, ∀ target ∈ foundBy entry.2 issued.workspace,
    search.planState.isRuleApplied target entry.1 = issued.planState.isRuleApplied target entry.1

section

variable {ruleManager} {issued : SearchState K}

theorem restored_self (workspace : Workspace K) : restored workspace workspace = workspace := rfl

theorem SearchUnchanged.refl (issued : SearchState K) : SearchUnchanged ruleManager issued issued :=
  ⟨⟨rfl, fun _ _ => rfl⟩, fun _ _ _ _ => rfl⟩

section

variable {search : SearchState K} (unchanged : SearchUnchanged ruleManager issued search)
include unchanged

theorem SearchUnchanged.of_workspace
    {workspace : Workspace K} (step : SameForChecks ruleManager issued.workspace search.workspace workspace) :
    SearchUnchanged ruleManager issued { search with workspace := workspace } where
  workspace := ⟨step.1.trans unchanged.workspace.1,
    fun entry mem => (step.2 entry mem).trans (unchanged.workspace.2 entry mem)⟩
  applied := unchanged.applied

/-- Recording a pair that was not on offer changes nothing. -/
theorem SearchUnchanged.record {ruleName target : Text}
    (notOffered : ¬ (getPossibleActions ruleManager issued).planState.Offered (target, ruleName)) :
    SearchUnchanged ruleManager issued
      { search with planState := Search.record ruleName [target] search.planState } where
  workspace := unchanged.workspace
  applied := by
    intro entry mem other found
    have before := unchanged.applied entry mem other found
    unfold isRuleApplied at before ⊢
    rw [record_transformedExprs, contains_foldl_push, before]
    by_cases same : other = target ∧ entry.1 = ruleName
    · obtain ⟨sameTarget, sameRule⟩ := same
      have alreadyApplied : issued.planState.isRuleApplied other entry.1 = true := by
        by_contra notApplied
        apply notOffered
        rw [offered_getPossibleActions_iff]
        refine ⟨entry.2, sameRule ▸ mem, sameTarget ▸ found, ?_⟩
        rw [← sameTarget, ← sameRule]
        simpa using notApplied
      unfold isRuleApplied at alreadyApplied
      simp [alreadyApplied]
    · have different : (decide (other ∈ [target]) && decide (entry.1 = ruleName)) = false := by
        simpa using same
      rw [different, Bool.or_false]

theorem SearchUnchanged.getPossibleActions :
    SearchUnchanged ruleManager issued (getPossibleActions ruleManager search) := by
  rw [getPossibleActions_eq]
  exact ⟨unchanged.workspace, unchanged.applied⟩

end

/-- The rule changes neither the file formats nor what the checks find in the plan of the issued
state. -/
def LeavesChecks (ruleManager : RuleManager K) (issued : Workspace K) (rule : Rule K) : Prop :=
  ∀ curNode targets, Respects (SameForChecks ruleManager issued) (rule.apply curNode targets)

theorem applyGroup_unchanged {ruleName target : Text} (curNode : PlanNode)
    (notOffered : ¬ (getPossibleActions ruleManager issued).planState.Offered (target, ruleName))
    (leaves : ∀ rule, ruleManager.pickRule ruleName = some rule →
      LeavesChecks ruleManager issued.workspace rule) :
    Respects (fun before after => SearchUnchanged ruleManager issued before →
      SearchUnchanged ruleManager issued after) (applyGroup ruleManager curNode (ruleName, [target])) := by
  have stable := Stable.of_invariant (SearchUnchanged ruleManager issued)
  apply stable.bind stable.get
  intro search
  split
  · exact stable.throw _
  · split
    · exact stable.pure ()
    · next rule known =>
        have applied : Respects (fun before after => SearchUnchanged ruleManager issued before →
            SearchUnchanged ruleManager issued after) (onWorkspace (rule.apply curNode [target])) :=
          respects_zoom (leaves rule known curNode [target]) fun state new step unchanged =>
            unchanged.of_workspace step
        apply stable.bind applied
        exact fun _ => respects_modify fun state unchanged => unchanged.record notOffered

end

structure Remembers (issued : SessionState serde K) (queryPlanCacheId : Nat)
    (session : SessionState serde K) : Prop where
  older : queryPlanCacheId < session.queryPlanCacheId
  cachedPlan : session.queryPlanCaches[queryPlanCacheId]? = some (serde.serialize issued.plan)
  cachedMap : session.cataLogIdAddressMapCaches[queryPlanCacheId]? = some issued.cataLog.getIdAddressMap
  search : SearchUnchanged ruleManager issued.search session.search

def KeepsMemory (issued : SessionState serde K) (queryPlanCacheId : Nat) {α : Type}
    (step : SessionM serde K α) : Prop :=
  Respects (fun before after => Remembers ruleManager issued queryPlanCacheId before →
    Remembers ruleManager issued queryPlanCacheId after) step

section

variable {ruleManager} {issued : SessionState serde K} {queryPlanCacheId : Nat}

theorem stable_remembers : Stable fun before after : SessionState serde K =>
    Remembers ruleManager issued queryPlanCacheId before → Remembers ruleManager issued queryPlanCacheId after :=
  Stable.of_invariant _

theorem cache_keepsMemory :
    KeepsMemory ruleManager issued queryPlanCacheId (cacheQueryPlanAndCateLog : SessionM serde K Nat) := by
  intro session remembers
  have other : session.queryPlanCacheId ≠ queryPlanCacheId := Nat.ne_of_gt remembers.older
  have outcome : (run (cacheQueryPlanAndCateLog : SessionM serde K Nat) session).2 = session.cached := rfl
  rw [outcome]
  exact
    { older := Nat.lt_succ_of_lt remembers.older
      cachedPlan := by simp [cached, ExtTreeMap.getElem?_insert, other, remembers.cachedPlan]
      cachedMap := by simp [cached, ExtTreeMap.getElem?_insert, other, remembers.cachedMap]
      search := remembers.search }

/-- What has just been cached is remembered. -/
theorem cached_remembers (session : SessionState serde K) :
    Remembers ruleManager session.cached session.queryPlanCacheId session.cached where
  older := Nat.lt_succ_self _
  cachedPlan := by simp [cached, plan]
  cachedMap := by simp [cached, cataLog]
  search := SearchUnchanged.refl _

theorem reset_keepsMemory (other : Nat) : KeepsMemory ruleManager issued queryPlanCacheId
      (resetQueryPlanAndQueryPlanFromCache other : SessionM serde K Unit) := by
  apply stable_remembers.bind stable_remembers.get
  intro session
  split
  · exact stable_remembers.throw _
  · refine stable_remembers.bind (respects_modify fun _ remembers => ?_) fun _ => ?_
    · exact { remembers with search := remembers.search.of_workspace ⟨rfl, fun _ _ => rfl⟩ }
    split
    · exact stable_remembers.throw _
    · refine respects_modify fun _ remembers => ?_
      exact { remembers with search := remembers.search.of_workspace ⟨rfl, fun _ _ => rfl⟩ }

theorem onSearch_keepsMemory {α : Type} {step : SearchM K α}
    (respects : Respects (fun before after => SearchUnchanged ruleManager issued.search before →
      SearchUnchanged ruleManager issued.search after) step) :
    KeepsMemory ruleManager issued queryPlanCacheId (onSearch step : SessionM serde K α) :=
  respects_zoom respects fun _ _ unchanged remembers =>
    { remembers with search := unchanged remembers.search }

theorem refresh_keepsMemory :
    KeepsMemory ruleManager issued queryPlanCacheId (refresh ruleManager : SessionM serde K Unit) :=
  onSearch_keepsMemory (respects_modify fun _ unchanged => unchanged.getPossibleActions)

variable {rule : Text}
  (leaves : ∀ known, ruleManager.pickRule rule = some known →
    LeavesChecks ruleManager issued.search.workspace known)
include leaves

theorem takeAction_keepsMemory {target : Text}
    (notOffered : ¬ (getPossibleActions ruleManager issued.search).planState.Offered (target, rule)) :
    KeepsMemory ruleManager issued queryPlanCacheId
      (onSearch (takeAction ruleManager [(rule, [target])]) : SessionM serde K Unit) := by
  apply onSearch_keepsMemory
  have stable := Stable.of_invariant (SearchUnchanged ruleManager issued.search)
  apply stable.bind stable.get
  intro search
  apply stable.bind (applyGroup_unchanged _ notOffered leaves)
  exact fun _ => stable.pure ()

theorem tryTargets_keepsMemory {targets : List Text} (cachedId : Nat) (notOffered : ∀ target ∈ targets,
      ¬ (getPossibleActions ruleManager issued.search).planState.Offered (target, rule)) :
    KeepsMemory ruleManager issued queryPlanCacheId
      (tryTargets ruleManager rule cachedId targets : SessionM serde K Unit) := by
  induction targets with
  | nil => exact stable_remembers.pure ()
  | cons target rest ih =>
    apply stable_remembers.bind (takeAction_keepsMemory leaves (notOffered target List.mem_cons_self))
    intro _
    apply stable_remembers.bind (reset_keepsMemory cachedId)
    exact fun _ => ih fun target mem => notOffered target (List.mem_cons_of_mem _ mem)

theorem takeSelected_keepsMemory {targets : List Text} (selected : Nat) (notOffered : ∀ target ∈ targets,
      ¬ (getPossibleActions ruleManager issued.search).planState.Offered (target, rule)) :
    KeepsMemory ruleManager issued queryPlanCacheId
      (takeSelected ruleManager rule selected targets : SessionM serde K Unit) := by
  apply stable_remembers.bind cache_keepsMemory
  intro cachedId
  apply stable_remembers.bind (tryTargets_keepsMemory leaves cachedId notOffered)
  intro _
  apply stable_remembers.bind (reset_keepsMemory cachedId)
  intro _
  split
  · exact stable_remembers.throw _
  · next target found =>
      have mem : target ∈ targets := List.mem_of_getElem? found
      apply stable_remembers.bind (takeAction_keepsMemory leaves (notOffered target mem))
      exact fun _ => refresh_keepsMemory

end

/-- The commands that leave the issued state within reach. An action tries only pairs that were not on
offer in the issued state, with a rule that leaves the checks alone. Going back to the initial
plan, which forgets the applied rules, brings back no pair. -/
def StepAllowed (issued current : SessionState serde K) : Command → Prop
  | .takeAction rule _ =>
    rule = "None".toList ∨
      (∀ target, current.planState.Offered (target, rule) →
        ¬ (getPossibleActions ruleManager issued.search).planState.Offered (target, rule)) ∧
      ∀ known, ruleManager.pickRule rule = some known →
        LeavesChecks ruleManager issued.search.workspace known
  | .resetPlan => ∀ targetAction,
      (getPossibleActions ruleManager
        { issued.search with planState := issued.planState.clearTransformedExpr }).planState.Offered
          targetAction →
      (getPossibleActions ruleManager issued.search).planState.Offered targetAction
  | _ => True

section

variable {ruleManager} {issued : SessionState serde K} {queryPlanCacheId : Nat}

/-- Forgetting the applied rules changes nothing when it brings back no pair. -/
theorem clear_keepsMemory (allowed : StepAllowed ruleManager issued issued .resetPlan) :
    KeepsMemory ruleManager issued queryPlanCacheId (onSearch (modify fun search =>
      { search with planState := search.planState.clearTransformedExpr }) : SessionM serde K PUnit) := by
  apply onSearch_keepsMemory
  apply respects_modify
  intro search unchanged
  refine ⟨unchanged.workspace, ?_⟩
  intro entry mem target found
  have forgotten : search.planState.clearTransformedExpr.isRuleApplied target entry.1 = false := by
    simp [clearTransformedExpr, isRuleApplied, contains]
  have forgottenToo : issued.planState.clearTransformedExpr.isRuleApplied target entry.1 = false := by
    simp [clearTransformedExpr, isRuleApplied, contains]
  have offered := allowed (target, entry.1)
    (offered_getPossibleActions_iff.mpr ⟨entry.2, mem, found, forgottenToo⟩)
  obtain ⟨rule, known, inPlan, notApplied⟩ := offered_getPossibleActions_iff.mp offered
  exact forgotten.trans notApplied.symm

theorem perform_remembers {current : SessionState serde K} {command : Command}
    (allowed : StepAllowed ruleManager issued current command)
    (remembers : Remembers ruleManager issued queryPlanCacheId current) :
    Remembers ruleManager issued queryPlanCacheId (run (perform ruleManager command) current).2 := by
  cases command with
  | getActionSpace =>
    have keeps : KeepsMemory ruleManager issued queryPlanCacheId
        (perform ruleManager .getActionSpace : SessionM serde K Unit) := by
      apply stable_remembers.bind refresh_keepsMemory
      intro _
      exact stable_remembers.bind cache_keepsMemory fun _ => stable_remembers.pure ()
    exact keeps current remembers
  | takeAction rule selected =>
    dsimp only [perform]
    by_cases idle : rule = "None".toList
    · rw [if_pos idle]
      exact remembers
    · rw [if_neg idle, run_bind]
      simp only [run_get]
      cases allowed with
      | inl none => exact absurd none idle
      | inr conditions =>
        split
        · exact remembers
        · next target rest applicable =>
            apply takeSelected_keepsMemory conditions.2 selected _ current remembers
            intro target mem
            rw [← applicable] at mem
            exact conditions.1 target (offered_of_mem_applicable mem)
  | cacheState =>
    exact stable_remembers.bind cache_keepsMemory (fun _ => stable_remembers.pure ()) current remembers
  | resetState other => exact reset_keepsMemory other current remembers
  | resetPlan =>
    have keeps : KeepsMemory ruleManager issued queryPlanCacheId
        (perform ruleManager .resetPlan : SessionM serde K Unit) := by
      apply stable_remembers.bind stable_remembers.get
      intro session
      apply stable_remembers.bind (reset_keepsMemory _)
      intro _
      exact stable_remembers.bind (clear_keepsMemory allowed) fun _ => refresh_keepsMemory
    exact keeps current remembers

inductive AllowedRun (ruleManager : RuleManager K) (issued : SessionState serde K) :
    SessionState serde K → SessionState serde K → Prop where
  | none (session : SessionState serde K) : AllowedRun ruleManager issued session session
  | step {start current next : SessionState serde K} (command : Command)
      (earlier : AllowedRun ruleManager issued start current)
      (allowed : StepAllowed ruleManager issued current command)
      (success : run (perform ruleManager command) current = (.ok (), next)) :
      AllowedRun ruleManager issued start next

theorem AllowedRun.remembers {start later : SessionState serde K}
    (commands : AllowedRun ruleManager issued start later)
    (remembers : Remembers ruleManager issued queryPlanCacheId start) :
    Remembers ruleManager issued queryPlanCacheId later := by
  induction commands with
  | none => exact remembers
  | step command earlier allowed success ih =>
    have next := perform_remembers allowed ih
    rwa [success] at next

/-- The plan, the node-to-file map and the file formats are those of the issued state, and so is the
action space that is offered next. -/
structure Restored (ruleManager : RuleManager K) (issued session : SessionState serde K) : Prop where
  plan : session.plan = issued.plan
  idAddressMap : session.cataLog.getIdAddressMap = issued.cataLog.getIdAddressMap
  fileFormats : session.cataLog.idFileFormatMap = issued.cataLog.idFileFormatMap
  actionSpace : (run (perform ruleManager .getActionSpace) session).2.planState.actionsPair =
    (run (perform ruleManager .getActionSpace) issued).2.planState.actionsPair

theorem actionSpace_eq (session : SessionState serde K) :
    (run (perform ruleManager .getActionSpace) session).2.planState.actionsPair =
      offersOf (newOffers ruleManager session.search) ∅ := by
  have outcome : (run (perform ruleManager .getActionSpace) session).2.planState =
      (getPossibleActions ruleManager session.search).planState := rfl
  rw [outcome, getPossibleActions_eq]

/-- The checks find the same and the same pairs count as applied, so the same is put on offer. -/
theorem newOffers_eq_of_unchanged {issued search : SearchState K}
    (unchanged : SearchUnchanged ruleManager issued search)
    (back : restored issued.workspace search.workspace = search.workspace) :
    newOffers ruleManager search = newOffers ruleManager issued := by
  unfold newOffers
  apply List.map_congr_left
  intro entry mem
  have sameFound : foundBy entry.2 search.workspace = foundBy entry.2 issued.workspace := by
    have found := unchanged.workspace.2 entry mem
    rwa [back, restored_self] at found
  have sameNew : newTargets search.planState entry.1 (foundBy entry.2 issued.workspace) =
      newTargets issued.planState entry.1 (foundBy entry.2 issued.workspace) := by
    apply List.filter_congr
    intro target inPlan
    rw [unchanged.applied entry mem target inPlan]
  rw [sameFound, sameNew]

theorem reset_restores {session : SessionState serde K}
    (remembers : Remembers ruleManager issued queryPlanCacheId session) :
    ∃ after, run (perform ruleManager (.resetState queryPlanCacheId)) session = (.ok (), after) ∧
      Restored ruleManager issued after := by
  refine ⟨(session.setPlan issued.plan).setIdAddressMap issued.cataLog.getIdAddressMap, ?_, ?_⟩
  · have plan : session.queryPlanCaches[queryPlanCacheId]?.bind serde.deserialize = some issued.plan := by
      rw [remembers.cachedPlan]
      exact serde.deserialize_serialize issued.plan
    simp only [perform, resetQueryPlanAndQueryPlanFromCache, run_bind, run_get, plan, run_modify,
      remembers.cachedMap]
  · have unchanged : SearchUnchanged ruleManager issued.search
        ((session.setPlan issued.plan).setIdAddressMap issued.cataLog.getIdAddressMap).search :=
      remembers.search.of_workspace ⟨rfl, fun _ _ => rfl⟩
    refine ⟨rfl, rfl, unchanged.workspace.1, ?_⟩
    rw [actionSpace_eq, actionSpace_eq, newOffers_eq_of_unchanged unchanged rfl]

/-- The state in which an identifier is issued is remembered under it. -/
theorem issued_remembers {before issued : SessionState serde K} {issue : Command}
    (issuing : issue = .getActionSpace ∨ issue = .cacheState)
    (success : run (perform ruleManager issue) before = (.ok (), issued)) :
    Remembers ruleManager issued before.queryPlanCacheId issued := by
  cases issuing with
  | inl actionSpace =>
    subst actionSpace
    have outcome : run (perform ruleManager .getActionSpace) before =
        (.ok (), { before with search := getPossibleActions ruleManager before.search }.cached) := rfl
    rw [outcome] at success
    cases success
    exact cached_remembers _
  | inr cacheState =>
    subst cacheState
    have outcome : run (perform ruleManager .cacheState) before = (.ok (), before.cached) := rfl
    rw [outcome] at success
    cases success
    exact cached_remembers before

/-- Going back to an issued identifier restores the state in which it was issued, after every run of
commands that are allowed since. -/
theorem resetState_restores (ruleManager : RuleManager K) {before issued later : SessionState serde K}
    {issue : Command} (issuing : issue = .getActionSpace ∨ issue = .cacheState)
    (success : run (perform ruleManager issue) before = (.ok (), issued))
    (commands : AllowedRun ruleManager issued issued later) :
    ∃ after, run (perform ruleManager (.resetState before.queryPlanCacheId)) later = (.ok (), after) ∧
      Restored ruleManager issued after :=
  reset_restores (commands.remembers (issued_remembers issuing success))

end

def performAll (session : SessionState serde K) (commands : List Command) : SessionState serde K :=
  commands.foldl (fun session command => (run (perform ruleManager command) session).2) session

def plainSerde : Serde := ⟨PlanNode, id, some, fun _ => rfl⟩

def sessionStart (search : SearchState Nat) : SessionState plainSerde Nat :=
  cached ⟨search, 0, ∅, ∅, 0⟩

def twoLayerRule : Text := "TorchNN2TwoLayerUDFRewriteAction".toList

def onlyTwoLayer : RuleManager Nat :=
  ⟨(∅ : TextMap (Rule Nat)).insert twoLayerRule (rule sqlParser)⟩

def rewrittenNetwork : SessionState plainSerde Nat :=
  performAll onlyTwoLayer (sessionStart networkState) [.getActionSpace, .takeAction twoLayerRule 0]

-- Afterwards the search goes back to the initial plan and rewrites the network once more.
def backAtStart : SessionState plainSerde Nat := (run (perform onlyTwoLayer .resetPlan) rewrittenNetwork.cached).2
def askedAgain : SessionState plainSerde Nat := (run (perform onlyTwoLayer .getActionSpace) backAtStart).2
def rewrittenAgain : SessionState plainSerde Nat :=
  (run (perform onlyTwoLayer (.takeAction twoLayerRule 0)) askedAgain).2

theorem leavesChecks_twoLayer (issued : Workspace Nat) (known : Rule Nat)
    (picked : onlyTwoLayer.pickRule twoLayerRule = some known) : LeavesChecks onlyTwoLayer issued known := by
  have same : known = rule sqlParser := by
    simpa [onlyTwoLayer, RuleManager.pickRule] using picked.symm
  subst same
  intro curNode targets workspace
  constructor
  · exact congrArg CataLog.idFileFormatMap
      (apply_sameCataLog sqlParser curNode targets workspace)
  · intro entry mem
    have found := ExtTreeMap.mem_toList_iff_getElem?_eq_some.mp mem
    have onlyRule : entry.2 = rule sqlParser := by
      rw [onlyTwoLayer, ExtTreeMap.getElem?_insert] at found
      split at found
      · exact (Option.some.inj found).symm
      · simp at found
    rw [onlyRule]
    rfl

theorem not_offered_of_isEmpty {planState : PlanState} (empty : planState.actionsPair.isEmpty)
    (targetAction : Text × Text) : ¬ planState.Offered targetAction := by
  have nothing : planState.actionsPair = ∅ := ExtTreeMap.isEmpty_iff.mp empty
  simp [PlanState.Offered, checkIsValidRule, nothing, contains]

theorem AllowedRun.performed {ruleManager : RuleManager K} {issued start current : SessionState serde K}
    (earlier : AllowedRun ruleManager issued start current) (command : Command)
    (allowed : StepAllowed ruleManager issued current command)
    (success : (run (perform ruleManager command) current).1 = .ok ()) :
    AllowedRun ruleManager issued start (run (perform ruleManager command) current).2 :=
  .step command earlier allowed (Prod.ext success rfl)

theorem resetState_restores_rewritten :
    ∃ after, run (perform onlyTwoLayer (.resetState rewrittenNetwork.queryPlanCacheId)) rewrittenAgain =
      (.ok (), after) ∧ Restored onlyTwoLayer rewrittenNetwork.cached after := by
  have nothingOffered : (getPossibleActions onlyTwoLayer
      rewrittenNetwork.cached.search).planState.actionsPair.isEmpty := by decide +kernel
  have nothingHidden : (getPossibleActions onlyTwoLayer
      { rewrittenNetwork.cached.search with
        planState := rewrittenNetwork.cached.planState.clearTransformedExpr }).planState.actionsPair.isEmpty := by
    decide +kernel
  have first : AllowedRun onlyTwoLayer rewrittenNetwork.cached rewrittenNetwork.cached backAtStart :=
    (AllowedRun.none _).performed .resetPlan
      (fun targetAction offered => absurd offered (not_offered_of_isEmpty nothingHidden targetAction))
      (by decide +kernel)
  have second : AllowedRun onlyTwoLayer rewrittenNetwork.cached rewrittenNetwork.cached askedAgain :=
    first.performed .getActionSpace trivial (by decide +kernel)
  have third : AllowedRun onlyTwoLayer rewrittenNetwork.cached rewrittenNetwork.cached rewrittenAgain :=
    second.performed (.takeAction twoLayerRule 0)
      (.inr ⟨fun target _ => not_offered_of_isEmpty nothingOffered (target, twoLayerRule),
        leavesChecks_twoLayer _⟩)
      (by decide +kernel)
  exact resetState_restores onlyTwoLayer (.inr rfl) rfl third

def productRule : Text := "Mul2JoinAggRewriteAction".toList

def askedOnce : SessionState plainSerde Nat := performAll twoRules (sessionStart networkState) [.getActionSpace]

def backAgain : SessionState plainSerde Nat :=
  performAll twoRules askedOnce
    [.takeAction productRule 0, .resetState (sessionStart networkState).queryPlanCacheId]

/-- After one action and the way back, two files have a format that they did not have, and the pair
that was taken is not offered any more. -/
theorem resetState_loses_offers :
    (run (perform twoRules (.takeAction productRule 0)) askedOnce).1 = .ok () ∧
    (backAgain.plan.ids = askedOnce.plan.ids ∧
      backAgain.cataLog.getIdAddressMap.toList = askedOnce.cataLog.getIdAddressMap.toList) ∧
    backAgain.cataLog.idFileFormatMap.toList ≠ askedOnce.cataLog.idFileFormatMap.toList ∧
    askedOnce.planState.Offered product ∧
    ¬ (performAll twoRules backAgain [.getActionSpace]).planState.Offered product := by
  decide +kernel

end CactusDB.Optimizer.Session
