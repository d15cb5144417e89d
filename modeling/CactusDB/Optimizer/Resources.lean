import CactusDB.Core.PlanBuilder
import CactusDB.Library.TreeMap
import CactusDB.MlFunctions.Functions

/-! What the rewrite rules work on: the plan under construction, the generator of node identifiers,
the catalog and the registry of vector functions. A rule may stop half-way; what it has changed by
then stays changed. -/

namespace CactusDB.Optimizer.Resources
open Std Library TextScan Stateful Core.Plan Core.PlanBuilder MlFunctions.Functions

inductive FileFormat where
  | unknown
  | dwrf
  | rc
  | rcText
  | rcBinary
  | text
  | json
  | parquet
  | alpha
  | orc
  deriving DecidableEq, Repr

abbrev TextMap (ν : Type) := ExtTreeMap Text ν

abbrev RowTypePtr := Option (List Text)

structure CataLog where
  udfFileAddrMap : TextMap (List Text) := ∅
  udfSchemaMap : TextMap RowTypePtr := ∅
  dataSourceBlocksSchemaMap : TextMap RowTypePtr := ∅
  dataSourceBlocksFileAddrMap : TextMap (List Text) := ∅
  dataSourceStatMap : TextMap (List Nat) := ∅
  idFileAddrMap : ExtTreeMap PlanNodeId (List Text) := ∅
  idFileFormatMap : ExtTreeMap PlanNodeId FileFormat := ∅
  vectorIdMap : TextMap PlanNodeId := ∅
  defaultBlocksNum : Nat := 4
  defaultBlocksSize : Nat := 256

namespace CataLog

/-- Flag 1 files the weights of a function, flag 0 its values; other flags do nothing. -/
def add (cataLog : CataLog) (name : Text) (schema : RowTypePtr) (filePath : List Text) (flag : Nat)
    (nameSuffix : Text) : CataLog :=
  let store (key : Text) : CataLog :=
    { cataLog with
      udfFileAddrMap := cataLog.udfFileAddrMap.insert key filePath
      udfSchemaMap := cataLog.udfSchemaMap.insert key schema }
  if flag = 1 then store (name ++ "_weights".toList ++ nameSuffix)
  else if flag = 0 then store (name ++ "_values".toList ++ nameSuffix)
  else cataLog

def getDataSourceBlocksSchema (cataLog : CataLog) (key : Text) : RowTypePtr :=
  cataLog.dataSourceBlocksSchemaMap[key]?.join

def getDataSourceBlocksFileAddr (cataLog : CataLog) (key : Text) : List Text :=
  cataLog.dataSourceBlocksFileAddrMap[key]?.getD []

def notFound (key map : Text) : Text :=
  "Key: ".toList ++ key ++ " was not found in ".toList ++ map ++ ".".toList

variable (cataLog : CataLog)

def getUDFSchema (key : Text) : Except Text (List Text) :=
  match cataLog.udfSchemaMap[key]?.join with
  | some schema => .ok schema
  | none => .error (notFound key "UDFSchemaMap".toList)

/-- An entry without files counts as missing here, but not in `checkExistsUDFFileAddr`. -/
def getUDFFileAddr (key : Text) : Except Text (List Text) :=
  match cataLog.udfFileAddrMap[key]?.getD [] with
  | [] => .error (notFound key "UDFFileAddrMap".toList)
  | files => .ok files

def checkExistsUDFFileAddr (key : Text) : Bool := cataLog.udfFileAddrMap.contains key

def getDataSourceStat (key : Text) : Except Text (List Nat) :=
  match cataLog.dataSourceStatMap[key]?.getD [] with
  | [] => .error (notFound key "dataSourceStatMap".toList)
  | stat => .ok stat

/-- Without a format the node's files are taken to be in DWRF. -/
def setIdAddressMap (p : PlanNodeId) (filePath : List Text) : CataLog :=
  { cataLog with
    idFileAddrMap := cataLog.idFileAddrMap.insert p filePath
    idFileFormatMap := cataLog.idFileFormatMap.insert p .dwrf }

/-- The file format of the node stays behind. -/
def deleteIdAddressMap (p : PlanNodeId) : CataLog :=
  { cataLog with idFileAddrMap := cataLog.idFileAddrMap.erase p }

def getIdAddressMap : ExtTreeMap PlanNodeId (List Text) := cataLog.idFileAddrMap

/-- The overload that takes a whole map leaves the file formats alone. -/
def setIdAddressMapTo (map : ExtTreeMap PlanNodeId (List Text)) : CataLog :=
  { cataLog with idFileAddrMap := map }

def getVectorIdMap (values : Text) : Option PlanNodeId := cataLog.vectorIdMap[values]?

end CataLog

/-- `compute` is a member of the two-layer rule, which outlives a call of the rule. -/
structure Workspace (K : Type) where
  planNode : PlanNode
  nextId : PlanNodeId
  cataLog : CataLog
  functions : TextMap (VectorFunction K)
  compute : Text

abbrev RewriteM (K : Type) := Procedure Text (Workspace K)

variable {K : Type}

def build {α : Type} (steps : BuildM α) : RewriteM K α :=
  zoom Workspace.nextId (fun next workspace => { workspace with nextId := next }) steps

def attempt {α : Type} : Except Text α → RewriteM K α
  | .ok value => pure value
  | .error message => throw message

def setRoot (root : PlanNode) : RewriteM K Unit :=
  modify fun workspace => { workspace with planNode := root }

def extendPlan (step : PlanNode → BuildM PlanNode) : RewriteM K Unit := do
  let workspace ← get
  let root ← build (step workspace.planNode)
  setRoot root

def changeCataLog (change : CataLog → CataLog) : RewriteM K Unit :=
  modify fun workspace => { workspace with cataLog := change workspace.cataLog }

/-- Function names are registered and looked up in lower case. -/
def sanitizeName (name : Text) : Text := name.map Char.toLower

def registerVectorFunction (name : Text) (function : VectorFunction K) : RewriteM K Unit :=
  modify fun workspace =>
    { workspace with functions := workspace.functions.insert (sanitizeName name) function }

def Workspace.getVectorFunction (workspace : Workspace K) (name : Text) : Option (VectorFunction K) :=
  workspace.functions[sanitizeName name]?

/-- The plan is another one, whose root has drawn its identifier since. -/
def Rebuilt (before after : Workspace K) : Prop :=
  before.nextId ≤ after.planNode.id ∧ after.planNode.id < after.nextId

def Grew (before after : Workspace K) : Prop := before.nextId ≤ after.nextId

def KeptOrRebuilt (before after : Workspace K) : Prop :=
  (after.planNode = before.planNode ∧ Grew before after) ∨ Rebuilt before after

theorem Rebuilt.grew {before after : Workspace K} (rebuilt : Rebuilt before after) : Grew before after :=
  Nat.le_of_lt (Nat.lt_of_le_of_lt rebuilt.1 rebuilt.2)

theorem KeptOrRebuilt.grew {before after : Workspace K} (step : KeptOrRebuilt before after) : Grew before after := by
  cases step with
  | inl kept => exact kept.2
  | inr rebuilt => exact rebuilt.grew

theorem Rebuilt.of_grew {a b c : Workspace K} (first : Grew a b) (second : Rebuilt b c) : Rebuilt a c :=
  ⟨Nat.le_trans first second.1, second.2⟩

theorem Rebuilt.then_step {a b c : Workspace K} (first : Rebuilt a b) (second : KeptOrRebuilt b c) : Rebuilt a c := by
  cases second with
  | inl kept =>
    unfold Rebuilt
    rw [kept.1]
    exact ⟨first.1, Nat.lt_of_lt_of_le first.2 kept.2⟩
  | inr rebuilt => exact Rebuilt.of_grew first.grew rebuilt

theorem KeptOrRebuilt.trans {a b c : Workspace K} (first : KeptOrRebuilt a b) (second : KeptOrRebuilt b c) :
    KeptOrRebuilt a c := by
  cases first with
  | inl kept =>
    cases second with
    | inl again => exact .inl ⟨again.1.trans kept.1, Nat.le_trans kept.2 again.2⟩
    | inr rebuilt => exact .inr (Rebuilt.of_grew kept.2 rebuilt)
  | inr rebuilt => exact .inr (rebuilt.then_step second)

theorem keeps_rebuilt : Keeps (KeptOrRebuilt (K := K)) Rebuilt where
  stable :=
    { refl := fun _ => .inl ⟨rfl, Nat.le_refl _⟩
      trans := KeptOrRebuilt.trans }
  weaken := Or.inr
  before := fun first second => Rebuilt.of_grew first.grew second
  after := Rebuilt.then_step

theorem get_kept : Ensures KeptOrRebuilt (get : RewriteM K (Workspace K)) :=
  keeps_rebuilt.stable.get.ensures

/-- Changes of the catalog, the registry and the members of rules. -/
theorem modify_kept {change : Workspace K → Workspace K}
    (planNode : ∀ workspace, (change workspace).planNode = workspace.planNode)
    (nextId : ∀ workspace, (change workspace).nextId = workspace.nextId) :
    Ensures KeptOrRebuilt (modify change : RewriteM K PUnit) :=
  (respects_modify fun workspace => .inl ⟨planNode workspace, (nextId workspace).ge⟩).ensures

theorem attempt_kept {α : Type} (result : Except Text α) : Ensures KeptOrRebuilt (attempt result : RewriteM K α) := by
  cases result with
  | ok value => exact keeps_rebuilt.pure value
  | error message => exact returns_throw message

theorem changeCataLog_kept (change : CataLog → CataLog) :
    Ensures KeptOrRebuilt (changeCataLog change : RewriteM K Unit) :=
  modify_kept (fun _ => rfl) fun _ => rfl

theorem registerVectorFunction_kept (name : Text) (function : VectorFunction K) :
    Ensures KeptOrRebuilt (registerVectorFunction name function) :=
  modify_kept (fun _ => rfl) fun _ => rfl

theorem setRoot_grew (root : PlanNode) : Ensures Grew (setRoot root : RewriteM K Unit) := by
  intro before value after success
  cases success
  exact Nat.le_refl before.nextId

theorem rebuilt_after {α β : Type} {first : RewriteM K α} {next : α → RewriteM K β}
    (grew : Ensures Grew first) (rest : ∀ value, Ensures Rebuilt (next value)) :
    Ensures Rebuilt (first >>= next) :=
  returns_bind grew rest fun _ _ _ _ _ => Rebuilt.of_grew

theorem build_returns {α : Type} {steps : BuildM α} {post : PlanNodeId → α → PlanNodeId → Prop}
    (built : Returns post steps) :
    Returns (fun before value after => post before.nextId value after.nextId)
      (build steps : RewriteM K α) := by
  intro before value after success
  simp only [build, run_zoom, Prod.mk.injEq] at success
  rw [← success.2]
  exact built _ _ _ (Prod.ext success.1 rfl)

/-- A plan that is built afresh takes the place of the old one, and what follows keeps it. -/
theorem build_setRoot_rebuilt {α β : Type} {steps : BuildM α} (root : α → PlanNode) {rest : α → RewriteM K β}
    (fresh : Returns (fun next value after => next ≤ (root value).id ∧ (root value).id < after) steps)
    (kept : ∀ value, Ensures KeptOrRebuilt (rest value)) :
    Ensures Rebuilt (build steps >>= fun value => setRoot (root value) >>= fun _ => rest value) := by
  intro before result after success
  obtain ⟨value, built, start, success⟩ := run_bind_ok success
  obtain ⟨_, placed, swap, success⟩ := run_bind_ok success
  cases swap
  have rebuilt : Rebuilt before { built with planNode := root value } :=
    build_returns fresh before value built start
  exact rebuilt.then_step (kept value _ result after success)

theorem extendPlan_rebuilt {step : PlanNode → BuildM PlanNode} (fresh : ∀ source, Fresh (step source)) :
    Ensures Rebuilt (extendPlan step : RewriteM K Unit) := by
  apply keeps_rebuilt.bind_rest get_kept
  intro workspace
  exact build_setRoot_rebuilt id (fresh workspace.planNode) fun root => keeps_rebuilt.pure ()

def SameCataLog (before after : Workspace K) : Prop := after.cataLog = before.cataLog

theorem sameCataLog_stable : Stable (SameCataLog (K := K)) where
  refl _ := rfl
  trans first second := Eq.trans second first

theorem build_sameCataLog {α : Type} (steps : BuildM α) :
    Respects SameCataLog (build steps : RewriteM K α) := fun _ => rfl

theorem setRoot_sameCataLog (root : PlanNode) : Respects SameCataLog (setRoot root : RewriteM K Unit) :=
  fun _ => rfl

theorem extendPlan_sameCataLog (step : PlanNode → BuildM PlanNode) :
    Respects SameCataLog (extendPlan step : RewriteM K Unit) := by
  apply sameCataLog_stable.bind sameCataLog_stable.get
  intro workspace
  exact sameCataLog_stable.bind (build_sameCataLog _) fun root => setRoot_sameCataLog root

theorem registerVectorFunction_sameCataLog (name : Text) (function : VectorFunction K) :
    Respects SameCataLog (registerVectorFunction name function) := fun _ => rfl

end CactusDB.Optimizer.Resources
