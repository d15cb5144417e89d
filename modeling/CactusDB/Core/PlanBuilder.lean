import CactusDB.Core.Plan
import CactusDB.Library.Stateful

/-! The plan builder. It puts a new node on top of a plan and draws the node's identifier from the
generator. Texts of expressions go through the SQL parser, which is a parameter, and then
through type inference, of which the lookup of column names is modelled. -/

namespace CactusDB.Core.PlanBuilder
open Library TextScan Stateful Expressions Plan

structure ParsedExpr where
  expr : TypedExpr
  exprAlias : Option Text

/-- The SQL parser; `none` where it rejects a text. -/
structure SqlParser where
  parseExpr : Text → Option ParsedExpr

abbrev BuildM := Procedure Text PlanNodeId

def nextPlanNodeId : BuildM PlanNodeId := do
  let next ← get
  set (next + 1)
  return next

def fieldNotFound (name : Text) (availableNames : List Text) : Text :=
  "Field not found: ".toList ++ name ++ ". Available fields are: ".toList ++
    List.intercalate ", ".toList availableNames

def checkFields (availableNames : List Text) : List Text → Except Text Unit
  | [] => .ok ()
  | name :: rest =>
    if name ∈ availableNames then checkFields availableNames rest
    else .error (fieldNotFound name availableNames)

variable (sql : SqlParser)

def parseExpr (text : Text) (rowType : List Text) : Except Text ParsedExpr :=
  match sql.parseExpr text with
  | none => .error ("Cannot parse expression: ".toList ++ text)
  | some parsed =>
    match checkFields rowType parsed.expr.fields with
    | .error message => .error message
    | .ok _ => .ok parsed

/-- A projection is named by its alias, else by the column it is, else by its position. -/
def projectName (i : Nat) (parsed : ParsedExpr) : Text :=
  match parsed.exprAlias, parsed.expr with
  | some name, _ => name
  | none, .field name => name
  | none, _ => 'p' :: decimal i

def parseProjections (rowType : List Text) : Nat → List Text → Except Text (List Named)
  | _, [] => .ok []
  | i, text :: rest =>
    match parseExpr sql text rowType with
    | .error message => .error message
    | .ok parsed =>
      match parseProjections rowType (i + 1) rest with
      | .error message => .error message
      | .ok others => .ok (⟨projectName i parsed, parsed.expr⟩ :: others)

def parseAggregates (rowType : List Text) : Nat → List Text → Except Text (List Named)
  | _, [] => .ok []
  | i, text :: rest =>
    match parseExpr sql text rowType with
    | .error message => .error message
    | .ok parsed =>
      match parseAggregates rowType (i + 1) rest with
      | .error message => .error message
      | .ok others => .ok (⟨parsed.exprAlias.getD ('a' :: decimal i), parsed.expr⟩ :: others)

def liftExcept {α : Type} : Except Text α → BuildM α
  | .ok value => pure value
  | .error message => throw message

def newNode (op : Operator) (sources : List PlanNode) : BuildM PlanNode := do
  let id ← nextPlanNodeId
  return .mk id op sources

def Grows {α : Type} (steps : BuildM α) : Prop := Ensures (· ≤ ·) steps

def Fresh (steps : BuildM PlanNode) : Prop :=
  Returns (fun next node after => next ≤ node.id ∧ node.id < after) steps

theorem Fresh.grows {steps : BuildM PlanNode} (fresh : Fresh steps) : Grows steps := by
  intro next node after success
  have bounds := fresh next node after success
  exact Nat.le_of_lt (Nat.lt_of_le_of_lt bounds.1 bounds.2)

theorem grows_pure {α : Type} (value : α) : Grows (pure value) := by
  intro next result after success
  cases success
  exact Nat.le_refl next

theorem grows_bind {α β : Type} {steps : BuildM α} {next : α → BuildM β} (first : Grows steps)
    (rest : ∀ value, Grows (next value)) : Grows (steps >>= next) :=
  returns_bind first rest fun _ _ _ _ _ => Nat.le_trans

theorem grows_liftExcept {α : Type} (result : Except Text α) : Grows (liftExcept result) := by
  cases result with
  | ok value => exact grows_pure value
  | error message => exact returns_throw message

theorem fresh_bind {α : Type} {steps : BuildM α} {next : α → BuildM PlanNode} (first : Grows steps)
    (rest : ∀ value, Fresh (next value)) : Fresh (steps >>= next) :=
  returns_bind first rest fun _ _ _ _ _ early late => ⟨Nat.le_trans early late.1, late.2⟩

theorem newNode_fresh (op : Operator) (sources : List PlanNode) : Fresh (newNode op sources) := by
  intro next node after success
  cases success
  exact ⟨Nat.le_refl next, Nat.lt_succ_self next⟩

def tableScan (schema : List Text) : BuildM PlanNode := newNode (.tableScan schema) []

theorem tableScan_fresh (schema : List Text) : Fresh (tableScan schema) := newNode_fresh _ _

def project (projections : List Text) (source : PlanNode) : BuildM PlanNode := do
  let named ← liftExcept (parseProjections sql source.outputType 0 projections)
  newNode (.project named) [source]

theorem project_fresh (projections : List Text) (source : PlanNode) : Fresh (project sql projections source) :=
  fresh_bind (grows_liftExcept _) fun _ => newNode_fresh _ _

def filter (condition : Text) (source : PlanNode) : BuildM PlanNode := do
  let parsed ← liftExcept (parseExpr sql condition source.outputType)
  newNode (.filter parsed.expr) [source]

theorem filter_fresh (condition : Text) (source : PlanNode) : Fresh (filter sql condition source) :=
  fresh_bind (grows_liftExcept _) fun _ => newNode_fresh _ _

section

variable (leftKeys rightKeys : List Text) (build : PlanNode) (outputLayout : List Text) (source : PlanNode)

/-- An inner join without extra filter; the keys and the output columns must exist. -/
def hashJoin : BuildM PlanNode := do
  liftExcept (checkFields (source.outputType ++ build.outputType) outputLayout)
  liftExcept (checkFields source.outputType leftKeys)
  liftExcept (checkFields build.outputType rightKeys)
  newNode (.hashJoin .kInner leftKeys rightKeys none outputLayout) [source, build]

theorem hashJoin_fresh : Fresh (hashJoin leftKeys rightKeys build outputLayout source) := by
  apply fresh_bind (grows_liftExcept _)
  intro _
  apply fresh_bind (grows_liftExcept _)
  intro _
  exact fresh_bind (grows_liftExcept _) fun _ => newNode_fresh _ _

end

def aggregation (step : Step) (groupingKeys aggregates : List Text) (source : PlanNode) :
    BuildM PlanNode := do
  let named ← liftExcept (parseAggregates sql source.outputType 0 aggregates)
  liftExcept (checkFields source.outputType groupingKeys)
  newNode (.aggregation step groupingKeys named) [source]

theorem aggregation_fresh (step : Step) (groupingKeys aggregates : List Text) (source : PlanNode) :
    Fresh (aggregation sql step groupingKeys aggregates source) := by
  apply fresh_bind (grows_liftExcept _)
  intro _
  exact fresh_bind (grows_liftExcept _) fun _ => newNode_fresh _ _

def partialAggregation := aggregation sql .kPartial
def singleAggregation := aggregation sql .kSingle

def localPartition (keys : List Text) (source : PlanNode) : BuildM PlanNode := do
  liftExcept (checkFields source.outputType keys)
  newNode (.localPartition keys) [source]

theorem localPartition_fresh (keys : List Text) (source : PlanNode) : Fresh (localPartition keys source) :=
  fresh_bind (grows_liftExcept _) fun _ => newNode_fresh _ _

def findPartialAggregation : PlanNode → Option (Step × List Text × List Named × List PlanNode)
  | .mk _ (.aggregation step keys aggregates) sources => some (step, keys, aggregates, sources)
  | .mk _ (.localPartition _) (.mk _ (.aggregation step keys aggregates) sources :: _) =>
    some (step, keys, aggregates, sources)
  | _ => none

/-- The later step keeps keys and aggregate names; each aggregate reads the column that the
earlier step has written. -/
def laterAggregates (aggregates : List Named) : List Named :=
  aggregates.map fun aggregate =>
    match aggregate.expr with
    | .call name _ => ⟨aggregate.name, .call name [.field aggregate.name]⟩
    | _ => aggregate

def notPartial : Text :=
  "Current plan node must be one of: partial or intermediate aggregation, local merge or exchange.".toList

def intermediateAggregation (source : PlanNode) : BuildM PlanNode :=
  match findPartialAggregation source with
  | some (.kPartial, keys, aggregates, _) =>
    newNode (.aggregation .kIntermediate keys (laterAggregates aggregates)) [source]
  | _ => throw notPartial

theorem intermediateAggregation_fresh (source : PlanNode) : Fresh (intermediateAggregation source) := by
  unfold intermediateAggregation
  split
  · exact newNode_fresh _ _
  · exact returns_throw _

def finalAggregation (source : PlanNode) : BuildM PlanNode :=
  match findPartialAggregation source with
  | some (.kPartial, keys, aggregates, _) =>
    newNode (.aggregation .kFinal keys (laterAggregates aggregates)) [source]
  | some (.kIntermediate, _, _, below :: _) =>
    match findPartialAggregation below with
    | some (.kPartial, keys, aggregates, _) =>
      newNode (.aggregation .kFinal keys (laterAggregates aggregates)) [source]
    | _ => throw notPartial
  | _ => throw notPartial

theorem finalAggregation_fresh (source : PlanNode) : Fresh (finalAggregation source) := by
  unfold finalAggregation
  split
  · exact newNode_fresh _ _
  · split
    · exact newNode_fresh _ _
    · exact returns_throw _
  · exact returns_throw _

def unnest (replicateColumns unnestColumns : List Text) (source : PlanNode) : BuildM PlanNode := do
  liftExcept (checkFields source.outputType replicateColumns)
  liftExcept (checkFields source.outputType unnestColumns)
  newNode (.unnest replicateColumns unnestColumns) [source]

theorem unnest_fresh (replicateColumns unnestColumns : List Text) (source : PlanNode) :
    Fresh (unnest replicateColumns unnestColumns source) := by
  apply fresh_bind (grows_liftExcept _)
  intro _
  exact fresh_bind (grows_liftExcept _) fun _ => newNode_fresh _ _

end CactusDB.Core.PlanBuilder
