import CactusDB.Library.Fallible
import CactusDB.Optimizer.CataLogMaps

/-! The cost of a plan. Every node is charged for the rows and columns that its sources are estimated to
give, and a projection for the functions that are found in its printed text. Costs are exact numbers. -/

namespace CactusDB.Cost.SimpleCostModel
open Std Library TextScan Core.Expressions Core.Plan Optimizer Resources CataLogMaps

inductive Failure where
  | runtimeError (message : Text)
  /-- `LOG(FATAL)` ends the process. -/
  | fatal (message : Text)
  /-- A null pointer is followed, or a vector is read behind its end. -/
  | undefined
  deriving DecidableEq

structure CostEstimate (K : Type) where
  cost : K
  outputRows : Int
  outputCols : Int
  deriving DecidableEq

/-- A vector function in the registry: the cost of an ML function, and which of the two kinds of
arguments that the model asks for it is declared for. -/
structure Registration (K : Type) where
  getCost : Option (Int → Int → CostEstimate K)
  takesArray : Bool
  takesTwoArrays : Bool

abbrev Registry (K : Type) := TextMap (Registration K)

structure CostModel (K : Type) where
  catalog : SourcedCataLog
  functions : Registry K
  coefficientMap : TextMap (List K)
  truncate : K → Int

inductive PlanNodeType where
  | filter
  | project
  | aggregation
  | hashJoin
  | orderBy
  | tableScan
  | none
  | localPartition
  | unnest
  | rowNumber
  | nestedLoopJoin
  deriving DecidableEq, Repr

def hashPlanNode (name : Text) : PlanNodeType :=
  if name = "Filter".toList then .filter
  else if name = "Project".toList then .project
  else if name = "TableScan".toList then .tableScan
  else if name = "HashJoin".toList then .hashJoin
  else if name = "OrderBy".toList then .orderBy
  else if name = "Aggregation".toList then .aggregation
  else if name = "LocalPartition".toList then .localPartition
  else if name = "Unnest".toList then .unnest
  else if name = "RowNumber".toList then .rowNumber
  else if name = "NestedLoopJoin".toList then .nestedLoopJoin
  else .none

/-- The tokens that end at the delimiter, and what is left behind the last one. `token` is what has been
read of the next token. -/
def split (delimiter : Char) : Text → Text → List Text × Text
  | token, [] => ([], token)
  | token, c :: rest =>
    if c = delimiter then
      let later := split delimiter [] rest
      (token :: later.1, later.2)
    else split delimiter (token ++ [c]) rest

/-- The loop of `std::getline`, which finds no token at the end of the stream. -/
def getlines (delimiter : Char) (text : Text) : List Text :=
  let parts := split delimiter [] text
  if parts.2 = [] then parts.1 else parts.1 ++ [parts.2]

/-- The last token is taken to be the input of the innermost call. -/
def getUDFs (expression : Text) : List Text := (getlines '(' expression).dropLast

variable {K : Type} [Field K]

def matMulH : Text := "mat_mul_h".toList

/-- Functions that are left out, although they are registered. -/
def skipped : List Text :=
  ["velox_tree_predict".toList, "velox_decision_tree_construct".toList, "velox_decision_tree_predict".toList,
    "decision_forest_predict".toList, "gt".toList, "if".toList]

def Registration.resolve (registration : Registration K) (twoArrays : Bool) :
    Option (Int → Int → CostEstimate K) :=
  if if twoArrays then registration.takesTwoArrays else registration.takesArray then registration.getCost
  else none

/-- The cost function that one token is charged with, if any. A function that is not declared for the
arguments asked for, or has no cost, is a null pointer. -/
def charge (functions : Registry K) (udf : Text) : Except Failure (Option (Int → Int → CostEstimate K)) :=
  match functions[udf]? with
  | none => .ok none
  | some registration =>
    if udf ≠ matMulH ∧ skipped.contains udf then .ok none
    else
      match registration.resolve (udf = matMulH) with
      | some getCost => .ok (some getCost)
      | none => .error .undefined

def CostEstimate.add (estimate : CostEstimate K) (getCost : Int → Int → CostEstimate K) : CostEstimate K :=
  let curCost := getCost estimate.outputRows estimate.outputCols
  ⟨estimate.cost + curCost.cost, curCost.outputRows, curCost.outputCols⟩

def statOf (sources : List Source) (i : Nat) : Except Failure OutputStat :=
  match sources[i]?.bind Source.stats with
  | some stat => .ok stat
  | none => .error .undefined

def getUDFCost (functions : Registry K) (udfs : List Text) (sources : List Source) :
    Except Failure (CostEstimate K) := do
  let stat ← statOf sources 0
  udfs.foldlM (fun estimate udf => do
    match ← charge functions udf with
    | some getCost => return estimate.add getCost
    | none => return estimate) ⟨0, stat.numRows, stat.numCols⟩

def handleProjection (functions : Registry K) (expression : TypedExpr) (sources : List Source) :
    Except Failure (CostEstimate K) :=
  getUDFCost functions (getUDFs expression.toString).reverse sources

namespace CostModel

variable (model : CostModel K)

/-- Nodes without coefficients get the single coefficient 1. -/
def getCoefficient (name : Text) : List K := (model.coefficientMap[name]?).getD [1]

def coefficient (name : Text) (i : Nat) : Except Failure K :=
  match (model.getCoefficient name)[i]? with
  | some value => .ok value
  | none => .error .undefined

def handleLeafNode (node : PlanNode) : Except Failure (CostEstimate K) :=
  match model.catalog.getSource (decimal node.id) with
  | .error message => .error (.fatal message)
  | .ok src =>
    match src.stats with
    | some stat => .ok ⟨0, stat.numRows, stat.numCols⟩
    | none => .error .undefined

/-- The projections of a node; another node under the name of a projection is a null pointer. -/
def projectionsOf : Operator → Except Failure (List Named)
  | .project projections => .ok projections
  | _ => .error .undefined

def joinEstimates (total partialEstimate : CostEstimate K) : CostEstimate K :=
  ⟨total.cost + partialEstimate.cost, max total.outputRows partialEstimate.outputRows,
    max total.outputCols partialEstimate.outputCols⟩

def handleProjections (projections : List Named) (sources : List Source) : Except Failure (CostEstimate K) :=
  projections.foldlM (fun total projection => do
    return joinEstimates total (← handleProjection model.functions projection.expr sources)) ⟨0, 0, 0⟩

def joinCost (name : Text) (left right : OutputStat) : Except Failure K := do
  let alpha ← model.coefficient name 0
  let beta ← model.coefficient name 1
  let gamma ← model.coefficient name 2
  return alpha * left.numRows + beta * left.numRows * left.numCols + gamma * right.numRows * right.numCols

def handleInternalNode (node : PlanNode) (sources : List Source) : Except Failure (CostEstimate K) := do
  match hashPlanNode node.name with
  | .aggregation | .orderBy =>
    let stats ← statOf sources 0
    let first ← model.coefficient node.name 0
    return ⟨first * stats.numRows, model.truncate (1 / (5 : Nat) * stats.numRows), stats.numCols⟩
  | .filter =>
    let stats ← statOf sources 0
    return ⟨1 / (2 : Nat) * stats.numRows, model.truncate (1 / (2 : Nat) * stats.numRows), stats.numCols⟩
  | .hashJoin =>
    let stats1 ← statOf sources 0
    let stats2 ← statOf sources 1
    let cost ← model.joinCost node.name stats1 stats2
    return ⟨cost, stats1.numRows, stats1.numCols + stats2.numCols⟩
  | .project =>
    let projections ← projectionsOf node.op
    model.handleProjections projections sources
  | .localPartition | .rowNumber =>
    let stats1 ← statOf sources 0
    let first ← model.coefficient node.name 0
    return ⟨first * stats1.numRows, stats1.numRows, stats1.numCols⟩
  | .unnest =>
    let stats1 ← statOf sources 0
    return ⟨stats1.numRows, stats1.numRows, stats1.numCols⟩
  | .nestedLoopJoin =>
    let stats1 ← statOf sources 0
    let stats2 ← statOf sources 1
    let cost ← model.joinCost node.name stats1 stats2
    return ⟨cost, max stats1.numRows stats2.numRows, stats2.numCols⟩
  | .tableScan | .none => .error (.runtimeError ("Node type not supported: ".toList ++ node.name))

def getCost (node : PlanNode) (sources : List Source) : Except Failure (CostEstimate K) :=
  if sources.isEmpty then model.handleLeafNode node else model.handleInternalNode node sources

def sourceOf (op : Operator) (estimate : CostEstimate K) : Source :=
  { name := op.name, type := .node, stats := some { numRows := estimate.outputRows, numCols := estimate.outputCols } }

mutual
def estimateCost : PlanNode → Except Failure (CostEstimate K)
  | .mk id op sources => do
    let estimates ← estimateAll sources
    let srcCost := estimates.foldl (fun total estimate => total + estimate.cost) 0
    let estimate ← model.getCost (.mk id op sources) (estimates.map (sourceOf op))
    return { estimate with cost := estimate.cost + srcCost }
def estimateAll : List PlanNode → Except Failure (List (CostEstimate K))
  | [] => return []
  | source :: rest => do
    let estimate ← estimateCost source
    let estimates ← estimateAll rest
    return estimate :: estimates
end

mutual
def subplans : PlanNode → List PlanNode
  | .mk id op sources => subplansOfAll sources ++ [.mk id op sources]
def subplansOfAll : List PlanNode → List PlanNode
  | [] => []
  | source :: rest => subplans source ++ subplansOfAll rest
end

def nodeCharge (node : PlanNode) : Except Failure K := do
  let estimates ← model.estimateAll node.sources
  let estimate ← model.getCost node (estimates.map (sourceOf node.op))
  return estimate.cost

theorem foldl_cost (estimates : List (CostEstimate K)) (total : K) :
    estimates.foldl (fun total estimate => total + estimate.cost) total =
      total + (estimates.map CostEstimate.cost).sum := by
  induction estimates generalizing total with
  | nil => simp
  | cons estimate rest ih => simp [ih, add_assoc]

/-- A plan and its nodes one by one: the sums agree, and so do the failures. -/
def Sums (node : PlanNode) : Prop :=
  (model.estimateCost node).map CostEstimate.cost = ((subplans node).mapM model.nodeCharge).map List.sum

theorem agree_cases {α β γ : Type} {first : Except Failure α} {second : Except Failure β} {f : α → γ} {g : β → γ}
    (agree : first.map f = second.map g) :
    (∃ error, first = .error error ∧ second = .error error) ∨
      ∃ a b, first = .ok a ∧ second = .ok b ∧ f a = g b := by
  cases first <;> cases second <;> simp_all [Except.map]

theorem sums_all {sources : List PlanNode} (each : ∀ source ∈ sources, Sums model source) :
    (model.estimateAll sources).map (fun estimates => (estimates.map CostEstimate.cost).sum) =
      ((subplansOfAll sources).mapM model.nodeCharge).map List.sum := by
  induction sources with
  | nil => rfl
  | cons source rest ih =>
    have here := agree_cases (each source List.mem_cons_self)
    have later := agree_cases (ih fun other mem => each other (List.mem_cons_of_mem source mem))
    rw [estimateAll, subplansOfAll, List.mapM_append]
    rcases here with ⟨error, estimate, charges⟩ | ⟨estimate, charges, estimated, charged, cost⟩
    · rw [estimate, charges]
      rfl
    · rcases later with ⟨error, estimates, others⟩ | ⟨estimates, others, estimatedAll, chargedAll, costs⟩
      · rw [estimated, charged, estimates, others]
        rfl
      · rw [estimated, charged, estimatedAll, chargedAll]
        simp [Except.map, bind, Except.bind, pure, Except.pure, cost, costs]

/-- The estimate of a plan is the sum of what its nodes are charged, each of them once. -/
theorem estimateCost_sums (plan : PlanNode) : Sums model plan := by
  induction plan with
  | mk id op sources ih =>
    have below := agree_cases (sums_all model ih)
    unfold Sums
    rw [estimateCost, subplans, List.mapM_append, List.mapM_cons, List.mapM_nil, nodeCharge, PlanNode.sources_mk,
      PlanNode.op_mk]
    rcases below with ⟨error, estimates, charges⟩ | ⟨estimates, charges, estimated, charged, costs⟩
    · rw [estimates, charges]
      rfl
    · rw [estimated, charged]
      cases own : model.getCost (.mk id op sources) (estimates.map (sourceOf op)) with
      | error error => simp [bind, Except.bind, own, Except.map]
      | ok estimate =>
        simp [bind, Except.bind, own, Except.map, pure, Except.pure, foldl_cost, ← costs, add_comm]

end CostModel

end CactusDB.Cost.SimpleCostModel
