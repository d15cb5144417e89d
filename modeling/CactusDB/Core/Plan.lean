import CactusDB.Core.Expressions

/-! Query plans as trees of operators. Every node carries the identifier that its builder drew from
the shared generator. Column types are left out; a row type is its list of column names. -/

namespace CactusDB.Core.Plan
open Library.TextScan Expressions

abbrev PlanNodeId := Nat

inductive JoinType where
  | kInner
  | kLeft
  | kRight
  | kFull
  | kLeftSemiFilter
  | kLeftSemiProject
  | kRightSemiFilter
  | kRightSemiProject
  | kAnti
  deriving DecidableEq, Repr

inductive Step where
  | kPartial
  | kIntermediate
  | kFinal
  | kSingle
  deriving DecidableEq, Repr

structure Named where
  name : Text
  expr : TypedExpr

/-- What a node does with the rows of its sources. `other` stands for the operators that no rewrite
rule looks into, with the columns they add. -/
inductive Operator where
  | tableScan (schema : List Text)
  | values (schema : List Text)
  | filter (condition : TypedExpr)
  | project (projections : List Named)
  | hashJoin (joinType : JoinType) (leftKeys rightKeys : List Text) (filter : Option TypedExpr)
      (outputType : List Text)
  | mergeJoin (joinType : JoinType) (leftKeys rightKeys : List Text) (filter : Option TypedExpr)
      (outputType : List Text)
  | nestedLoopJoin (joinType : JoinType) (condition : Option TypedExpr) (outputType : List Text)
  | aggregation (step : Step) (groupingKeys : List Text) (aggregates : List Named)
  | localPartition (keys : List Text)
  | limit (offset count : Nat) (isPartial : Bool)
  | unnest (replicated unnested : List Text)
  | other (name : Text) (columns : List Text)

def Operator.name : Operator → Text
  | .tableScan _ => "TableScan".toList
  | .values _ => "Values".toList
  | .filter _ => "Filter".toList
  | .project _ => "Project".toList
  | .hashJoin .. => "HashJoin".toList
  | .mergeJoin .. => "MergeJoin".toList
  | .nestedLoopJoin .. => "NestedLoopJoin".toList
  | .aggregation .. => "Aggregation".toList
  | .localPartition _ => "LocalPartition".toList
  | .limit .. => "Limit".toList
  | .unnest .. => "Unnest".toList
  | .other name _ => name

inductive PlanNode where
  | mk (id : PlanNodeId) (op : Operator) (sources : List PlanNode)

namespace PlanNode

def id : PlanNode → PlanNodeId
  | .mk id _ _ => id

def op : PlanNode → Operator
  | .mk _ op _ => op

def sources : PlanNode → List PlanNode
  | .mk _ _ sources => sources

def name (node : PlanNode) : Text := node.op.name

section

variable (id : PlanNodeId) (op : Operator) (sources : List PlanNode)

@[simp] theorem id_mk :
    (mk id op sources).id = id := rfl

@[simp] theorem op_mk :
    (mk id op sources).op = op := rfl

@[simp] theorem sources_mk :
    (mk id op sources).sources = sources := rfl

end

/-- Induction over a plan: a property of every source passes to the node. -/
@[elab_as_elim, induction_eliminator]
theorem induction {motive : PlanNode → Prop}
    (mk : ∀ id op sources, (∀ source ∈ sources, motive source) → motive (.mk id op sources))
    (node : PlanNode) : motive node := by
  refine @PlanNode.rec motive (fun sources => ∀ source ∈ sources, motive source) ?_ ?_ ?_ node
  · exact mk
  · exact fun source mem => absurd mem List.not_mem_nil
  · intro head rest first others source mem
    rcases List.mem_cons.mp mem with same | mem
    · exact same ▸ first
    · exact others source mem

mutual
def outputType : PlanNode → List Text
  | .mk _ op sources =>
    match op with
    | .tableScan schema | .values schema => schema
    | .project projections => projections.map Named.name
    | .hashJoin _ _ _ _ columns | .mergeJoin _ _ _ _ columns | .nestedLoopJoin _ _ columns => columns
    | .aggregation _ groupingKeys aggregates => groupingKeys ++ aggregates.map Named.name
    | .unnest replicated unnested => replicated ++ unnested.map (· ++ "_e".toList)
    | .filter _ | .localPartition _ | .limit .. => firstOutputType sources
    | .other _ columns => firstOutputType sources ++ columns
def firstOutputType : List PlanNode → List Text
  | [] => []
  | source :: _ => source.outputType
end

mutual
def ids : PlanNode → List PlanNodeId
  | .mk id _ sources => id :: idsOfAll sources
def idsOfAll : List PlanNode → List PlanNodeId
  | [] => []
  | source :: rest => source.ids ++ idsOfAll rest
end

@[simp] theorem mem_idsOfAll {id : PlanNodeId} {sources : List PlanNode} :
    id ∈ idsOfAll sources ↔ ∃ source ∈ sources, id ∈ source.ids := by
  induction sources with
  | nil => simp [idsOfAll]
  | cons source rest ih => simp [idsOfAll, ih]

def subtreeAt : PlanNode → List Nat → Option PlanNode
  | node, [] => some node
  | .mk _ _ sources, i :: path => sources[i]?.bind (subtreeAt · path)

def replaceAt : PlanNode → List Nat → PlanNode → PlanNode
  | _, [], new => new
  | .mk id op sources, i :: path, new => .mk id op (sources.modify i (replaceAt · path new))

theorem replaceAt_id {node new : PlanNode} {path : List Nat} (inner : path ≠ []) :
    (node.replaceAt path new).id = node.id := by
  cases node with
  | mk id op sources =>
    cases path with
    | nil => exact absurd rfl inner
    | cons i path => rfl

end PlanNode

end CactusDB.Core.Plan
