import CactusDB.Core.SqlText
import CactusDB.Optimizer.Mul2JoinAgg
import CactusDB.Optimizer.TorchNN2TwoLayer

/-! What a rewrite below the root leaves of the plan. The vertical multiplication rule and the
two-layer rule hand the rewritten subtree to the shared plan builder as the whole plan. -/

namespace CactusDB.Optimizer.InnerRewrites
open Std Library TextScan Stateful Core.Plan Core.PlanBuilder Core.SqlText MlFunctions.Functions Resources
open RewriteAction

variable {K : Type}

inductive RootReplacing where
  | mul2JoinAgg
  | torchNN2TwoLayerUDF
  deriving DecidableEq, Repr

namespace RootReplacing

def rule (sql : SqlParser) : RootReplacing → Rule K
  | mul2JoinAgg => Mul2JoinAgg.rule sql
  | torchNN2TwoLayerUDF => TorchNN2TwoLayer.rule sql

def visit (sql : SqlParser) : RootReplacing → PlanNode → Text → RewriteM K Bool
  | mul2JoinAgg => Mul2JoinAgg.visit sql
  | torchNN2TwoLayerUDF => TorchNN2TwoLayer.visit sql

def rewritable : RootReplacing → PlanNode → Text → Bool
  | mul2JoinAgg => Mul2JoinAgg.rewritable
  | torchNN2TwoLayerUDF => TorchNN2TwoLayer.rewritable

variable (sql : SqlParser) (kind : RootReplacing)

theorem apply_eq_walk (root : PlanNode) (targets : List Text) :
    (kind.rule sql).apply root targets = (walk (kind.visit sql) targets root : RewriteM K Bool) := by
  cases kind <;> rfl

theorem visit_kept (node : PlanNode) (target : Text) :
    Ensures KeptOrRebuilt (kind.visit sql node target : RewriteM K Bool) := by
  cases kind with
  | mul2JoinAgg => exact Mul2JoinAgg.visit_kept sql node target
  | torchNN2TwoLayerUDF => exact TorchNN2TwoLayer.visit_kept sql node target

variable {kind : RootReplacing}

section

variable {node : PlanNode} {target : Text} (possible : kind.rewritable node target)
include target possible

theorem visit_rebuilt :
    Ensures Rebuilt (kind.visit sql node target : RewriteM K Bool) := by
  cases kind with
  | mul2JoinAgg => exact Mul2JoinAgg.visit_rebuilt sql possible
  | torchNN2TwoLayerUDF => exact TorchNN2TwoLayer.visit_rebuilt sql possible

theorem sources_of_rewritable : node.sources ≠ [] := by
  have hasSources : (!node.sources.isEmpty) = true := by
    cases kind <;> exact (Bool.and_eq_true_iff.mp possible).1
  simpa using hasSources

end

def RewritableAt (kind : RootReplacing) (plan : PlanNode) (targets : List Text) (path : List Nat) : Prop :=
  ∃ node, plan.subtreeAt path = some node ∧ ∃ target ∈ targets, kind.rewritable node target

/-- Wherever in the plan the rewritten node is, the root is another one afterwards. -/
theorem apply_rebuilt {plan : PlanNode} {targets : List Text}
    {path : List Nat} (position : kind.RewritableAt plan targets path) :
    Ensures Rebuilt ((kind.rule sql).apply plan targets : RewriteM K Bool) := by
  obtain ⟨node, found, target, mem, possible⟩ := position
  rw [apply_eq_walk]
  exact walk_reaches keeps_rebuilt (kind.visit_kept sql) found (sources_of_rewritable possible) mem
    (visit_rebuilt sql possible)

end RootReplacing

/-- The rest of the plan stays in place exactly when there is no rest. -/
theorem apply_keeps_rest_iff (sql : SqlParser) (kind : RootReplacing) {workspace after : Workspace K}
    {targets : List Text} {path : List Nat} {applied : Bool} (drawn : workspace.planNode.id < workspace.nextId)
    (position : kind.RewritableAt workspace.planNode targets path)
    (success : run ((kind.rule sql).apply workspace.planNode targets) workspace = (.ok applied, after)) :
    (∃ new, after.planNode = workspace.planNode.replaceAt path new) ↔ path = [] := by
  constructor
  · intro kept
    obtain ⟨new, same⟩ := kept
    by_contra inner
    have rebuilt := RootReplacing.apply_rebuilt sql position workspace applied after success
    have sameRoot : after.planNode.id = workspace.planNode.id := by
      rw [same, PlanNode.replaceAt_id inner]
    have newRoot : workspace.planNode.id < after.planNode.id := Nat.lt_of_lt_of_le drawn rebuilt.1
    exact newRoot.ne' sameRoot
  · intro root
    subst root
    exact ⟨after.planNode, rfl⟩

def limitOver (call : Text) : PlanNode :=
  .mk 2 (.limit 0 10 false)
    [.mk 1 (.project [⟨"p0".toList, .call call [.field "v".toList]⟩]) [.mk 0 (.tableScan ["v".toList]) []]]

def sampleWorkspace (call : Text) (function : VectorFunction Nat) : Workspace Nat where
  planNode := limitOver call
  nextId := 3
  cataLog :=
    { udfFileAddrMap := (∅ : TextMap _).insert "mat_mul0_weights_horizontal".toList ["w.dwrf".toList]
      udfSchemaMap := (∅ : TextMap _).insert "mat_mul0_weights_horizontal".toList
        (some ["w_row".toList, "w_col".toList, "w".toList])
      dataSourceBlocksSchemaMap := (∅ : TextMap _).insert "values".toList
        (some ["v_row".toList, "v_col".toList, "v".toList])
      dataSourceBlocksFileAddrMap := (∅ : TextMap _).insert "values".toList ["v.dwrf".toList]
      dataSourceStatMap := (∅ : TextMap _).insert "values".toList [8, 4] }
  functions := (∅ : TextMap _).insert call function
  compute := []

def sample : RootReplacing → Text × Workspace Nat
  | .mul2JoinAgg => ("mat_mul0".toList, sampleWorkspace "mat_mul0".toList (.matrixMultiply [1, 1] 2 1))
  | .torchNN2TwoLayerUDF => ("torchdnn1".toList,
      sampleWorkspace "torchdnn1".toList (.torchDNN2Level [[1], [1]] [[0], [0]] [1, 1, 1]))

def sampleRun (kind : RootReplacing) : Except Text Bool × Workspace Nat :=
  run ((kind.rule sqlParser).apply (sample kind).2.planNode [(sample kind).1]) (sample kind).2

variable (kind : RootReplacing)

theorem sampleRun_ok : (sampleRun kind).1 = .ok true := by
  cases kind <;> decide +kernel

theorem sample_rewritable : kind.RewritableAt (sample kind).2.planNode [(sample kind).1] [0] := by
  cases kind
  · exact ⟨_, rfl, "mat_mul0".toList, List.mem_singleton_self _, by decide +kernel⟩
  · exact ⟨_, rfl, "torchdnn1".toList, List.mem_singleton_self _, by decide +kernel⟩

theorem sample_drawn : (sample kind).2.planNode.id < (sample kind).2.nextId := by
  cases kind <;> decide +kernel

theorem apply_keeps_rest_iff_sample : (∃ new, (sampleRun .mul2JoinAgg).2.planNode =
      (sample .mul2JoinAgg).2.planNode.replaceAt [0] new) ↔ [0] = ([] : List Nat) := by
  have each (kind : RootReplacing) : (∃ new, (sampleRun kind).2.planNode =
      (sample kind).2.planNode.replaceAt [0] new) ↔ [0] = ([] : List Nat) :=
    apply_keeps_rest_iff sqlParser kind (sample_drawn kind) (sample_rewritable kind)
      (Prod.ext (sampleRun_ok kind) rfl)
  exact each .mul2JoinAgg

def SampleLosesRest (kind : RootReplacing) : Prop :=
  (kind.rule sqlParser).check (sample kind).2.cataLog (sample kind).2.functions (sample kind).2.planNode =
    (true, [(sample kind).1]) ∧
    kind.RewritableAt (sample kind).2.planNode [(sample kind).1] [0] ∧
    (sampleRun kind).1 = .ok true ∧
    ¬ ∃ new, (sampleRun kind).2.planNode = (sample kind).2.planNode.replaceAt [0] new

theorem sample_root_differs : (sampleRun kind).2.planNode.id ≠ (sample kind).2.planNode.id := by
  cases kind <;> decide +kernel

theorem sample_check :
    (kind.rule sqlParser).check (sample kind).2.cataLog (sample kind).2.functions (sample kind).2.planNode =
    (true, [(sample kind).1]) := by
  cases kind <;> decide +kernel

theorem limit_is_lost : SampleLosesRest .mul2JoinAgg ∧ SampleLosesRest .torchNN2TwoLayerUDF := by
  have each (kind : RootReplacing) : SampleLosesRest kind := by
    refine ⟨sample_check kind, sample_rewritable kind, sampleRun_ok kind, ?_⟩
    intro kept
    obtain ⟨new, same⟩ := kept
    apply sample_root_differs kind
    rw [same, PlanNode.replaceAt_id (by decide)]
  exact ⟨each .mul2JoinAgg, each .torchNN2TwoLayerUDF⟩

end CactusDB.Optimizer.InnerRewrites
