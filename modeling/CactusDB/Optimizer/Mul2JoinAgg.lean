import CactusDB.Optimizer.RewriteAction

/-! The vertical rewrite of a matrix multiplication into a join of input blocks with weight blocks
and an aggregation over the products. The new plan is built from table scans alone. -/

namespace CactusDB.Optimizer.Mul2JoinAgg
open Library TextScan Stateful Core.Expressions Core.Plan Core.PlanBuilder MlFunctions.Functions Resources RewriteAction

variable {K : Type}

def values : Text := "values".toList

/-- When the target is a matrix multiplication, its block version is registered and the blocks of
the data source are filed under the target. -/
def prepare (target : Text) : RewriteM K Unit := do
  let workspace ← get
  match workspace.getVectorFunction target with
  | some (.matrixMultiply _ rows columns) => do
    let blocks := workspace.cataLog.defaultBlocksNum
    let stat ← attempt (workspace.cataLog.getDataSourceStat values)
    registerVectorFunction "mat_mul_block".toList
      (.matrixMultiplyBlock (rows / blocks) columns (stat.headD 0) blocks)
    changeCataLog fun cataLog =>
      cataLog.add target (cataLog.getDataSourceBlocksSchema values)
        (cataLog.getDataSourceBlocksFileAddr values) 0 "_vertical".toList
  | _ => pure ()

structure BlockPlan where
  root : PlanNode
  p1 : PlanNodeId
  p2 : PlanNodeId

def joinBlocks (valueSchema weightSchema : List Text) : BuildM BlockPlan := do
  let valueScan ← tableScan valueSchema
  let weightScan ← tableScan weightSchema
  let join ← hashJoin ["v_col".toList] ["w_row".toList] weightScan
    ["v_row".toList, "w_col".toList, "v".toList, "w".toList] valueScan
  return ⟨join, valueScan.id, weightScan.id⟩

variable (valueSchema weightSchema : List Text)

theorem joinBlocks_grows : Grows (joinBlocks valueSchema weightSchema) := by
  apply grows_bind (tableScan_fresh _).grows
  intro valueScan
  apply grows_bind (tableScan_fresh _).grows
  intro weightScan
  exact grows_bind (hashJoin_fresh _ _ _ _ _).grows fun join => grows_pure _

def FreshPlan (steps : BuildM BlockPlan) : Prop :=
  Returns (fun next plan after => next ≤ plan.root.id ∧ plan.root.id < after) steps

theorem freshPlan_bind {α : Type} {steps : BuildM α} {next : α → BuildM BlockPlan} (first : Grows steps)
    (rest : ∀ value, FreshPlan (next value)) : FreshPlan (steps >>= next) :=
  returns_bind first rest fun _ _ _ _ _ early late => ⟨Nat.le_trans early late.1, late.2⟩

theorem freshPlan_return {steps : BuildM PlanNode} (fresh : Fresh steps) (p1 p2 : PlanNodeId) :
    FreshPlan (steps >>= fun root => pure ⟨root, p1, p2⟩) := by
  intro next plan after success
  obtain ⟨root, middle, built, finish⟩ := run_bind_ok success
  cases finish
  exact fresh next root after built

def groupingKeys : List Text := ["w_col".toList, "v_row".toList]

def sumOfProducts : List Text := ["array_sum(mp) AS R1".toList]

def projectPlan (sql : SqlParser) (valueSchema weightSchema : List Text) (exprStr : Text) :
    BuildM BlockPlan := do
  let join ← joinBlocks valueSchema weightSchema
  let products ←
    project sql ["v_row".toList, "w_col".toList, "mat_mul_block(v, w) AS mp".toList] join.root
  let sums ← partialAggregation sql groupingKeys sumOfProducts products
  let exchange ← localPartition [] sums
  let merged ← intermediateAggregation exchange
  let result ← finalAggregation merged
  let rows ← unnest [] ["r1".toList] result
  let named ← project sql ["r1_e AS r1".toList] rows
  let root ← project sql [exprStr] named
  return ⟨root, join.p1, join.p2⟩

variable (sql : SqlParser)

theorem projectPlan_fresh (exprStr : Text) : FreshPlan (projectPlan sql valueSchema weightSchema exprStr) := by
  apply freshPlan_bind (joinBlocks_grows _ _)
  intro join
  apply freshPlan_bind (project_fresh _ _ _).grows
  intro products
  apply freshPlan_bind (aggregation_fresh _ _ _ _ _).grows
  intro sums
  apply freshPlan_bind (localPartition_fresh _ _).grows
  intro exchange
  apply freshPlan_bind (intermediateAggregation_fresh _).grows
  intro merged
  apply freshPlan_bind (finalAggregation_fresh _).grows
  intro result
  apply freshPlan_bind (unnest_fresh _ _ _).grows
  intro rows
  apply freshPlan_bind (project_fresh _ _ _).grows
  intro named
  exact freshPlan_return (project_fresh _ _ _) _ _

def filterPlan (sql : SqlParser) (valueSchema weightSchema : List Text) (exprStr : Text) :
    BuildM BlockPlan := do
  let join ← joinBlocks valueSchema weightSchema
  let products ← project sql ["v_row".toList, "w_col".toList, "mat_mul_b(v, w) AS mp".toList] join.root
  let sums ← singleAggregation sql groupingKeys sumOfProducts products
  let root ← project sql [exprStr] sums
  return ⟨root, join.p1, join.p2⟩

theorem filterPlan_fresh (exprStr : Text) : FreshPlan (filterPlan sql valueSchema weightSchema exprStr) := by
  apply freshPlan_bind (joinBlocks_grows _ _)
  intro join
  apply freshPlan_bind (project_fresh _ _ _).grows
  intro products
  apply freshPlan_bind (aggregation_fresh _ _ _ _ _).grows
  intro sums
  exact freshPlan_return (project_fresh _ _ _) _ _

/-- What the two branches share: the plan of the builder is replaced by a new one, and the files of
the new scans are filed in the catalog. -/
def replacePlan (target valueKey weightKey : Text)
    (plan : List Text → List Text → BuildM BlockPlan) : RewriteM K Unit := do
  let workspace ← get
  let valueSchema ← attempt (workspace.cataLog.getUDFSchema (target ++ valueKey))
  let weightSchema ← attempt (workspace.cataLog.getUDFSchema (target ++ weightKey))
  let built ← build (plan valueSchema weightSchema)
  setRoot built.root
  changeCataLog fun cataLog =>
    match cataLog.getVectorIdMap "v".toList with
    | some p => cataLog.deleteIdAddressMap p
    | none => cataLog
  let valueFiles ← attempt (workspace.cataLog.getUDFFileAddr (target ++ "_values_vertical".toList))
  changeCataLog (·.setIdAddressMap built.p1 valueFiles)
  let weightFiles ← attempt (workspace.cataLog.getUDFFileAddr (target ++ "_weights_horizontal".toList))
  changeCataLog (·.setIdAddressMap built.p2 weightFiles)

theorem prepare_kept (target : Text) : Ensures KeptOrRebuilt (prepare target : RewriteM K Unit) := by
  apply keeps_rebuilt.bind get_kept
  intro workspace
  split
  · apply keeps_rebuilt.bind (attempt_kept _)
    intro stat
    exact keeps_rebuilt.bind (registerVectorFunction_kept _ _) fun _ => changeCataLog_kept _
  · exact keeps_rebuilt.pure ()

theorem replacePlan_rebuilt {target valueKey weightKey : Text} {plan : List Text → List Text → BuildM BlockPlan}
    (fresh : ∀ valueSchema weightSchema, FreshPlan (plan valueSchema weightSchema)) :
    Ensures Rebuilt (replacePlan target valueKey weightKey plan : RewriteM K Unit) := by
  apply keeps_rebuilt.bind_rest get_kept
  intro workspace
  apply keeps_rebuilt.bind_rest (attempt_kept _)
  intro valueSchema
  apply keeps_rebuilt.bind_rest (attempt_kept _)
  intro weightSchema
  apply build_setRoot_rebuilt BlockPlan.root (fresh valueSchema weightSchema)
  intro built
  apply keeps_rebuilt.bind (changeCataLog_kept _)
  intro _
  apply keeps_rebuilt.bind (attempt_kept _)
  intro valueFiles
  apply keeps_rebuilt.bind (changeCataLog_kept _)
  intro _
  exact keeps_rebuilt.bind (attempt_kept _) fun weightFiles => changeCataLog_kept _

def rewriteCall (sources : List PlanNode) (target valueKey weightKey : Text)
    (plan : List Text → List Text → BuildM BlockPlan) : RewriteM K Bool := do
  prepare target
  if sources.isEmpty then return false
  replacePlan target valueKey weightKey plan
  return true

section

variable {sources : List PlanNode} {target valueKey weightKey : Text}
  {plan : List Text → List Text → BuildM BlockPlan}
  (fresh : ∀ valueSchema weightSchema, FreshPlan (plan valueSchema weightSchema))
include fresh

theorem rewriteCall_rebuilt (inner : sources ≠ []) :
    Ensures Rebuilt (rewriteCall sources target valueKey weightKey plan : RewriteM K Bool) := by
  apply keeps_rebuilt.bind_rest (prepare_kept target)
  intro _
  rw [if_neg (by simpa using inner)]
  exact keeps_rebuilt.bind_first (replacePlan_rebuilt fresh) fun _ => keeps_rebuilt.pure true

theorem rewriteCall_kept :
    Ensures KeptOrRebuilt (rewriteCall sources target valueKey weightKey plan : RewriteM K Bool) := by
  by_cases leaf : sources = []
  · subst leaf
    exact keeps_rebuilt.bind (prepare_kept target) fun _ => keeps_rebuilt.pure false
  · exact keeps_rebuilt.ensures (rewriteCall_rebuilt fresh leaf)

end

/-- Only the expression of a project node with a single projection is rewritten. -/
def visitExpression (sql : SqlParser) (sources : List PlanNode) (single : Bool) (target : Text)
    (expression : TypedExpr) : RewriteM K Bool :=
  let exprStr := expression.toString
  match expression with
  | .call _ _ =>
    if target <:+: exprStr ∧ single then
      rewriteCall sources target "_values_vertical".toList "_weights_horizontal".toList
        fun valueSchema weightSchema => projectPlan sql valueSchema weightSchema
          (replaceAll (callPattern target) "r1".toList exprStr)
    else pure false
  | _ => pure false

def visitProjections (sql : SqlParser) (sources : List PlanNode) (single : Bool) (target : Text) :
    List Named → RewriteM K Bool
  | [] => pure false
  | named :: rest => do
    let here ← visitExpression sql sources single target named.expr
    let others ← visitProjections sql sources single target rest
    return here || others

def visit (sql : SqlParser) (node : PlanNode) (target : Text) : RewriteM K Bool :=
  match node.op with
  | .project projections =>
    visitProjections sql node.sources (projections.length = 1) target projections
  | .filter condition =>
    match condition with
    | .call _ _ =>
      if target <:+: condition.toString then
        rewriteCall node.sources target "_values".toList "_weights".toList
          fun valueSchema weightSchema => filterPlan sql valueSchema weightSchema
            (replaceAll (callPattern target) "R1".toList condition.toString)
      else pure false
    | _ => pure false
  | _ => pure false

variable (sources : List PlanNode)

theorem visitExpression_kept (single : Bool) (target : Text) (expression : TypedExpr) :
    Ensures KeptOrRebuilt (visitExpression sql sources single target expression : RewriteM K Bool) := by
  cases expression with
  | call name inputs =>
    unfold visitExpression
    by_cases mentioned : target <:+: (TypedExpr.call name inputs).toString ∧ single
    · simp only [if_pos mentioned]
      exact rewriteCall_kept fun _ _ => projectPlan_fresh _ _ _ _
    · simp only [if_neg mentioned]
      exact keeps_rebuilt.pure false
  | _ => exact keeps_rebuilt.pure false

theorem visitExpression_rebuilt {sources : List PlanNode} (inner : sources ≠ [])
    {target name : Text} {inputs : List TypedExpr} (mentioned : target <:+: (TypedExpr.call name inputs).toString) :
    Ensures Rebuilt (visitExpression sql sources true target (.call name inputs) : RewriteM K Bool) := by
  unfold visitExpression
  simp only [mentioned, and_self, if_true]
  exact rewriteCall_rebuilt (fun _ _ => projectPlan_fresh _ _ _ _) inner

theorem visitProjections_kept (single : Bool) (target : Text) (projections : List Named) :
    Ensures KeptOrRebuilt (visitProjections sql sources single target projections : RewriteM K Bool) := by
  induction projections with
  | nil => exact keeps_rebuilt.pure false
  | cons named rest ih =>
    apply keeps_rebuilt.bind (visitExpression_kept _ _ _ _ _)
    exact fun here => keeps_rebuilt.bind ih fun others => keeps_rebuilt.pure _

theorem visit_kept (node : PlanNode) (target : Text) :
    Ensures KeptOrRebuilt (visit sql node target : RewriteM K Bool) := by
  unfold visit
  split
  · exact visitProjections_kept _ _ _ _ _
  · split
    · split
      · exact rewriteCall_kept fun _ _ => filterPlan_fresh _ _ _ _
      · exact keeps_rebuilt.pure false
    · exact keeps_rebuilt.pure false
  · exact keeps_rebuilt.pure false

def mentions (target : Text) : TypedExpr → Bool
  | .call name inputs => decide (target <:+: (TypedExpr.call name inputs).toString)
  | _ => false

def rewritable (node : PlanNode) (target : Text) : Bool :=
  !node.sources.isEmpty &&
    match node.op with
    | .project [named] => mentions target named.expr
    | .filter condition => mentions target condition
    | _ => false

theorem mentions_call {target : Text} {expression : TypedExpr} (mentioned : mentions target expression) :
    ∃ name inputs, expression = .call name inputs ∧ target <:+: (TypedExpr.call name inputs).toString := by
  cases expression with
  | call name inputs => exact ⟨name, inputs, rfl, of_decide_eq_true mentioned⟩
  | _ => exact absurd mentioned Bool.false_ne_true

theorem visit_rebuilt {node : PlanNode} {target : Text}
    (possible : rewritable node target) : Ensures Rebuilt (visit sql node target : RewriteM K Bool) := by
  cases node with
  | mk id op sources =>
    obtain ⟨hasSources, mentioned⟩ := Bool.and_eq_true_iff.mp possible
    have inner : sources ≠ [] := by simpa using hasSources
    simp only [PlanNode.op_mk] at mentioned
    split at mentioned
    · next named =>
        obtain ⟨name, inputs, shape, found⟩ := mentions_call mentioned
        have here : Ensures Rebuilt (visitExpression sql sources true target named.expr : RewriteM K Bool) := by
          rw [shape]
          exact visitExpression_rebuilt sql inner found
        exact keeps_rebuilt.bind_first here fun _ =>
          keeps_rebuilt.bind (keeps_rebuilt.pure false) fun _ => keeps_rebuilt.pure _
    · next condition =>
        obtain ⟨name, inputs, shape, found⟩ := mentions_call mentioned
        subst shape
        unfold visit
        simp only [PlanNode.op_mk, PlanNode.sources_mk, if_pos found]
        exact rewriteCall_rebuilt (fun _ _ => filterPlan_fresh _ _ _ _) inner
    · exact absurd mentioned Bool.false_ne_true

def apply (sql : SqlParser) (root : PlanNode) (targets : List Text) : RewriteM K Bool :=
  walk (visit sql) targets root

def matMulPattern : Pattern := andThen (literal "mat_mul".toList) (many1 Char.isDigit)

/-- Targets are the multiplications whose weights have been cut into blocks. -/
def check (cataLog : CataLog) (_ : TextMap (VectorFunction K)) (root : PlanNode) : Bool × List Text :=
  (true, (matchesIn matMulPattern root).filter fun name =>
    cataLog.checkExistsUDFFileAddr (name ++ "_weights_horizontal".toList))

def rule (sql : SqlParser) : Rule K := ⟨"Mul2JoinAggRewriteAction".toList, check, apply sql⟩

end CactusDB.Optimizer.Mul2JoinAgg
