import CactusDB.Optimizer.RewriteAction

/-! The rewrite of a two-level network into a chain of single kernels. The new nodes go on top of
the source of the rewritten node. -/

namespace CactusDB.Optimizer.TorchNN2TwoLayer
open Library TextScan Stateful Core.Expressions Core.Plan Core.PlanBuilder MlFunctions.Functions Resources RewriteAction

variable {K : Type}

def placeholder : Text := "\x7b\x7d".toList

def format (text argument : Text) : Text := replaceAll (literal placeholder) argument text

/-- The builder of networks: the number of functions named so far, and the calls as a format text. -/
structure NNBuilder where
  functionCount : Nat
  computeString : Text

def nnBuilder : NNBuilder := ⟨0, placeholder⟩

inductive Activation where
  | relu
  | softmax
  | none
  deriving DecidableEq, Repr

def call (name argument : Text) : Text := name ++ '(' :: argument ++ [')']

/-- A dense layer is a product, the addition of a bias and an activation; whatever is not RELU
becomes a softmax. -/
def denseLayer (builder : NNBuilder) (units inputSize : Nat) (weights bias : List K)
    (activation : Activation) : RewriteM K NNBuilder := do
  let matMulName := "mat_mul".toList ++ decimal builder.functionCount
  let matAddName := "mat_add".toList ++ decimal (builder.functionCount + 1)
  registerVectorFunction matMulName (.matrixMultiply weights inputSize units)
  registerVectorFunction matAddName (.matrixVectorAddition bias units)
  let (actName, function) : Text × VectorFunction K :=
    if activation = .relu then ("relu".toList ++ decimal (builder.functionCount + 2), .relu)
    else ("softmax".toList ++ decimal (builder.functionCount + 2), .softmax)
  registerVectorFunction actName function
  return ⟨builder.functionCount + 3, call actName (call matAddName (call matMulName builder.computeString))⟩

def prepare (target : Text) : RewriteM K Unit := do
  let workspace ← get
  match workspace.getVectorFunction target with
  | some (.torchDNN2Level weights bias dims) => do
    let first ← denseLayer nnBuilder (dims.getD 1 0) (dims.getD 0 0) (weights.getD 0 [])
      (bias.getD 0 []) .relu
    let second ← denseLayer first (dims.getD 2 0) (dims.getD 1 0) (weights.getD 1 [])
      (bias.getD 1 []) .softmax
    modify fun workspace => { workspace with compute := second.computeString }
  | _ => pure ()

section

variable {holds : ∀ {α : Type}, RewriteM K α → Prop} (composes : Composes holds)
  (register : ∀ name function, holds (registerVectorFunction name function))
include composes register

theorem denseLayer_composes (builder : NNBuilder) (units inputSize : Nat) (weights bias : List K)
    (activation : Activation) : holds (denseLayer builder units inputSize weights bias activation) := by
  apply composes.bind (register _ _)
  intro _
  apply composes.bind (register _ _)
  intro _
  exact composes.bind (register _ _) fun _ => composes.pure _

theorem prepare_composes (workspace : holds get) (write : ∀ text,
      holds (modify fun workspace => { workspace with compute := text })) (target : Text) : holds (prepare target) := by
  apply composes.bind workspace
  intro workspace
  split
  · apply composes.bind (denseLayer_composes composes register _ _ _ _ _ _)
    intro first
    apply composes.bind (denseLayer_composes composes register _ _ _ _ _ _)
    exact fun second => write second.computeString
  · exact composes.pure ()

end

theorem prepare_kept (target : Text) : Ensures KeptOrRebuilt (prepare target : RewriteM K Unit) :=
  prepare_composes keeps_rebuilt.composes registerVectorFunction_kept get_kept
    (fun _ => modify_kept (fun _ => rfl) fun _ => rfl) target

/-- The layers are always applied to the column `v`. -/
def replacePlan (sql : SqlParser) (source : PlanNode) (last : PlanNode → BuildM PlanNode) :
    RewriteM K Unit := do
  setRoot source
  let workspace ← get
  extendPlan (project sql [format workspace.compute "v".toList ++ " AS R1".toList])
  extendPlan last

/-- The root that is set first need not be new, but the projections on top of it are. -/
theorem replacePlan_rebuilt (sql : SqlParser) (source : PlanNode) {last : PlanNode → BuildM PlanNode}
    (fresh : ∀ source, Fresh (last source)) :
    Ensures Rebuilt (replacePlan sql source last : RewriteM K Unit) := by
  apply rebuilt_after (setRoot_grew source)
  intro _
  apply keeps_rebuilt.bind_rest get_kept
  intro workspace
  apply keeps_rebuilt.bind_first (extendPlan_rebuilt (project_fresh _ _))
  exact fun _ => keeps_rebuilt.ensures (extendPlan_rebuilt fresh)

def rewriteCall (sql : SqlParser) (sources : List PlanNode) (target : Text)
    (last : PlanNode → BuildM PlanNode) : RewriteM K Bool := do
  prepare target
  match sources with
  | [] => return false
  | source :: _ =>
    replacePlan sql source last
    return true

section

variable {sources : List PlanNode} {target : Text} {last : PlanNode → BuildM PlanNode}
  (fresh : ∀ source, Fresh (last source))
include fresh

theorem rewriteCall_rebuilt (sql : SqlParser) (inner : sources ≠ []) :
    Ensures Rebuilt (rewriteCall sql sources target last : RewriteM K Bool) := by
  apply keeps_rebuilt.bind_rest (prepare_kept target)
  intro _
  cases sources with
  | nil => exact absurd rfl inner
  | cons source rest =>
    exact keeps_rebuilt.bind_first (replacePlan_rebuilt sql source fresh) fun _ => keeps_rebuilt.pure true

theorem rewriteCall_kept (sql : SqlParser) :
    Ensures KeptOrRebuilt (rewriteCall sql sources target last : RewriteM K Bool) := by
  by_cases leaf : sources = []
  · subst leaf
    exact keeps_rebuilt.bind (prepare_kept target) fun _ => keeps_rebuilt.pure false
  · exact keeps_rebuilt.ensures (rewriteCall_rebuilt fresh sql leaf)

end

/-- The calls of the target along the first inputs. Each rewrite changes the text for the next one. -/
def visitChain (sql : SqlParser) (sources : List PlanNode) (single : Bool) (target : Text) :
    Text → List TypedExpr → RewriteM K Bool
  | _, [] => pure false
  | exprStr, .call name _ :: rest =>
    if name = target ∧ single then do
      let newStr := replaceAll (callPattern target) "R1".toList exprStr
      let here ← rewriteCall sql sources target (project sql [newStr])
      let others ← visitChain sql sources single target (if here then newStr else exprStr) rest
      return here || others
    else visitChain sql sources single target exprStr rest
  | exprStr, _ :: rest => visitChain sql sources single target exprStr rest

def visitProjections (sql : SqlParser) (sources : List PlanNode) (single : Bool) (target : Text) :
    List Named → RewriteM K Bool
  | [] => pure false
  | named :: rest => do
    let here ← visitChain sql sources single target named.expr.toString named.expr.firstInputs
    let others ← visitProjections sql sources single target rest
    return here || others

def visit (sql : SqlParser) (node : PlanNode) (target : Text) : RewriteM K Bool :=
  match node.op with
  | .project projections =>
    visitProjections sql node.sources (projections.length = 1) target projections
  | .filter condition =>
    match condition with
    | .call name _ =>
      if name = target then
        rewriteCall sql node.sources target
          (filter sql (replaceAll (callPattern target) "R1".toList condition.toString))
      else pure false
    | _ => pure false
  | _ => pure false

section

variable {holds : ∀ {α : Type}, RewriteM K α → Prop} (composes : Composes holds) {sql : SqlParser}
  (rewrite : ∀ sources target last, (∀ source, Fresh (last source)) → holds (rewriteCall sql sources target last))
include composes rewrite

variable (sources : List PlanNode)

theorem visitChain_composes (single : Bool) (target : Text) (chain : List TypedExpr) :
    ∀ exprStr, holds (visitChain sql sources single target exprStr chain) := by
  induction chain with
  | nil => exact fun exprStr => composes.pure false
  | cons expression rest ih =>
    intro exprStr
    cases expression with
    | call name inputs =>
      unfold visitChain
      split
      · apply composes.bind (rewrite _ _ _ (project_fresh _ _))
        exact fun here => composes.bind (ih _) fun others => composes.pure _
      · exact ih exprStr
    | _ => exact ih exprStr

theorem visitProjections_composes (single : Bool) (target : Text)
    (projections : List Named) : holds (visitProjections sql sources single target projections) := by
  induction projections with
  | nil => exact composes.pure false
  | cons named rest ih =>
    apply composes.bind (visitChain_composes composes rewrite _ _ _ _ _)
    exact fun here => composes.bind ih fun others => composes.pure _

theorem visit_composes (node : PlanNode) (target : Text) : holds (visit sql node target) := by
  unfold visit
  split
  · exact visitProjections_composes composes rewrite _ _ _ _
  · split
    · split
      · exact rewrite _ _ _ (filter_fresh _ _)
      · exact composes.pure false
    · exact composes.pure false
  · exact composes.pure false

end

theorem visit_kept (sql : SqlParser) (node : PlanNode) (target : Text) :
    Ensures KeptOrRebuilt (visit sql node target : RewriteM K Bool) :=
  visit_composes keeps_rebuilt.composes (fun _ _ _ fresh => rewriteCall_kept fresh sql) node target

def isCallOf (target : Text) : TypedExpr → Bool
  | .call name _ => name = target
  | _ => false

/-- A node with a source that has a single projection with a call of the target along its first
inputs, or a filter that is such a call. -/
def rewritable (node : PlanNode) (target : Text) : Bool :=
  !node.sources.isEmpty &&
    match node.op with
    | .project [named] => named.expr.firstInputs.any (isCallOf target)
    | .filter condition => isCallOf target condition
    | _ => false

variable {target : Text}

theorem isCallOf_call {expression : TypedExpr} (found : isCallOf target expression) :
    ∃ inputs, expression = .call target inputs := by
  cases expression with
  | call name inputs => exact ⟨inputs, by rw [of_decide_eq_true found]⟩
  | _ => exact absurd found Bool.false_ne_true

theorem visitChain_rebuilt (sql : SqlParser) {sources : List PlanNode} (inner : sources ≠ [])
    {chain : List TypedExpr} (found : chain.any (isCallOf target)) : ∀ exprStr,
    Ensures Rebuilt (visitChain sql sources true target exprStr chain : RewriteM K Bool) := by
  induction chain with
  | nil => exact absurd found Bool.false_ne_true
  | cons expression rest ih =>
    intro exprStr
    by_cases here : isCallOf target expression
    · obtain ⟨inputs, shape⟩ := isCallOf_call here
      subst shape
      unfold visitChain
      rw [if_pos ⟨rfl, rfl⟩]
      apply keeps_rebuilt.bind_first (rewriteCall_rebuilt (project_fresh _ _) sql inner)
      refine fun here => keeps_rebuilt.bind ?_ fun others => keeps_rebuilt.pure _
      exact visitChain_composes keeps_rebuilt.composes (fun _ _ _ fresh => rewriteCall_kept fresh sql) _ _ _ _ _
    · have later : rest.any (isCallOf target) := by
        simpa [List.any_cons, here] using found
      cases expression with
      | call name inputs =>
        unfold visitChain
        have different : ¬ (name = target ∧ true = true) := fun both => here (decide_eq_true both.1)
        rw [if_neg different]
        exact ih later exprStr
      | _ => exact ih later exprStr

theorem visit_rebuilt (sql : SqlParser) {node : PlanNode}
    (possible : rewritable node target) : Ensures Rebuilt (visit sql node target : RewriteM K Bool) := by
  cases node with
  | mk id op sources =>
    obtain ⟨hasSources, found⟩ := Bool.and_eq_true_iff.mp possible
    have inner : sources ≠ [] := by simpa using hasSources
    simp only [PlanNode.op_mk] at found
    split at found
    · exact keeps_rebuilt.bind_first (visitChain_rebuilt sql inner found _) fun _ =>
        keeps_rebuilt.bind (keeps_rebuilt.pure false) fun _ => keeps_rebuilt.pure _
    · next condition =>
        obtain ⟨inputs, shape⟩ := isCallOf_call found
        subst shape
        unfold visit
        simp only [PlanNode.op_mk, PlanNode.sources_mk, if_true]
        exact rewriteCall_rebuilt (filter_fresh _ _) sql inner
    · exact absurd found Bool.false_ne_true

def apply (sql : SqlParser) (root : PlanNode) (targets : List Text) : RewriteM K Bool :=
  walk (visit sql) targets root

theorem rewriteCall_sameCataLog (sql : SqlParser) (sources : List PlanNode) (target : Text)
    (last : PlanNode → BuildM PlanNode) :
    Respects SameCataLog (rewriteCall sql sources target last : RewriteM K Bool) := by
  apply sameCataLog_stable.bind (prepare_composes sameCataLog_stable.composes registerVectorFunction_sameCataLog
    sameCataLog_stable.get (fun _ => respects_modify fun _ => rfl) target)
  intro _
  cases sources with
  | nil => exact sameCataLog_stable.pure false
  | cons source rest =>
    have replaced : Respects SameCataLog (replacePlan sql source last : RewriteM K Unit) := by
      apply sameCataLog_stable.bind (setRoot_sameCataLog source)
      intro _
      apply sameCataLog_stable.bind sameCataLog_stable.get
      intro workspace
      apply sameCataLog_stable.bind (extendPlan_sameCataLog _)
      exact fun _ => extendPlan_sameCataLog _
    exact sameCataLog_stable.bind replaced fun _ => sameCataLog_stable.pure true

/-- The two-layer rule does not touch the catalog. -/
theorem apply_sameCataLog (sql : SqlParser) (root : PlanNode) (targets : List Text) :
    Respects SameCataLog (apply sql root targets : RewriteM K Bool) :=
  have visits := visit_composes sameCataLog_stable.composes fun sources target last _ =>
    rewriteCall_sameCataLog sql sources target last
  walk_composes sameCataLog_stable.composes visits targets root

def torchPattern : Pattern := andThen (literal "torchdnn".toList) (many1 Char.isDigit)

def check (_ : CataLog) (_ : TextMap (VectorFunction K)) (root : PlanNode) : Bool × List Text :=
  (true, matchesIn torchPattern root)

def rule (sql : SqlParser) : Rule K := ⟨"TorchNN2TwoLayerUDFRewriteAction".toList, check, apply sql⟩

end CactusDB.Optimizer.TorchNN2TwoLayer
