import CactusDB.Optimizer.Resources

/-! The interface of the rewrite rules, and the walk over a plan that the vertical multiplication
rule and the two-layer rule share. -/

namespace CactusDB.Optimizer.RewriteAction
open Library TextScan Stateful Core.Plan MlFunctions.Functions Resources List

/-- A rule checks with the catalog and the registry where it can be applied, which gives the names of
targets, and is applied to the root of a plan with a list of targets. -/
structure Rule (K : Type) where
  name : Text
  check : CataLog → TextMap (VectorFunction K) → PlanNode → Bool × List Text
  apply : PlanNode → List Text → RewriteM K Bool

variable {K : Type}

mutual
def targetsIn (find : Text → List Text) : PlanNode → List Text
  | .mk _ op sources =>
    (match op with
      | .project projections => projections.flatMap fun named => find named.expr.toString
      | .filter condition => find condition.toString
      | _ => []) ++ targetsInAll find sources
def targetsInAll (find : Text → List Text) : List PlanNode → List Text
  | [] => []
  | source :: rest => targetsIn find source ++ targetsInAll find rest
end

def matchesIn (pattern : Pattern) : PlanNode → List Text := targetsIn (allMatches pattern)

/-- The targets are tried in turn at one node, and after each of them all sources are visited with
all targets. A leaf ends the whole loop after its first target. -/
def targetLoop (visit : Text → RewriteM K Bool) (leaf : Bool) (visitSources : RewriteM K Bool) :
    List Text → Bool → RewriteM K Bool
  | [], transformationApplied => pure transformationApplied
  | target :: rest, transformationApplied => do
    let here ← visit target
    if leaf then return false
    let below ← visitSources
    targetLoop visit leaf visitSources rest (transformationApplied || here || below)

mutual
def walk (visit : PlanNode → Text → RewriteM K Bool) (targets : List Text) : PlanNode → RewriteM K Bool
  | .mk id op sources =>
    targetLoop (visit (.mk id op sources)) sources.isEmpty (walkAll visit targets sources) targets false
def walkAll (visit : PlanNode → Text → RewriteM K Bool) (targets : List Text) :
    List PlanNode → RewriteM K Bool
  | [] => pure false
  | source :: rest => do
    let first ← walk visit targets source
    let others ← walkAll visit targets rest
    return first || others
end

section

variable {holds : ∀ {α : Type}, RewriteM K α → Prop} (composes : Composes holds)
include composes

theorem targetLoop_composes {visit : Text → RewriteM K Bool} {visitSources : RewriteM K Bool} {leaf : Bool}
    (here : ∀ target, holds (visit target)) (below : holds visitSources) :
    ∀ targets applied, holds (targetLoop visit leaf visitSources targets applied) := by
  intro targets
  induction targets with
  | nil => exact composes.pure
  | cons target rest ih =>
    intro applied
    apply composes.bind (here target)
    intro found
    cases leaf with
    | true => exact composes.pure false
    | false => exact composes.bind below fun more => ih _

variable {visit : PlanNode → Text → RewriteM K Bool}

theorem walkAll_composes {targets : List Text} {sources : List PlanNode}
    (each : ∀ source ∈ sources, holds (walk visit targets source)) : holds (walkAll visit targets sources) := by
  induction sources with
  | nil => exact composes.pure false
  | cons source rest ih =>
    apply composes.bind (each source mem_cons_self)
    intro first
    apply composes.bind (ih fun source mem => each source (mem_cons_of_mem _ mem))
    exact fun others => composes.pure _

/-- What holds of every visit holds of the whole walk. -/
theorem walk_composes (step : ∀ node target, holds (visit node target)) (targets : List Text) (root : PlanNode) :
    holds (walk visit targets root) := by
  induction root with
  | mk id op sources ih =>
    exact targetLoop_composes composes (step _) (walkAll_composes composes ih) targets false

end

section

variable {rel goal : Workspace K → Workspace K → Prop} (keeps : Keeps rel goal)
include keeps

variable {visit : Text → RewriteM K Bool} {visitSources : RewriteM K Bool} {targets : List Text}

theorem targetLoop_reaches_here
    (here : ∀ target, Ensures rel (visit target)) (below : Ensures rel visitSources) {target : Text}
      (mem : target ∈ targets) (reached : Ensures goal (visit target)) :
    ∀ applied, Ensures goal (targetLoop visit false visitSources targets applied) := by
  induction targets with
  | nil => exact absurd mem not_mem_nil
  | cons first rest ih =>
    intro applied
    cases mem_cons.mp mem with
    | inl same =>
      subst same
      apply keeps.bind_first reached
      intro found
      exact keeps.bind below fun more => targetLoop_composes keeps.composes here below rest _
    | inr later =>
      apply keeps.bind_rest (here first)
      intro found
      exact keeps.bind_rest below fun more => ih later _

theorem targetLoop_reaches_below (here : ∀ target, Ensures rel (visit target)) (some_target : targets ≠ [])
    (reached : Ensures goal visitSources) (applied : Bool) :
    Ensures goal (targetLoop visit false visitSources targets applied) := by
  cases targets with
  | nil => exact absurd rfl some_target
  | cons target rest =>
    apply keeps.bind_rest (here target)
    intro found
    apply keeps.bind_first reached
    intro more
    exact targetLoop_composes keeps.composes here (keeps.ensures reached) rest _

variable {visit : PlanNode → Text → RewriteM K Bool}

variable (step : ∀ node target, Ensures rel (visit node target))
include step

theorem walkAll_reaches {sources : List PlanNode} {source : PlanNode}
    (mem : source ∈ sources) (reached : Ensures goal (walk visit targets source)) :
    Ensures goal (walkAll visit targets sources) := by
  induction sources with
  | nil => exact absurd mem not_mem_nil
  | cons first rest ih =>
    cases mem_cons.mp mem with
    | inl same =>
      subst same
      apply keeps.bind_first reached
      intro found
      apply keeps.bind (walkAll_composes keeps.composes fun source _ =>
        walk_composes keeps.composes step targets source)
      exact fun others => keeps.pure _
    | inr later =>
      apply keeps.bind_rest (walk_composes keeps.composes step targets first)
      intro found
      apply keeps.bind_first (ih later)
      exact fun others => keeps.pure _

/-- What the visit of one node with one target reaches, the walk from the root reaches: every inner
node is visited with every target. -/
theorem walk_reaches {root node : PlanNode} {path : List Nat} {target : Text}
    (position : root.subtreeAt path = some node) (inner : node.sources ≠ []) (mem : target ∈ targets)
    (reached : Ensures goal (visit node target)) : Ensures goal (walk visit targets root) := by
  induction path generalizing root with
  | nil =>
    cases position
    cases node with
    | mk id op sources =>
      have hasSources : sources.isEmpty = false := by simpa using inner
      unfold walk
      rw [hasSources]
      apply targetLoop_reaches_here keeps (step _) _ mem reached
      exact walkAll_composes keeps.composes fun source _ => walk_composes keeps.composes step targets source
  | cons i path ih =>
    cases root with
    | mk id op sources =>
      obtain ⟨source, found, rest⟩ := Option.bind_eq_some_iff.mp position
      have atIndex : source ∈ sources := mem_of_getElem? found
      have hasSources : sources.isEmpty = false := by
        simpa using ne_nil_of_mem atIndex
      unfold walk
      rw [hasSources]
      apply targetLoop_reaches_below keeps (step _) (ne_nil_of_mem mem)
      exact walkAll_reaches keeps step atIndex (ih rest)

end

/-- A call of the target with anything but a closing bracket inside. -/
def callPattern (target : Text) : Pattern :=
  andThen (literal (target ++ ['('])) (andThen (many1 (· != ')')) (literal [')']))

end CactusDB.Optimizer.RewriteAction
