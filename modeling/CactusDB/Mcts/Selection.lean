import CactusDB.Mcts.ExploredActions
import Mathlib.Algebra.Order.BigOperators.Group.List

/-! How the searches choose: the child with the best score among some of the children, and a random
element of a list. -/

namespace CactusDB.Mcts.Selection
open SearchTree VisitAccounts List

/-- The scores of the selection: the exploration formula of a child's reward, its visits and the visits
of its parent, and the comparison of two scores. -/
structure Scoring (R : Type) where
  Score : Type
  uct : R → Nat → Nat → Score
  greater : Score → Score → Bool

variable {A R : Type}

/-- The reward is divided by the visits of the child, and the logarithm of the visits of the node is
taken. -/
def scoreOf (scoring : Scoring R) (nodes : List (Node A R)) (node : Node A R) (child : Nat) :
    Except Failure (Nat × scoring.Score) :=
  match nodes[child]? with
  | none => .error .dangling
  | some below =>
    if below.numVisit = 0 then .error .zeroDivisionError
    else if node.numVisit = 0 then .error .valueError
    else .ok (child, scoring.uct below.reward below.numVisit node.numVisit)

def scoresOf (scoring : Scoring R) (nodes : List (Node A R)) (node : Node A R) :
    List Nat → Except Failure (List (Nat × scoring.Score))
  | [] => .ok []
  | child :: rest =>
    match scoreOf scoring nodes node child with
    | .error failure => .error failure
    | .ok score =>
      match scoresOf scoring nodes node rest with
      | .error failure => .error failure
      | .ok scores => .ok (score :: scores)

def bestOf (scoring : Scoring R) (nodes : List (Node A R)) (node : Node A R) (children : List Nat) :
    Except Failure Nat :=
  match scoresOf scoring nodes node children with
  | .error failure => .error failure
  | .ok [] => .error .valueError
  | .ok (first :: rest) =>
    .ok (rest.foldl (fun best next => if scoring.greater next.2 best.2 then next else best) first).1

def randomChoice {α : Type} (draw : Nat) (choices : List α) : Option α := choices[draw % choices.length]?

theorem mem_of_randomChoice {α : Type} {draw : Nat} {choices : List α} {chosen : α}
    (success : randomChoice draw choices = some chosen) : chosen ∈ choices := mem_of_getElem? success

theorem randomChoice_succeeds {α : Type} (draw : Nat) {choices : List α} (inhabited : choices ≠ []) :
    ∃ chosen, randomChoice draw choices = some chosen := by
  have bound : draw % choices.length < choices.length := Nat.mod_lt _ (length_pos_iff.mpr inhabited)
  exact ⟨_, getElem?_eq_getElem bound⟩

section

variable {scoring : Scoring R} {nodes : List (Node A R)} {node : Node A R} {children : List Nat}

theorem scoresOf_fst {scores : List (Nat × scoring.Score)}
    (success : scoresOf scoring nodes node children = .ok scores) : scores.map Prod.fst = children := by
  induction children generalizing scores with
  | nil =>
    cases success
    rfl
  | cons child rest ih =>
    unfold scoresOf at success
    split at success
    · simp at success
    · next score first =>
        split at success
        · simp at success
        · next others below =>
            cases success
            have same : score.1 = child := by
              unfold scoreOf at first
              split at first
              · simp at first
              · split at first
                · simp at first
                · split at first
                  · simp at first
                  · cases first
                    rfl
            rw [map_cons, ih below, same]

theorem foldl_pick_mem {α : Type} (better : α → α → Bool) (first : α) (rest : List α) :
    rest.foldl (fun best next => if better next best then next else best) first ∈ first :: rest := by
  induction rest generalizing first with
  | nil => exact mem_cons_self
  | cons next rest ih =>
    rw [foldl_cons]
    by_cases replaced : better next first
    · rw [if_pos replaced]
      exact mem_cons_of_mem _ (ih next)
    · rw [if_neg replaced]
      cases mem_cons.mp (ih first) with
      | inl same =>
        rw [same]
        exact mem_cons_self
      | inr later => exact mem_cons_of_mem _ (mem_cons_of_mem _ later)

theorem mem_of_bestOf {child : Nat} (success : bestOf scoring nodes node children = .ok child) :
    child ∈ children := by
  unfold bestOf at success
  split at success
  · simp at success
  · simp at success
  · next first rest scores =>
      cases success
      rw [← scoresOf_fst scores]
      exact mem_map_of_mem (foldl_pick_mem (fun next best => scoring.greater next.2 best.2) first rest)

theorem scoresOf_succeeds (scoring : Scoring R) (visited : 0 < node.numVisit)
    (each : ∀ child ∈ children, ∃ below : Node A R, nodes[child]? = some below ∧ 0 < below.numVisit) :
    ∃ scores, scoresOf scoring nodes node children = .ok scores := by
  induction children with
  | nil => exact ⟨[], rfl⟩
  | cons child rest ih =>
    obtain ⟨below, found, positive⟩ := each child mem_cons_self
    obtain ⟨others, success⟩ := ih fun other mem => each other (mem_cons_of_mem _ mem)
    have score : scoreOf scoring nodes node child =
        .ok (child, scoring.uct below.reward below.numVisit node.numVisit) := by
      unfold scoreOf
      simp [found, Nat.pos_iff_ne_zero.mp positive, Nat.pos_iff_ne_zero.mp visited]
    unfold scoresOf
    rw [score, success]
    exact ⟨_, rfl⟩

/-- With visits all around there is a child to choose. -/
theorem bestOf_succeeds (scoring : Scoring R) (some_child : children ≠ [])
    (each : ∀ child ∈ children, ∃ below : Node A R, nodes[child]? = some below ∧ 0 < below.numVisit)
    (visited : 0 < node.numVisit) : ∃ child, bestOf scoring nodes node children = .ok child := by
  obtain ⟨scores, success⟩ := scoresOf_succeeds scoring visited each
  have length := congrArg List.length (scoresOf_fst success)
  unfold bestOf
  rw [success]
  cases scores with
  | nil => exact absurd (length_eq_zero_iff.mp (by simpa using length.symm)) some_child
  | cons first rest => exact ⟨_, rfl⟩

end

variable [Zero R] [Add R] {nodes : List (Node A R)} {log : Log R} {id : Nat} {node : Node A R}

theorem child_visited (accounted : Accounted nodes log) (found : nodes[id]? = some node) {child : Nat}
    (mem : child ∈ node.children) : ∃ below : Node A R, nodes[child]? = some below ∧ 0 < below.numVisit := by
  obtain ⟨later, below, there, _⟩ := accounted.linked.down _ _ _ found mem
  have positive := accounted.exactAccounts.others child (by omega) (lt_length there)
  unfold visitsOf at positive
  rw [there, Option.map_some, Option.getD_some] at positive
  exact ⟨below, there, positive⟩

/-- A node with a child has been visited with it. -/
theorem visited_of_child (accounted : Accounted nodes log) (found : nodes[id]? = some node)
    (some_child : node.children ≠ []) : 0 < node.numVisit := by
  obtain ⟨child, mem⟩ := exists_mem_of_ne_nil _ some_child
  obtain ⟨below, there, positive⟩ := child_visited accounted found mem
  have atLeast : visitsOf nodes child ≤ (node.children.map (visitsOf nodes)).sum :=
    le_sum_of_mem (mem_map_of_mem mem)
  have same : visitsOf nodes child = below.numVisit := by simp [visitsOf, there]
  have split := accounted.exactAccounts.split id node found
  omega

end CactusDB.Mcts.Selection
