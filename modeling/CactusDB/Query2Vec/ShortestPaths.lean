import Mathlib.Data.List.FinRange
import Mathlib.Data.List.ProdSigma
import Mathlib.Order.Bounds.Defs
import Mathlib.Tactic.Common

/-! Distances between the nodes of a plan, computed in place. Nodes that do not reach each other are
60 apart, and this number takes part in the sums. -/

namespace CactusDB.Query2Vec.ShortestPaths
open List

variable {n : Nat}

def relax (k : Fin n) (M : Fin n → Fin n → Nat) (cell : Fin n × Fin n) : Fin n → Fin n → Nat :=
  fun i j => if (i, j) = cell then min (M i j) (M i k + M k j) else M i j

def round (M : Fin n → Fin n → Nat) (k : Fin n) : Fin n → Fin n → Nat :=
  (finRange n ×ˢ finRange n).foldl (relax k) M

def initial (adjacency : Fin n → Fin n → Bool) : Fin n → Fin n → Nat :=
  fun i j => if i = j then 0 else if (adjacency i j).toNat = 0 then 60 else (adjacency i j).toNat

def floydWarshallRewrite (adjacency : Fin n → Fin n → Bool) : Fin n → Fin n → Nat :=
  (finRange n).foldl round (initial adjacency)

inductive Walk (adjacency : Fin n → Fin n → Bool) : Fin n → Fin n → Nat → Prop
  | nil (i : Fin n) : Walk adjacency i i 0
  | cons {i j k : Fin n} {edges : Nat} (edge : adjacency i j) (rest : Walk adjacency j k edges) :
    Walk adjacency i k (edges + 1)

variable {adjacency : Fin n → Fin n → Bool} {M : Fin n → Fin n → Nat}

theorem Walk.append {i j k : Fin n} {first second : Nat} (walk : Walk adjacency i j first)
    (other : Walk adjacency j k second) : Walk adjacency i k (first + second) := by
  induction walk with
  | nil => rwa [Nat.zero_add]
  | cons edge _ ih =>
    rw [Nat.succ_add]
    exact .cons edge (ih other)

/-- The row and the column of `k` stay as they are in its round, so that every cell reads what stood
there before. -/
theorem foldl_relax {N : Fin n → Fin n → Nat} {k : Fin n} (zero : N k k = 0) (cells : List (Fin n × Fin n))
    (row : M k = N k) (column : ∀ i, M i k = N i k) (i j : Fin n) :
    cells.foldl (relax k) M i j = if (i, j) ∈ cells then min (M i j) (N i k + N k j) else M i j := by
  induction cells generalizing M with
  | nil => rfl
  | cons cell rest ih =>
    have sameRow : relax k M cell k = N k := by
      funext j
      simp [relax, row, zero]
    have sameColumn (i : Fin n) : relax k M cell i k = N i k := by simp [relax, column, zero]
    rw [foldl_cons, ih sameRow sameColumn, relax, row, column]
    by_cases here : (i, j) = cell <;> by_cases later : (i, j) ∈ rest <;> simp [here, later]

theorem round_apply {k : Fin n} (zero : M k k = 0) (i j : Fin n) : round M k i j = min (M i j) (M i k + M k j) := by
  rw [round, foldl_relax zero _ rfl fun _ => rfl]
  simp

structure Bounded (adjacency : Fin n → Fin n → Bool) (M : Fin n → Fin n → Nat) : Prop where
  diagonal : ∀ i, M i i = 0
  edge : ∀ i j, adjacency i j → M i j ≤ 1
  bound : ∀ i j, M i j ≤ 60
  walk : ∀ i j, M i j < 60 → Walk adjacency i j (M i j)

theorem bounded_initial (adjacency : Fin n → Fin n → Bool) : Bounded adjacency (initial adjacency) := by
  refine ⟨fun i => if_pos rfl, fun i j edge => ?_, fun i j => ?_, fun i j near => ?_⟩
  · by_cases same : i = j <;> simp [initial, same, edge]
  · cases edge : adjacency i j <;> by_cases same : i = j <;> simp [initial, same, edge]
  · by_cases same : i = j
    · rw [initial, if_pos same, same]
      exact .nil j
    · cases edge : adjacency i j with
      | false => simp [initial, same, edge] at near
      | true =>
        have one : initial adjacency i j = 1 := by simp [initial, same, edge]
        rw [one]
        exact .cons edge (.nil j)

theorem Bounded.round (bounded : Bounded adjacency M) (k : Fin n) : Bounded adjacency (round M k) := by
  have apply := round_apply (bounded.diagonal k)
  refine ⟨fun i => ?_, fun i j edge => ?_, fun i j => ?_, fun i j near => ?_⟩
  · rw [apply, bounded.diagonal, Nat.zero_min]
  · rw [apply]
    exact (Nat.min_le_left ..).trans (bounded.edge i j edge)
  · rw [apply]
    exact (Nat.min_le_left ..).trans (bounded.bound i j)
  · rw [apply] at near ⊢
    rcases Nat.le_total (M i j) (M i k + M k j) with direct | through
    · rw [Nat.min_eq_left direct] at near ⊢
      exact bounded.walk i j near
    · rw [Nat.min_eq_right through] at near ⊢
      exact (bounded.walk i k (by omega)).append (bounded.walk k j (by omega))

/-- What is closed under going through `p` stays so in every later round. -/
theorem closed_round {k : Fin n} (zero : M k k = 0) {p : Fin n}
    (closed : p = k ∨ ∀ i j, M i j ≤ M i p + M p j) (i j : Fin n) : round M k i j ≤ round M k i p + round M k p j := by
  simp only [round_apply zero]
  rcases closed with rfl | closed
  · omega
  · have direct := closed i j
    have first := closed i k
    have second := closed k j
    omega

theorem foldl_round (bounded : Bounded adjacency M) (rounds : List (Fin n)) :
    Bounded adjacency (rounds.foldl round M) ∧ ∀ p, (p ∈ rounds ∨ ∀ i j, M i j ≤ M i p + M p j) →
      ∀ i j, rounds.foldl round M i j ≤ rounds.foldl round M i p + rounds.foldl round M p j := by
  induction rounds generalizing M with
  | nil => exact ⟨bounded, fun p closed => closed.resolve_left not_mem_nil⟩
  | cons k rest ih =>
    obtain ⟨after, later⟩ := ih (bounded.round k)
    refine ⟨after, fun p closed => later p ?_⟩
    rw [mem_cons, or_right_comm] at closed
    exact closed.symm.imp_right (closed_round (bounded.diagonal k))

/-- Every entry is the length of a shortest path, or 60 where there is none that is shorter. -/
theorem floydWarshallRewrite_least (adjacency : Fin n → Fin n → Bool) (i j : Fin n) :
    IsLeast (insert 60 {edges | Walk adjacency i j edges}) (floydWarshallRewrite adjacency i j) := by
  obtain ⟨bounded, closed⟩ := foldl_round (bounded_initial adjacency) (finRange n)
  constructor
  · rcases (bounded.bound i j).eq_or_lt with far | near
    · exact .inl far
    · exact .inr (bounded.walk i j near)
  · rintro edges (rfl | walk)
    · exact bounded.bound i j
    · induction walk with
      | nil i => exact (bounded.diagonal i).le
      | @cons i next j edges edge _ ih =>
        have through := closed next (.inl (mem_finRange next)) i j
        have first := bounded.edge i next edge
        change (finRange n).foldl round _ next j ≤ edges at ih
        change (finRange n).foldl round _ i j ≤ edges + 1
        omega

end CactusDB.Query2Vec.ShortestPaths
