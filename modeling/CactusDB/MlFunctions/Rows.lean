import Mathlib.Algebra.BigOperators.Group.List.Basic
import Mathlib.Algebra.Order.Field.Basic

/-! Arithmetic on the rows of a batch, which the kernels and the layers of a network share. Rows are
exact: entries come from an ordered field. -/

namespace CactusDB.MlFunctions.Rows
open List

variable {K : Type}

/-- The functions of the C++ library that kernels call on single numbers. -/
structure Elementary (K : Type) where
  exp : K → K
  sqrt : K → K

inductive Value (K : Type) where
  | arrays (rows : List (List K))
  | labels (indices : List Nat)
  deriving DecidableEq

def Wide (width : Nat) (rows : List (List K)) : Prop := ∀ row ∈ rows, row.length = width

variable {width : Nat} {rows : List (List K)}

theorem Wide.map {other : Nat} (wide : Wide width rows) {f : List K → List K}
    (resize : ∀ row, row.length = width → (f row).length = other) : Wide other (rows.map f) := by
  intro row mem
  obtain ⟨source, found, rfl⟩ := mem_map.mp mem
  exact resize source (wide source found)

def inputMatrix (width : Nat) (rows : List (List K)) : Option (List (List K)) :=
  if rows.all (fun row => width ≤ row.length) then some (rows.map (take width)) else none

/-- The width of the last row stands for the width of all. -/
def numCols (rows : List (List K)) : Nat := (rows.getLast?.map length).getD 0

theorem inputMatrix_eq (wide : Wide width rows) : inputMatrix width rows = some rows := by
  have long : rows.all (fun row => width ≤ row.length) = true := by
    simp only [all_eq_true, decide_eq_true_eq]
    intro row mem
    exact (wide row mem).ge
  have whole : rows.map (take width) = rows := by
    calc rows.map (take width) = rows.map id :=
          map_congr_left fun row mem => take_of_length_le (wide row mem).le
      _ = rows := map_id rows
  simp [inputMatrix, long, whole]

theorem numCols_eq (wide : Wide width rows) (inhabited : rows ≠ []) : numCols rows = width := by
  simp [numCols, getLast?_eq_some_getLast inhabited, wide _ (getLast_mem inhabited)]

theorem inputMatrix_numCols (wide : Wide width rows) : inputMatrix (numCols rows) rows = some rows := by
  cases rows with
  | nil => rfl
  | cons first rest =>
    rw [numCols_eq wide (cons_ne_nil first rest)]
    exact inputMatrix_eq wide

variable [Field K]

def dense (inputs outputs : Nat) (weight row : List K) : List K :=
  (range outputs).map fun c =>
    ((range inputs).map fun r => row.getD r 0 * weight.getD (r * outputs + c) 0).sum

def addRow (bias row : List K) : List K := zipWith (· + ·) row bias

def sigmoidFunction (elementary : Elementary K) (x : K) : K := 1 / (1 + elementary.exp (-x))

def softmaxRow (elementary : Elementary K) (row : List K) : List K :=
  (row.map elementary.exp).map (· / (row.map elementary.exp).sum)

def normalize (elementary : Elementary K) (mean variance eps weight bias x : K) : K :=
  (x - mean) / elementary.sqrt (variance + eps) * weight + bias

@[simp] theorem length_dense (inputs outputs : Nat) (weight row : List K) :
    (dense inputs outputs weight row).length = outputs := by
  simp [dense]

@[simp] theorem length_addRow (bias row : List K) : (addRow bias row).length = min row.length bias.length := by
  simp [addRow]

@[simp] theorem length_softmaxRow (elementary : Elementary K) (row : List K) :
    (softmaxRow elementary row).length = row.length := by
  simp [softmaxRow]

variable [LinearOrder K]

def reluFunction (x : K) : K := if 0 < x then x else 0

def argmaxRow : List K → Nat
  | [] => 0
  | x :: rest => if rest.any (x < ·) then argmaxRow rest + 1 else 0

structure Elementary.Lawful (elementary : Elementary K) : Prop where
  exp_pos : ∀ x, 0 < elementary.exp x
  exp_strictMono : StrictMono elementary.exp
  sqrt_pos : ∀ x, 0 < x → 0 < elementary.sqrt x

variable [IsStrictOrderedRing K] {elementary : Elementary K} (lawful : elementary.Lawful)
include lawful

theorem one_add_exp_pos (x : K) : 0 < 1 + elementary.exp x := add_pos one_pos (lawful.exp_pos x)

theorem sigmoidFunction_pos (x : K) : 0 < sigmoidFunction elementary x :=
  one_div_pos.mpr (one_add_exp_pos lawful (-x))

theorem sigmoidFunction_lt_one (x : K) : sigmoidFunction elementary x < 1 :=
  (div_lt_one (one_add_exp_pos lawful (-x))).mpr (lt_add_of_pos_right 1 (lawful.exp_pos (-x)))

theorem sigmoidFunction_strictMono : StrictMono (sigmoidFunction elementary) := by
  intro x y less
  have smaller : elementary.exp (-y) < elementary.exp (-x) := lawful.exp_strictMono (neg_lt_neg less)
  exact one_div_lt_one_div_of_lt (one_add_exp_pos lawful (-y)) (by gcongr)

/-- Softmax on two entries, either way round. -/
theorem softmaxRow_pair (x y : K) :
    ∃ p q, softmaxRow elementary [x, y] = [p, q] ∧ softmaxRow elementary [y, x] = [q, p] ∧ (x < y → p < q) ∧
      0 < p ∧ p ≤ 1 ∧ 0 < q ∧ q ≤ 1 := by
  have first := lawful.exp_pos x
  have second := lawful.exp_pos y
  have total : 0 < elementary.exp x + elementary.exp y := add_pos first second
  refine ⟨elementary.exp x / (elementary.exp x + elementary.exp y),
    elementary.exp y / (elementary.exp x + elementary.exp y), by simp [softmaxRow],
    by simp [softmaxRow, add_comm], ?_, div_pos first total, ?_, div_pos second total, ?_⟩
  · intro less
    exact (div_lt_div_iff_of_pos_right total).mpr (lawful.exp_strictMono less)
  · exact (div_le_one total).mpr (le_add_of_nonneg_right second.le)
  · exact (div_le_one total).mpr (le_add_of_nonneg_left first.le)

end CactusDB.MlFunctions.Rows
