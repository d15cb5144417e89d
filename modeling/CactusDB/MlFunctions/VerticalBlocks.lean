import CactusDB.MlFunctions.ColumnBlocks
import Mathlib.Data.Matrix.Basic
import Mathlib.LinearAlgebra.Matrix.Notation

/-! The vertical rewrite cuts the columns of the input and the rows of the weights into blocks, and
adds up the products of the blocks. -/

namespace CactusDB.MlFunctions.VerticalBlocks
open ColumnBlocks Library List Buffer FixedWidth

variable {R : Type*}

/-- Reading outside of the values and dividing by zero give `none`. Dividing by the number of rows is
done in 64 bits without a sign. -/
def createInputBlock (totalSize : ℤ) (values : List (List R)) (blockNumbers : ℤ) : Option (List (List R)) :=
  let blockSize := totalSize.tdiv blockNumbers
  let numCols := signed 32 (totalSize % 2 ^ 64 / values.length)
  let colsPerBlock := signed 32 (blockSize % 2 ^ 64 / values.length)
  if blockNumbers = 0 ∨ values.length = 0 then none
  else (range blockNumbers.toNat).mapM fun i : ℕ => (range blockSize.toNat).mapM fun j : ℕ =>
    if colsPerBlock = 0 then none
    else
      let dataX := (j : ℤ).tdiv colsPerBlock
      let dataY := i * colsPerBlock + (j : ℤ).tmod colsPerBlock
      readAt values.flatten (dataX * numCols + dataY)

def createWeightBlock (totalSize : ℤ) (values : List R) (blockNumbers : ℤ) : Option (List (List R)) :=
  let blockSize := totalSize.tdiv blockNumbers
  if blockNumbers = 0 then none
  else (range blockNumbers.toNat).mapM fun i : ℕ => (range blockSize.toNat).mapM fun j : ℕ =>
    readAt values (i * blockSize + j)

variable [CommRing R]

/-- A list read as a row-major matrix. -/
def asMatrix (rows columns : ℕ) (values : List R) : Matrix (Fin rows) (Fin columns) R :=
  fun r c => values.getD (r * columns + c) 0

def matrixMultiplyBlock (inner columns samples : ℕ) (left right : List R) : Matrix (Fin samples) (Fin columns) R :=
  asMatrix samples inner left * asMatrix inner columns right

def rowsOf {k n : ℕ} (X : Matrix (Fin k) (Fin n) R) : List (List R) :=
  (range k).map fun r => (range n).map (entry X r)

variable {k m b q : ℕ}

/-- Both functions return, and the products of their blocks, add up to the product of the matrices. -/
def SumsToProduct {n : ℕ} (X : Matrix (Fin k) (Fin n) R) (W : Matrix (Fin n) (Fin m) R) (b : ℕ) : Prop :=
  ∃ inputs weights, createInputBlock (signed 32 ↑(k * n)) (rowsOf X) b = some inputs ∧
    createWeightBlock (signed 32 ↑(n * m)) (rowMajor W) b = some weights ∧
    ∑ i : Fin b, matrixMultiplyBlock (n / b) m k (inputs.getD i []) (weights.getD i []) = X * W

theorem readAt_eq {values : List R} {place : ℕ} (bound : place < values.length) (small : values.length < 2 ^ 31) :
    readAt values place = some (values.getD place 0) := by
  rw [readAt_natCast (bound.trans small), getD_eq_getElem?_getD, getElem?_eq_getElem bound, Option.getD_some]

theorem blocks_read {values : List R} {count size : ℕ} {read : ℕ → ℕ → Option R} {place : ℕ → ℕ → ℕ}
    (small : values.length < 2 ^ 31) (inside : ∀ i < count, ∀ j < size,
      read i j = readAt values (place i j) ∧ place i j < values.length) :
    ((range count).mapM fun i => (range size).mapM (read i)) =
      some ((range count).map fun i => (range size).map fun j => values.getD (place i j) 0) := by
  apply Fallible.mapM_eq_pure
  intro i block
  apply Fallible.mapM_eq_pure
  intro j mem
  obtain ⟨same, bound⟩ := inside i (mem_range.mp block) j (mem_range.mp mem)
  rw [same, readAt_eq bound small]
  rfl

theorem asMatrix_block {f : ℕ → ℕ → R} (i : Fin b) (r : Fin k) (t : Fin q) :
    asMatrix k q (((range b).map fun i => (range (k * q)).map (f i)).getD i []) r t = f i (r * q + t) := by
  simp [asMatrix, rowMajor_lt r.isLt t.isLt]

theorem natCast_emod {size : ℕ} (small : size < 2 ^ 31) : (size : ℤ) % 2 ^ 64 = size := by
  apply Int.emod_eq_of_lt
  · omega
  · omega

theorem createInputBlock_eq (X : Matrix (Fin k) (Fin (b * q)) R) (samples : 0 < k) (blocks : 0 < b)
    (small : k * (b * q) < 2 ^ 31) :
    createInputBlock (signed 32 ↑(k * (b * q))) (rowsOf X) b =
      some ((range b).map fun i => (range (k * q)).map fun j =>
        (grid k (b * q) (entry X)).getD (j / q * (b * q) + (i * q + j % q)) 0) := by
  have size : k * (b * q) / b = k * q := by rw [Nat.mul_left_comm, Nat.mul_div_cancel_left _ blocks]
  have less : k * q ≤ k * (b * q) := Nat.mul_le_mul_left k (Nat.le_mul_of_pos_left q blocks)
  have columns : b * q ≤ k * (b * q) := Nat.le_mul_of_pos_left _ samples
  have fewer : q ≤ b * q := Nat.le_mul_of_pos_left q blocks
  have count : (rowsOf X).length = k := by simp [rowsOf]
  have blockSize : ((k * (b * q) : ℕ) : ℤ).tdiv (b : ℤ) = (k * q : ℕ) := by
    rw [Int.tdiv_eq_ediv_of_nonneg (Int.natCast_nonneg _), ← Int.natCast_ediv, size]
  have numCols : signed 32 (((k * (b * q) : ℕ) : ℤ) % 2 ^ 64 / (k : ℕ)) = (b * q : ℕ) := by
    rw [natCast_emod small, ← Int.natCast_ediv, Nat.mul_div_cancel_left _ samples, signed_natCast (by decide)
      (by omega)]
  have colsPerBlock : signed 32 (((k * q : ℕ) : ℤ) % 2 ^ 64 / (k : ℕ)) = q := by
    rw [natCast_emod (by omega), ← Int.natCast_ediv, Nat.mul_div_cancel_left _ samples, signed_natCast (by decide)
      (by omega)]
  have flat : (rowsOf X).flatten = grid k (b * q) (entry X) := rfl
  have total : (grid k (b * q) (entry X)).length < 2 ^ 31 := by rwa [length_grid]
  rw [createInputBlock, signed_natCast (by decide) small, blockSize, count, numCols, colsPerBlock, flat,
    if_neg (by omega), Int.toNat_natCast, Int.toNat_natCast]
  apply blocks_read total
  intro i block j inside
  have positive : 0 < q := Nat.pos_of_ne_zero fun none => by simp [none] at inside
  have row := (Nat.div_lt_iff_lt_mul positive).mpr inside
  have place := rowMajor_lt row (rowMajor_lt block (Nat.mod_lt j positive))
  have nonzero : (q : ℤ) ≠ 0 := Int.natCast_ne_zero.mpr positive.ne'
  refine ⟨?_, by rwa [length_grid]⟩
  rw [if_neg nonzero, Int.tdiv_eq_ediv_of_nonneg (Int.natCast_nonneg _),
    Int.tmod_eq_emod_of_nonneg (Int.natCast_nonneg _)]
  push_cast
  rfl

theorem createWeightBlock_eq (W : Matrix (Fin (b * q)) (Fin m) R) (blocks : 0 < b) (small : b * q * m < 2 ^ 31) :
    createWeightBlock (signed 32 ↑(b * q * m)) (rowMajor W) b =
      some ((range b).map fun i => (range (q * m)).map fun j => (rowMajor W).getD (i * (q * m) + j) 0) := by
  have length : (rowMajor W).length = b * q * m := by simp [rowMajor]
  have blockSize : ((b * q * m : ℕ) : ℤ).tdiv (b : ℤ) = (q * m : ℕ) := by
    rw [Int.tdiv_eq_ediv_of_nonneg (Int.natCast_nonneg _), ← Int.natCast_ediv, Nat.mul_assoc,
      Nat.mul_div_cancel_left _ blocks]
  rw [createWeightBlock, signed_natCast (by decide) small, blockSize, if_neg (by omega), Int.toNat_natCast,
    Int.toNat_natCast]
  apply blocks_read (by rwa [length])
  intro i block j inside
  refine ⟨by push_cast; rfl, ?_⟩
  rw [length, Nat.mul_assoc]
  exact rowMajor_lt block inside

/-- The products of the blocks add up to the product of the matrices. -/
theorem sumsToProduct {n : ℕ} (X : Matrix (Fin k) (Fin n) R) (W : Matrix (Fin n) (Fin m) R)
    (inputSize : k * n < 2 ^ 31) (weightSize : n * m < 2 ^ 31) (samples : 0 < k) (blocks : 0 < b) (divides : b ∣ n) :
    SumsToProduct X W b := by
  obtain ⟨q, rfl⟩ := divides
  refine ⟨_, _, createInputBlock_eq X samples blocks inputSize, createWeightBlock_eq W blocks weightSize, ?_⟩
  rw [Nat.mul_div_cancel_left q blocks]
  ext r c
  simp only [Matrix.sum_apply, matrixMultiplyBlock, Matrix.mul_apply, asMatrix_block]
  rw [← finProdFinEquiv.sum_comp, Fintype.sum_prod_type]
  refine Finset.sum_congr rfl fun i _ => Finset.sum_congr rfl fun t _ => ?_
  have place : finProdFinEquiv (i, t) = ⟨i * q + t, rowMajor_lt i.isLt t.isLt⟩ := by
    apply Fin.ext
    simp [Nat.mul_comm, Nat.add_comm]
  have weight : i * (q * m) + (t * m + c.val) = (i * q + t) * m + c := by ring
  rw [place, rowMajor_div t.isLt, rowMajor_mod t.isLt, weight, getD_eq_getElem?_getD, getD_eq_getElem?_getD,
    getElem?_grid _ r.isLt (rowMajor_lt i.isLt t.isLt), getElem?_rowMajor W (rowMajor_lt i.isLt t.isLt) c.isLt]
  simp [entry, rowMajor_lt i.isLt t.isLt]

/-- Blocks that exist and add up to the product need a row to cut and a block to cut it into. The total
sizes are handed over as `int`. -/
theorem blocks_sum_to_product_iff {n : ℕ} (X : Matrix (Fin k) (Fin n) R) (W : Matrix (Fin n) (Fin m) R)
    (inputSize : k * n < 2 ^ 31) (weightSize : n * m < 2 ^ 31) (divides : b ∣ n) :
    SumsToProduct X W b ↔ 0 < k ∧ 0 < b := by
  constructor
  · rintro ⟨inputs, weights, cut, _⟩
    have count : (rowsOf X).length = k := by simp [rowsOf]
    rw [createInputBlock, count] at cut
    by_contra none
    rw [if_pos (by omega)] at cut
    cases cut
  · rintro ⟨samples, blocks⟩
    exact sumsToProduct X W inputSize weightSize samples blocks divides

def inputSample : Matrix (Fin 2) (Fin 4) ℤ := !![1, 2, 3, 4; 5, 6, 7, 8]

def weightSample : Matrix (Fin 4) (Fin 3) ℤ := !![1, 0, 2; 0, 1, 3; 1, 1, 0; 2, 0, 1]

theorem two_blocks_sum : SumsToProduct inputSample weightSample 2 :=
  (blocks_sum_to_product_iff inputSample weightSample (by decide) (by decide) (by decide)).mpr (by decide)

/-- Without a row the code divides by zero. -/
theorem no_rows_divides_by_zero :
    ¬ SumsToProduct (0 : Matrix (Fin 0) (Fin 2) ℤ) (0 : Matrix (Fin 2) (Fin 1) ℤ) 2 := by
  rintro ⟨inputs, weights, cut, _⟩
  cases cut

end CactusDB.MlFunctions.VerticalBlocks
