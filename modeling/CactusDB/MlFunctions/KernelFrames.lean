import CactusDB.MlFunctions.MatrixKernels

/-! What the matrix products do to the rows that they were not asked for. Inside a conditional the
output holds the results of the other branch there. -/

namespace CactusDB.MlFunctions.KernelFrames
open Library.Buffer ArrayVectors RowKernels MatrixKernels List ArrayVector
open Rows (dense length_dense)

variable {K : Type}

section

variable [Field K] [DecidableEq K]

def sparseDense (inputs outputs : Nat) (weight row : List K) : List K :=
  (List.range outputs).map fun c =>
    (((List.range inputs).filter fun r => row.getD r 0 ≠ 0).map fun r =>
      row.getD r 0 * weight.getD (r * outputs + c) 0).sum

structure SparseMatrixMultiply (K : Type) where
  numRows : Nat
  numCols : Nat
  weights : List K
  size : weights.length = numRows * numCols

/-- Other than in the dense product, the results go to the beginning of the buffer. -/
def SparseMatrixMultiply.kernel (function : SparseMatrixMultiply K) : Kernel K where
  inputWidth _ _ := some function.numRows
  outputWidth _ := function.numCols
  computeRow := sparseDense function.numRows function.numCols function.weights
  firstOffset _ := 0

def SparseMatrixMultiply.apply (function : SparseMatrixMultiply K) (useGpu : Bool) (unset : K)
    (rows : SelectivityVector) (input : DecodedArray K) (output : ArrayVector K) : Except KernelError (ArrayVector K) :=
  if useGpu then .error .gpuNotImplemented else function.kernel.apply unset rows input output

/-- Leaving out the zeroes does not change the product. -/
theorem sparseDense_eq_dense (inputs outputs : Nat) (weight row : List K) :
    sparseDense inputs outputs weight row = dense inputs outputs weight row := by
  unfold sparseDense dense
  refine map_congr_left fun c _ => ?_
  induction List.range inputs with
  | nil => rfl
  | cons r rest ih =>
    by_cases zero : row.getD r 0 = 0
    · rw [filter_cons_of_neg (by simpa using zero), ih, map_cons, sum_cons, zero, zero_mul, zero_add]
    · rw [filter_cons_of_pos (by simpa using zero), map_cons, map_cons, sum_cons, sum_cons, ih]

theorem SparseMatrixMultiply.runs (function : SparseMatrixMultiply K) {rows : SelectivityVector}
    {input : DecodedArray K}
    (wide : Wide rows input function.numRows) : function.kernel.Runs rows input function.numRows where
  isWidth := rfl
  readable := wide.readable
  sized _ _ := by
    show (sparseDense _ _ _ _).length = function.numCols
    rw [sparseDense_eq_dense, length_dense]
  start _ := Nat.zero_le _

end

/-- Rows of the old output that were not selected denote the same array, or are still null. -/
def Kept (rows : SelectivityVector) (output result : ArrayVector K) : Prop :=
  ∀ row < output.spans.length, row ∉ rows.selected → result.arrayAt row = output.arrayAt row

def Vacant (rows : SelectivityVector) (output : ArrayVector K) : Prop :=
  ∀ row < output.spans.length, row < rows.endRow → row ∉ rows.selected →
    output.arrayAt row = none ∨ output.arrayAt row = some []

/-- A row behind the bound is null, or has no entries before the given place. -/
def Beyond (rows : SelectivityVector) (output : ArrayVector K) (count : Nat) : Prop :=
  ∀ row span, rows.endRow ≤ row → output.spans[row]? = some span → output.isNullAt row = false →
    span.size = 0 ∨ count ≤ span.offset

section

variable {rows : SelectivityVector} {output after : ArrayVector K} {values : Nat → List K} {width position row : Nat}
  {unset : List K}
  (written : Written rows.selected values width position ((prepared output rows).growElements unset) after)
include written

section

variable (old : row < output.spans.length)
include old

variable (outside : row ∉ rows.selected)
include outside

theorem isNullAt_kept : after.isNullAt row = output.isNullAt row := by
  rw [written.isNullAt]
  simp [prepared, growElements, fillZero, clearNulls, ensureWritable,
    old, outside]

theorem arrayAt_below (below : row < rows.endRow) :
    after.arrayAt row = if output.isNullAt row then none else some [] := by
  have span : after.spans[row]? = some ⟨0, 0⟩ := by
    rw [written.others row outside]
    simp [prepared, growElements, fillZero, getElem?_append_left, below]
  simp [ArrayVector.arrayAt, isNullAt_kept written old outside, ArrayVector.valuesAt, ArrayVector.values, span]

/-- From the bound on the spans stay, so a row keeps its array if its part of the buffer does. -/
theorem arrayAt_above (above : rows.endRow ≤ row) (untouched : ∀ span, output.spans[row]? = some span →
      output.isNullAt row = false →
        slice after.elements span.offset span.size = slice output.elements span.offset span.size) :
    after.arrayAt row = output.arrayAt row := by
  have span : after.spans[row]? = output.spans[row]? := by
    rw [written.others row outside]
    show (List.replicate rows.endRow _ ++ List.drop _ (output.spans ++ _))[row]? = _
    rw [getElem?_append_right (by simpa using above), length_replicate, getElem?_drop,
      Nat.add_sub_cancel' above, getElem?_append_left old]
  have found := getElem?_eq_getElem old
  rw [ArrayVector.arrayAt, ArrayVector.arrayAt, isNullAt_kept written old outside]
  cases isNull : output.isNullAt row with
  | true => rfl
  | false =>
    simp only [ArrayVector.valuesAt, ArrayVector.values, span, found, Option.map_some, Option.getD_some,
      untouched _ found isNull]

end

theorem vacant_of_kept (kept : Kept rows output after) : Vacant rows output := by
  intro row old below outside
  rw [← kept row old outside, arrayAt_below written old outside below]
  cases output.isNullAt row
  · exact .inr rfl
  · exact .inl rfl

theorem kept_of_vacant (vacant : Vacant rows output)
    (untouched : ∀ row span, rows.endRow ≤ row → output.spans[row]? = some span → output.isNullAt row = false →
      slice after.elements span.offset span.size = slice output.elements span.offset span.size) :
    Kept rows output after := by
  intro row old outside
  rcases Nat.lt_or_ge row rows.endRow with below | above
  · rw [arrayAt_below written old outside below]
    have held := vacant row old below outside
    by_cases isNull : output.isNullAt row
    · rw [arrayAt, if_pos isNull, if_pos isNull]
    · have filled : output.arrayAt row ≠ none := by simp [arrayAt, isNull]
      rw [if_neg isNull, held.resolve_left filled]
  · exact arrayAt_above written old outside above (untouched row · above)

/-- The old part of the buffer, outside the place of the results. -/
theorem slice_kept {span : Span} (listed : span ∈ output.spans)
    (apart : span.offset + span.size ≤ position ∨ position + rows.selected.length * width ≤ span.offset) :
    slice after.elements span.offset span.size = slice output.elements span.offset span.size := by
  rw [written.apart _ _ apart]
  exact slice_append (output.inside span listed) unset

end

variable [Field K] [DecidableEq K]

/-- The dense product keeps the other rows exactly when there is nothing in them below the bound of the
selection. For the sparse product this is necessary too, and sufficient when the rows behind the bound
are null or have their entries behind the place of the results. -/
theorem matMul_keeps_iff (rows : SelectivityVector) (input : DecodedArray K) (output : ArrayVector K) (unset : K) :
    (∀ function : MatrixMultiply K, Wide rows input function.numRows →
      ∃ result, function.apply false unset rows input output = .ok result ∧
        (Kept rows output result ↔ Vacant rows output)) ∧
    ∀ function : SparseMatrixMultiply K, Wide rows input function.numRows →
      ∃ result, function.apply false unset rows input output = .ok result ∧
        (Kept rows output result → Vacant rows output) ∧
        (Vacant rows output → Beyond rows output (rows.selected.length * function.numCols) →
          Kept rows output result) := by
  refine ⟨fun function wide => ?_, fun function wide => ?_⟩
  · obtain ⟨read, result, _, done, written⟩ := (function.runs wide).apply_ok unset output
    refine ⟨result, done, vacant_of_kept written, fun vacant => kept_of_vacant written vacant ?_⟩
    intro row span _ found _
    have listed := mem_of_getElem? found
    exact slice_kept written listed (.inl (output.inside span listed))
  · obtain ⟨read, result, _, done, written⟩ := (function.runs wide).apply_ok unset output
    refine ⟨result, done, vacant_of_kept written, fun vacant beyond => kept_of_vacant written vacant ?_⟩
    intro row span above found filled
    rcases beyond row span above found filled with none | behind
    · rw [none, slice_zero, slice_zero]
    · refine slice_kept written (mem_of_getElem? found) (.inr ?_)
      show 0 + rows.selected.length * function.numCols ≤ span.offset
      omega

def secondRow : SelectivityVector := ⟨[1], 2, by decide, by decide⟩

def firstRow : SelectivityVector := .all 1

def heldOutput : ArrayVector ℚ := ⟨fun _ => false, [⟨0, 1⟩, ⟨0, 0⟩], [3], by decide⟩

def heldBehind : ArrayVector ℚ := ⟨fun _ => false, [⟨0, 0⟩, ⟨0, 1⟩], [3], by decide⟩

/-- After a call for the second row the first one is empty, in the dense and in the sparse product. The
sparse product also writes over the entries of a row behind the selection. -/
theorem matMul_empties_other_row : heldOutput.arrayAt 0 = some [3] ∧
      (MatrixMultiply.apply ⟨1, 1, [1], rfl⟩ false 0 secondRow ⟨twoArrays, id⟩ heldOutput).map (·.arrayAt 0) =
        .ok (some []) ∧
      (SparseMatrixMultiply.apply ⟨1, 1, [1], rfl⟩ false 0 secondRow ⟨twoArrays, id⟩ heldOutput).map (·.arrayAt 0) =
        .ok (some []) ∧
      heldBehind.arrayAt 1 = some [3] ∧
      (SparseMatrixMultiply.apply ⟨1, 1, [1], rfl⟩ false 0 firstRow ⟨twoArrays, id⟩ heldBehind).map (·.arrayAt 1) =
        .ok (some [5]) := by
  decide +kernel

end CactusDB.MlFunctions.KernelFrames
