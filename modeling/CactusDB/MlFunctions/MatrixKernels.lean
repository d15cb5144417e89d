import CactusDB.MlFunctions.RowKernels
import CactusDB.MlFunctions.Rows
import Mathlib.Algebra.Field.Rat
import Mathlib.Algebra.Order.BigOperators.Group.List
import Mathlib.Algebra.Order.Ring.Rat

/-! The kernels of the matrix functions, and when each selected row is given the result of its own
array. -/

namespace CactusDB.MlFunctions.MatrixKernels
open Library.Buffer Rows ArrayVectors RowKernels List Option ArrayVector

variable {K : Type}

def Wide (rows : SelectivityVector) (input : DecodedArray K) (width : Nat) : Prop :=
  ∀ row ∈ rows.selected, ∃ span, input.base.spans[input.index row]? = some span ∧ span.size = width

/-- The call goes through, and every selected row holds the function's value at its own array. -/
def Exact (function : List K → List K) (rows : SelectivityVector) (input : DecodedArray K)
    (outcome : Except KernelError (ArrayVector K)) : Prop :=
  ∃ result, outcome = .ok result ∧ ∀ row ∈ rows.selected,
    result.arrayAt row = some (function (input.base.valuesAt (input.index row)))

section

variable {rows : SelectivityVector} {input : DecodedArray K} {width : Nat}

theorem Wide.readable (wide : Wide rows input width) :
    ∀ row ∈ rows.selected, Readable input.base width (input.index row) := by
  intro row mem
  obtain ⟨span, found, rfl⟩ := wide row mem
  exact ⟨span, found, input.base.inside span (mem_of_getElem? found)⟩

theorem Wide.rowEntries_eq (wide : Wide rows input width) {row : Nat} (mem : row ∈ rows.selected) :
    rowEntries input.base width (input.index row) = input.base.valuesAt (input.index row) := by
  obtain ⟨span, found, rfl⟩ := wide row mem
  simp [rowEntries, valuesAt, values, found]

theorem Wide.length_rowEntries (wide : Wide rows input width) {row : Nat} (mem : row ∈ rows.selected) :
    (rowEntries input.base width (input.index row)).length = width := by
  obtain ⟨span, found, fits⟩ := wide.readable row mem
  simp only [rowEntries, found, map_some, getD_some]
  exact length_slice fits

section
variable {result : Nat → List K} {place row : Nat} {output after : ArrayVector K} {unset : List K}
  (written : Written rows.selected result width place ((prepared output rows).growElements unset) after)
  (mem : row ∈ rows.selected)
include written mem

/-- A selected row is not null after the call. -/
theorem isNullAt_of_written : after.isNullAt row = false := by
  rw [written.isNullAt]
  simp [prepared, growElements, fillZero, clearNulls, mem]

theorem arrayAt_of_written : after.arrayAt row = some (result row) := by
  obtain ⟨j, bound, rfl⟩ := getElem_of_mem mem
  obtain ⟨span, values⟩ := written.stored j _ (getElem?_eq_getElem bound)
  simp [ArrayVector.arrayAt, isNullAt_of_written written mem, ArrayVector.valuesAt, ArrayVector.values, span, values]

end

theorem Kernel.exact_of_resolved {kernel : Kernel K} (runs : kernel.Runs rows input width)
    (wide : Wide rows input width)
    (resolved : Resolved rows.selected input.index) (unset : K) (output : ArrayVector K) :
    Exact kernel.computeRow rows input (kernel.apply unset rows input output) := by
  obtain ⟨read, result, reads, done, written⟩ := runs.apply_ok unset output
  refine ⟨result, done, fun row mem => ?_⟩
  have own := (readFor_iff_resolved rows.ascending).mpr resolved row mem
  rw [reads row mem, some.injEq] at own
  rw [arrayAt_of_written written mem, own, wide.rowEntries_eq mem]

theorem not_exact_of_shown {function : List K → List K}
    {outcome : Except KernelError (ArrayVector K)} (row : Nat) (values : List K) (selected : row ∈ rows.selected)
    (shown : outcome.map (·.arrayAt row) = .ok (some values))
    (wrong : values ≠ function (input.base.valuesAt (input.index row))) : ¬ Exact function rows input outcome := by
  rintro ⟨result, rfl, exact⟩
  have here : result.arrayAt row = some values := Except.ok.inj shown
  rw [exact row selected, some.injEq] at here
  exact wrong here.symm

end

structure MatrixMultiply (K : Type) where
  numRows : Nat
  numCols : Nat
  weights : List K
  size : weights.length = numRows * numCols

structure MatrixVectorAddition (K : Type) where
  numCols : Nat
  weights : List K
  size : weights.length = numCols

variable [Field K]

/-- The results are appended to the buffer. -/
def MatrixMultiply.kernel (function : MatrixMultiply K) : Kernel K where
  inputWidth _ _ := some function.numRows
  outputWidth _ := function.numCols
  computeRow := dense function.numRows function.numCols function.weights
  firstOffset baseOffset := baseOffset

def MatrixMultiply.apply (function : MatrixMultiply K) (useGpu : Bool) (unset : K) (rows : SelectivityVector)
    (input : DecodedArray K) (output : ArrayVector K) : Except KernelError (ArrayVector K) :=
  if useGpu then .error .gpuNotImplemented else function.kernel.apply unset rows input output

def MatrixVectorAddition.kernel (function : MatrixVectorAddition K) : Kernel K where
  inputWidth _ _ := some function.numCols
  outputWidth _ := function.numCols
  computeRow := addRow function.weights
  firstOffset baseOffset := baseOffset

def MatrixVectorAddition.apply (function : MatrixVectorAddition K) (unset : K) (rows : SelectivityVector)
    (input : DecodedArray K) (output : ArrayVector K) : Except KernelError (ArrayVector K) :=
  function.kernel.apply unset rows input output

/-- The size of the array that was added last stands for all. Without any row it is not set. -/
def Softmax.kernel (elementary : Elementary K) : Kernel K where
  inputWidth base uniqueRawIndexes :=
    uniqueRawIndexes.getLast?.bind fun rawIndex => (base.spans[rawIndex]?).map Span.size
  outputWidth numCols := numCols
  computeRow := softmaxRow elementary
  firstOffset baseOffset := baseOffset

def Softmax.apply (elementary : Elementary K) (unset : K) (rows : SelectivityVector) (input : DecodedArray K)
    (output : ArrayVector K) : Except KernelError (ArrayVector K) :=
  (Softmax.kernel elementary).apply unset rows input output

section

variable {rows : SelectivityVector} {input : DecodedArray K} {width : Nat}

theorem MatrixMultiply.runs (function : MatrixMultiply K) (wide : Wide rows input function.numRows) :
    function.kernel.Runs rows input function.numRows where
  isWidth := rfl
  readable := wide.readable
  sized _ _ := length_dense function.numRows function.numCols function.weights _
  start _ := Nat.le_refl _

theorem MatrixVectorAddition.runs (function : MatrixVectorAddition K) (wide : Wide rows input function.numCols) :
    function.kernel.Runs rows input function.numCols where
  isWidth := rfl
  readable := wide.readable
  sized row mem := by
    show (addRow function.weights _).length = function.numCols
    rw [length_addRow, wide.length_rowEntries mem, function.size, Nat.min_self]
  start _ := Nat.le_refl _

theorem Softmax.runs (elementary : Elementary K) (wide : Wide rows input width) (inhabited : rows.selected ≠ []) :
    (Softmax.kernel elementary).Runs rows input width where
  isWidth := by
    have collected := collected_collect input.index rows.ascending
    obtain ⟨row, mem⟩ := exists_mem_of_ne_nil _ inhabited
    have filled : (collect input.index rows.selected).uniqueRawIndexes ≠ [] :=
      ne_nil_of_mem ((collected.unique _).mpr ⟨row, mem, rfl⟩)
    obtain ⟨source, listed, same⟩ := (collected.unique _).mp (getLast_mem filled)
    obtain ⟨span, found, size⟩ := wide source listed
    show (getLast? _).bind _ = _
    rw [getLast?_eq_some_getLast filled, bind_some, ← same, found, map_some, size]
  readable := wide.readable
  sized row mem := by
    show (softmaxRow elementary _).length = width
    rw [length_softmaxRow, wide.length_rowEntries mem]
  start _ := Nat.le_refl _

end

def markers (count : Nat) : ArrayVector K where
  isNullAt _ := false
  spans := (range (count + 1)).map fun i => ⟨count - i, count + 1⟩
  elements := replicate count 0 ++ 1 :: replicate count 0
  inside := by
    intro span mem
    obtain ⟨i, _, rfl⟩ := mem_map.mp mem
    simp only [length_append, length_replicate, length_cons]
    omega

theorem markers_spans {count i : Nat} (bound : i ≤ count) :
    (markers count : ArrayVector K).spans[i]? = some ⟨count - i, count + 1⟩ := by
  have inside : i < count + 1 := by omega
  simp [markers, inside]

theorem markers_entry {count i j : Nat} (first : i ≤ count) (second : j ≤ count) :
    (rowEntries (markers count : ArrayVector K) (count + 1) i)[j]? = some (if i = j then 1 else 0) := by
  have inside : j < count + 1 := by omega
  simp only [rowEntries, markers_spans first, map_some, getD_some]
  rw [getElem?_slice, if_pos inside]
  show (replicate count (0 : K) ++ 1 :: replicate count 0)[count - i + j]? = _
  rcases Nat.lt_trichotomy i j with less | same | more
  · rw [getElem?_append_right (by simp; omega), if_neg (by omega)]
    obtain ⟨d, isD⟩ : ∃ d, count - i + j - (replicate count (0 : K)).length = d + 1 :=
      ⟨j - i - 1, by simp; omega⟩
    rw [isD, getElem?_cons_succ, getElem?_replicate, if_pos (by simp at isD; omega)]
  · rw [getElem?_append_right (by simp; omega), if_pos same]
    have zero : count - i + j - (replicate count (0 : K)).length = 0 := by simp; omega
    rw [zero, getElem?_cons_zero]
  · rw [getElem?_append_left (by simp; omega), if_neg (by omega), getElem?_replicate, if_pos (by omega)]

/-- The arrays of two rows of the buffer are the same only if the rows are. -/
theorem markers_injective {count i j : Nat} (first : i ≤ count) (second : j ≤ count)
    (same : rowEntries (markers count : ArrayVector K) (count + 1) i = rowEntries (markers count) (count + 1) j) :
    i = j := by
  have entry := markers_entry (K := K) first first
  rw [same, markers_entry second first, if_pos rfl] at entry
  by_contra apart
  rw [if_neg (Ne.symm apart)] at entry
  exact zero_ne_one (some.inj entry)

theorem addRow_zero (row : List K) {count : Nat} (length : row.length = count) :
    addRow (replicate count 0) row = row := by
  subst length
  unfold addRow
  induction row with
  | nil => rfl
  | cons x rest ih =>
    rw [length_cons, replicate_succ, zipWith_cons_cons, ih, add_zero]

def addZero (width : Nat) : MatrixVectorAddition K := ⟨width, replicate width 0, length_replicate⟩

/-- With arrays that can be told apart, adding zeroes gives every row its own array only if the
selection is resolved. -/
theorem resolved_of_exact {rows : SelectivityVector} {index : Nat → Nat} {count : Nat}
    (bound : ∀ row ∈ rows.selected, index row ≤ count) {unset : K} {output : ArrayVector K}
    (exact : Exact (addRow (addZero (count + 1)).weights) rows ⟨markers count, index⟩
      ((addZero (count + 1)).apply unset rows ⟨markers count, index⟩ output)) : Resolved rows.selected index := by
  have wide : Wide rows ⟨(markers count : ArrayVector K), index⟩ (count + 1) :=
    fun row mem => ⟨_, markers_spans (bound row mem), rfl⟩
  have zeroes : ∀ row ∈ rows.selected,
      addRow (addZero (count + 1)).weights (rowEntries (markers count : ArrayVector K) (count + 1) (index row)) =
        rowEntries (markers count) (count + 1) (index row) :=
    fun row mem => addRow_zero _ (wide.length_rowEntries mem)
  obtain ⟨result, done, values⟩ := exact
  obtain ⟨read, again, reads, same, written⟩ := ((addZero (count + 1)).runs wide).apply_ok unset output
  obtain rfl : result = again := Except.ok.inj (done.symm.trans same)
  rw [← readFor_iff_resolved rows.ascending]
  intro row mem
  obtain ⟨source, listed, given⟩ := (collected_collect index rows.ascending).readFor_mem row mem
  have own : read row = index source := by
    rw [reads row mem] at given
    exact some.inj given
  have equal : rowEntries (markers count : ArrayVector K) (count + 1) (index source) =
      rowEntries (markers count) (count + 1) (index row) := by
    have shown := values row mem
    rw [arrayAt_of_written written mem, ← wide.rowEntries_eq mem, own, some.injEq] at shown
    calc
      _ = addRow (addZero (count + 1)).weights (rowEntries (markers count) (count + 1) (index source)) :=
        (zeroes source listed).symm
      _ = addRow (addZero (count + 1)).weights (rowEntries (markers count) (count + 1) (index row)) := shown
      _ = _ := zeroes row mem
  rw [given, markers_injective (bound source listed) (bound row mem) equal]

/-- The kernels give each selected row the value at its own array, whatever the arrays are, exactly when
the lookups of repeated base rows are resolved. -/
theorem matrixKernels_exact_iff (rows : SelectivityVector) (index : Nat → Nat) :
    Resolved rows.selected index ↔ ∀ (base output : ArrayVector K) (unset : K),
      (∀ function : MatrixMultiply K, Wide rows ⟨base, index⟩ function.numRows →
        Exact (dense function.numRows function.numCols function.weights) rows ⟨base, index⟩
          (function.apply false unset rows ⟨base, index⟩ output)) ∧
      (∀ function : MatrixVectorAddition K, Wide rows ⟨base, index⟩ function.numCols →
        Exact (addRow function.weights) rows ⟨base, index⟩ (function.apply unset rows ⟨base, index⟩ output)) ∧
      ∀ (elementary : Elementary K) (width : Nat), Wide rows ⟨base, index⟩ width → rows.selected ≠ [] →
        Exact (softmaxRow elementary) rows ⟨base, index⟩
          (Softmax.apply elementary unset rows ⟨base, index⟩ output) := by
  constructor
  · intro resolved base output unset
    exact ⟨fun function wide => Kernel.exact_of_resolved (function.runs wide) wide resolved unset output,
      fun function wide => Kernel.exact_of_resolved (function.runs wide) wide resolved unset output,
      fun elementary width wide inhabited =>
        Kernel.exact_of_resolved (Softmax.runs elementary wide inhabited) wide resolved unset output⟩
  · intro exact
    obtain ⟨count, bound⟩ : ∃ count, ∀ row ∈ rows.selected, index row ≤ count :=
      ⟨(rows.selected.map index).sum, fun row mem => le_sum_of_mem (mem_map_of_mem mem)⟩
    exact resolved_of_exact bound ((exact (markers count) (markers count) 0).2.1 (addZero (count + 1))
      fun row mem => ⟨_, markers_spans (bound row mem), rfl⟩)

def threeRows : SelectivityVector := .all 3

def twoArrays : ArrayVector ℚ := ⟨fun _ => false, [⟨0, 1⟩, ⟨1, 1⟩], [5, 9], by decide⟩

def raggedArrays : ArrayVector ℚ := ⟨fun _ => false, [⟨0, 1⟩, ⟨1, 1⟩, ⟨2, 2⟩], [5, 7, 8, 9], by decide⟩

def noArrays : ArrayVector ℚ := ⟨fun _ => false, [], [], by decide⟩

/-- A dictionary over two arrays with the indices `1, 0, 0`: the third row looks up slot `0` under the
number of its base row, which is the slot of base row `1`. -/
def dictionary : DecodedArray ℚ := ⟨twoArrays, fun row => if row = 0 then 1 else 0⟩

/-- The third row of the dictionary is given the result of the other array, and arrays of different
sizes are all read as if they had the size of the last. -/
theorem repeated_row_not_exact :
    ¬ Exact (dense 1 1 [1]) threeRows dictionary
      (MatrixMultiply.apply ⟨1, 1, [1], rfl⟩ false 0 threeRows dictionary noArrays) ∧
      ¬ Exact (addRow [1]) threeRows dictionary
        (MatrixVectorAddition.apply ⟨1, [1], rfl⟩ 0 threeRows dictionary noArrays) ∧
      ∀ elementary : Elementary ℚ, ¬ Exact (softmaxRow elementary) threeRows ⟨raggedArrays, id⟩
        (Softmax.apply elementary 0 threeRows ⟨raggedArrays, id⟩ noArrays) := by
  refine ⟨not_exact_of_shown 2 [9] (by decide) (by decide +kernel) (by decide +kernel),
    not_exact_of_shown 2 [10] (by decide) (by decide +kernel) (by decide +kernel), fun elementary => ?_⟩
  refine not_exact_of_shown 0 (softmaxRow elementary [5, 7]) (by decide) rfl fun same => ?_
  have lengths := congrArg length same
  rw [length_softmaxRow, length_softmaxRow] at lengths
  exact absurd lengths (by decide +kernel)

end CactusDB.MlFunctions.MatrixKernels
