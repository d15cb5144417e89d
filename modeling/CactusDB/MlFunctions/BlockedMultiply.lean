import CactusDB.Aggregates.CatArray
import CactusDB.MlFunctions.ColumnBlocks
import CactusDB.MlFunctions.MatrixKernels
import Mathlib.Algebra.BigOperators.Fin

/-! A weight matrix is cut into column blocks, a batch of input vectors is multiplied with every block,
and `array_cat` puts the products of each row together again. -/

namespace CactusDB.MlFunctions.BlockedMultiply
open Library Library.PartialAggregation Aggregates.CatArray List Function Binary32 FixedWidth ColumnBlocks
open ArrayVectors RowKernels
open MatrixKernels (Wide arrayAt_of_written)

variable {R : Type}

/-- The block index columns: `flag` 0 numbers the block columns, any other flag the block rows. -/
def createBlockIndex (parts flag : ℕ) : List (List ℚ) :=
  let zeros := (range parts).map fun _ => (0 : ℚ)
  let numbers := (range parts).map fun i : ℕ => round i
  if flag = 0 then [zeros, numbers] else [numbers, zeros]

/-- A column with one array. -/
def arrayVector (values : List R) : ArrayVector R := ⟨fun _ => false, [⟨0, values.length⟩], values, by simp⟩

/-- Each block goes to a file of its own, with its number. -/
def saveBlocksToFiles (valuesArray : List (List R)) : List (ArrayVector R × ℚ) :=
  (valuesArray.zip ((createBlockIndex valuesArray.length 0).getD 1 [])).map fun entry =>
    (arrayVector entry.1, entry.2)

variable [CommRing R]

/-- One row of the result, for the first `numRows * width` weights as a row-major matrix. -/
def multiplyRow (numRows width : ℕ) (weights input : List R) : List R :=
  (range width).map fun j =>
    ((range numRows).map fun r => input.getD r 0 * weights.getD (r * width + j) 0).sum

def blockKernel (numRows width : ℕ) (weights : List R) : Kernel R where
  inputWidth _ _ := some numRows
  outputWidth _ := width
  computeRow := multiplyRow numRows width weights
  firstOffset baseOffset := baseOffset

/-- The width of a block is read off the number of weights; it is the block size if there are enough. -/
def currentBlockSize (numRows blockSize size : ℕ) : ℕ :=
  if (size : ℤ) < signed 32 (numRows * blockSize) then size / numRows else blockSize

/-- `mat_mul_h` on a batch. All elements of the second column together are the weights of all rows. Vectors
have fewer than `2 ^ 31` elements. -/
def matrixMultiplyH (numRows blockSize : ℕ) (unset : R) (rows : SelectivityVector) (input : DecodedArray R)
    (weights output : ArrayVector R) : Except KernelError (ArrayVector R) :=
  let width := currentBlockSize numRows blockSize weights.elements.length
  if numRows = 0 then .error .divisionByZero
  else if weights.elements.length < numRows * width then .error .outOfBounds
  else if 2 ^ 31 ≤ output.elements.length + rows.endRow * width then .error .outOfBounds
  else (blockKernel numRows width weights.elements).apply unset rows input output

/-- The batch is multiplied with one file after another. -/
def multiplyBlocks (numRows blockSize : ℕ) (unset : R) (rows : SelectivityVector) (input : DecodedArray R)
    (output : ArrayVector R) (files : List (ArrayVector R × ℚ)) : Except KernelError (List (ArrayVector R × ℚ)) :=
  files.mapM fun file =>
    (matrixMultiplyH numRows blockSize unset rows input file.1 output).map fun column => (column, file.2)

omit [CommRing R] in
/-- One accumulator, with partial results that come one at a time. The map of a partial result has as many
keys as there are blocks, and its first key is read in any case. -/
def merged : History (Row R) → Option (ValueVector R)
  | .fresh => some .empty
  | .raw before input => (merged before).map (addRawInput · input)
  | .merge before other =>
    (merged before).bind fun vector => (merged other).bind fun part =>
      if part.numBlocks = 0 then none else some (addIntermediateResults vector (extractAccumulators part))

def vectorOf (n : ℕ) (values : List R) : Fin n → R := fun r => values.getD r 0

/-- Blocked multiplication gives each row of a batch the product of its own vector, whichever way the
products reach the last accumulator. -/
def Exact (R : Type) [CommRing R] (n m b : ℕ) (rows : SelectivityVector) (index : ℕ → ℕ) : Prop :=
  ∀ (base output : ArrayVector R) (unset : R) (W : Matrix (Fin n) (Fin m) R), Wide rows ⟨base, index⟩ n →
    output.elements.length + rows.endRow * min b m < 2 ^ 31 →
    ∃ blocks columns, createBlocks n m (rowMajor W) b = some blocks ∧
      multiplyBlocks n b unset rows ⟨base, index⟩ output (saveBlocksToFiles blocks) = .ok columns ∧
      ∀ row ∈ rows.selected, ∀ history : History (Row R), history.Given →
        history.inputs = (columns.map fun column => (column.1.valuesAt row, column.2) : List (Row R)) →
        ∃ vector, merged history = some vector ∧ extractValues vector =
          some ((ofFn (Matrix.vecMul (vectorOf n (base.valuesAt (index row))) W)).map some)

section

variable {n m k b : ℕ} (input : List R) (W : Matrix (Fin n) (Fin m) R)

def dot (k : ℕ) : R := ∑ r : Fin n, input.getD r 0 * entry W r k

theorem ofFn_vecMul : ofFn (Matrix.vecMul (vectorOf n input) W) = (range m).map (dot input W) := by
  apply ext_getElem
  · simp
  · intro k left right
    have column : k < m := by simpa using left
    simp [dot, vectorOf, entry, column, Matrix.vecMul, dotProduct]

@[simp] theorem length_multiplyRow (numRows width : ℕ) (weights : List R) :
    (multiplyRow numRows width weights input).length = width := by
  simp [multiplyRow]

theorem multiplyRow_slice (start width : ℕ) :
    multiplyRow n width (slice W start width) input = (range width).map fun j => dot input W (start + j) := by
  unfold multiplyRow
  apply map_congr_left
  intro j column
  rw [mem_range] at column
  have sum : ∀ term : ℕ → R, ((range n).map term).sum = ∑ r : Fin n, term r :=
    fun term => Finset.sum_range term
  rw [sum, dot]
  apply Finset.sum_congr rfl
  intro r _
  have weight : (slice W start width).getD (r * width + j) 0 = entry W r (start + j) := by
    rw [slice, getD_eq_getElem?_getD, getElem?_grid _ r.isLt column, Option.getD_some]
  rw [weight]

/-- What a row with the given vector gets from block number `i`. -/
def blockProduct (b k i : ℕ) : List R :=
  multiplyRow n (min (width m b k i) b) (slice W (i * b) (width m b k i)) input

theorem length_blockProduct (b k i : ℕ) : (blockProduct input W b k i).length = min (width m b k i) b :=
  length_multiplyRow _ _ _ _

theorem sum_length_blockProduct (wide : (k + 1) * b ≤ m) :
    ((range (k + 1)).map fun i => (blockProduct input W b k i).length).sum = (k + 1) * b := by
  have constant : ∀ i ∈ range (k + 1), (blockProduct input W b k i).length = b := by
    intro i _
    rw [length_blockProduct, width]
    rw [Nat.succ_mul] at wide
    split <;> omega
  rw [map_congr_left constant]
  simp

variable {history : History (Row R)}

def productRows (b k : ℕ) : List (Row R) := (range (k + 1)).map fun i : ℕ => (blockProduct input W b k i, round i)

theorem productRows_eq (indices : k ≤ 2 ^ 24) (fits : m ≤ (k + 1) * b) : productRows input W b k =
    numberedRows (k + 1) fun i => (range (width m b k i)).map fun j => dot input W (i * b + j) := by
  apply map_congr_left
  intro i small
  rw [mem_range] at small
  have narrow : min (width m b k i) b = width m b k i := by
    rw [Nat.succ_mul] at fits
    unfold width
    split <;> omega
  rw [round_natCast (by omega), blockProduct, narrow, multiplyRow_slice]

/-- Rows whose blocks fit and whose indices single precision can tell apart give the product. -/
theorem extractValues_of_fits (columns : 0 < m) (indices : k ≤ 2 ^ 24) (inside : k * b ≤ m)
    (fits : m ≤ (k + 1) * b) (inputs : history.inputs = productRows input W b k) :
    extractValues (catArray.run history) = some ((ofFn (Matrix.vecMul (vectorOf n input) W)).map some) := by
  rw [productRows_eq input W indices fits] at inputs
  have denotes := run_denotes history (inputs ▸ legal_numberedRows (k + 1) _ (by omega))
  rw [inputs] at denotes
  have written := denotes.extractAndConcatValue_numberedRows
  rw [flatMap_columns (dot input W) inside, ← ofFn_vecMul] at written
  have size : (catArray.run history).size = m := by
    rw [denotes.size, Multiset.map_coe, Multiset.sum_coe, numberedRows, map_map]
    have lengths := congrArg length (flatMap_columns (dot input W) inside)
    simpa [length_flatMap, comp_def] using lengths
  have nonzero : m ≠ 0 := by omega
  simp [extractValues, size, written, nonzero]

end

section

variable {n m k b w : ℕ} (W : Matrix (Fin n) (Fin m) R) {rows : SelectivityVector} {index : ℕ → ℕ}
  {base output : ArrayVector R} (unset : R)

theorem currentBlockSize_eq (some_row : 0 < n)
    (narrow : n * b < 2 ^ 31 ∨ w < b ∧ ((n * w : ℕ) : ℤ) < signed 32 (n * b)) :
    currentBlockSize n b (n * w) = min w b := by
  unfold currentBlockSize
  rcases Nat.lt_or_ge w b with less | more
  · have fewer : ((n * w : ℕ) : ℤ) < signed 32 (n * b) := by
      rcases narrow with small | ⟨_, fewer⟩
      · rw [← Int.natCast_mul, signed_natCast (by decide) small]
        exact_mod_cast Nat.mul_lt_mul_of_pos_left less some_row
      · exact fewer
    rw [if_pos fewer, Nat.mul_div_cancel_left w some_row, min_eq_left less.le]
  · have small := narrow.resolve_right fun less => absurd less.1 (Nat.not_lt.mpr more)
    have enough : ¬ ((n * w : ℕ) : ℤ) < signed 32 (n * b) := by
      rw [← Int.natCast_mul, signed_natCast (by decide) small]
      exact_mod_cast Nat.not_lt.mpr (Nat.mul_le_mul_left n more)
    rw [if_neg enough, min_eq_right more]

/-- The base row that a row of the batch is multiplied for. -/
def shown (rows : SelectivityVector) (index : ℕ → ℕ) (row : ℕ) : ℕ :=
  ((collect index rows.selected).readFor row).getD 0

theorem matrixMultiplyH_ok (wide : Wide rows ⟨base, index⟩ n) (some_row : 0 < n) (start : ℕ)
    (size : currentBlockSize n b (n * w) = min w b)
    (room : output.elements.length + rows.endRow * min w b < 2 ^ 31) :
    ∃ column, matrixMultiplyH n b unset rows ⟨base, index⟩ (arrayVector (slice W start w)) output = .ok column ∧
      ∀ row ∈ rows.selected, column.valuesAt row =
        multiplyRow n (min w b) (slice W start w) (rowEntries base n (shown rows index row)) := by
  have runs : (blockKernel n (min w b) (slice W start w)).Runs rows ⟨base, index⟩ n :=
    ⟨rfl, wide.readable, fun _ _ => length_multiplyRow _ _ _ _, fun _ => Nat.le_refl _⟩
  obtain ⟨read, column, reads, done, written⟩ := runs.apply_ok unset output
  have enough : ¬ n * w < n * min w b := Nat.not_lt.mpr (Nat.mul_le_mul_left n (min_le_left w b))
  refine ⟨column, ?_, fun row mem => ?_⟩
  · unfold matrixMultiplyH
    simp only [arrayVector, length_slice, size]
    rw [if_neg some_row.ne', if_neg enough, if_neg (Nat.not_le.mpr room)]
    exact done
  · have given : read row = shown rows index row := by
      rw [shown, reads row mem, Option.getD_some]
    have value := arrayAt_of_written written mem
    rw [given] at value
    unfold ArrayVector.arrayAt at value
    split at value
    · cases value
    · exact Option.some.inj value

omit [CommRing R] in
theorem saveBlocksToFiles_eq (count : ℕ) (block : ℕ → List R) :
    saveBlocksToFiles ((range count).map block) = (range count).map fun i : ℕ => (arrayVector (block i), round i) := by
  simp [saveBlocksToFiles, createBlockIndex, zip_map', comp_def]

theorem min_width_le (inside : k * b ≤ m) {i : ℕ} (numbered : i ≤ k) : min (width m b k i) b ≤ min b m := by
  unfold width
  split
  case isTrue => omega
  case isFalse earlier =>
    have room : b ≤ k * b := Nat.le_mul_of_pos_left b (by omega)
    omega

/-- The widths that `mat_mul_h` reads off the blocks, when a block wider than the matrix is recognised. -/
theorem currentBlockSize_block (some_row : 0 < n) (cuts : Cuts n m b k)
    (narrow : m < b → ((n * m : ℕ) : ℤ) < signed 32 (n * b)) {i : ℕ} (numbered : i ≤ k) :
    currentBlockSize n b (n * width m b k i) = min (width m b k i) b := by
  apply currentBlockSize_eq some_row
  rcases Nat.eq_zero_or_pos k with rfl | several
  · have only : width m b 0 i = m := by
      rw [width, if_pos (by omega), Nat.zero_mul, Nat.sub_zero]
    rw [only]
    rcases Nat.lt_or_ge m b with less | more
    · exact .inr ⟨less, narrow less⟩
    · refine .inl (lt_of_le_of_lt (Nat.mul_le_mul_left n more) ?_)
      simpa using cuts.last
  · exact .inl (cuts.full several)

/-- The cut of a matrix into `k + 1` blocks. -/
def cut (W : Matrix (Fin n) (Fin m) R) (b k : ℕ) : List (List R) :=
  (range (k + 1)).map fun i => slice W (i * b) (width m b k i)

theorem multiplyBlocks_ok (wide : Wide rows ⟨base, index⟩ n) (some_row : 0 < n) (inside : k * b ≤ m)
    (sizes : ∀ i ≤ k, currentBlockSize n b (n * width m b k i) = min (width m b k i) b)
    (room : output.elements.length + rows.endRow * min b m < 2 ^ 31) :
    ∃ columns, multiplyBlocks n b unset rows ⟨base, index⟩ output (saveBlocksToFiles (cut W b k)) = .ok columns ∧
      ∀ row ∈ rows.selected, columns.map (fun column => (column.1.valuesAt row, column.2)) =
        productRows (rowEntries base n (shown rows index row)) W b k := by
  let multiply (i : ℕ) : Except KernelError (ArrayVector R × ℚ) :=
    (matrixMultiplyH n b unset rows ⟨base, index⟩ (arrayVector (slice W (i * b) (width m b k i))) output).map
      fun column => (column, round i)
  have each : ∀ i ∈ range (k + 1), ∃ column, multiply i = .ok column ∧
      ∀ row ∈ rows.selected, (column.1.valuesAt row, column.2) =
        (blockProduct (rowEntries base n (shown rows index row)) W b k i, round i) := by
    intro i mem
    have numbered : i ≤ k := Nat.lt_succ_iff.mp (mem_range.mp mem)
    have less := Nat.mul_le_mul_left rows.endRow (min_width_le inside numbered)
    obtain ⟨column, found, values⟩ :=
      matrixMultiplyH_ok W unset wide some_row (i * b) (sizes i numbered) ((Nat.add_le_add_left less _).trans_lt room)
    refine ⟨(column, round i), ?_, fun row selected => by rw [values row selected, blockProduct]⟩
    simp only [multiply, found]
    rfl
  obtain ⟨columns, done, collected⟩ := Fallible.exists_mapM_forall₂ each
  refine ⟨columns, ?_, fun row mem => ?_⟩
  · rw [multiplyBlocks, cut, saveBlocksToFiles_eq, mapM_map]
    exact done
  · have same : Forall₂ Eq (columns.map fun column => (column.1.valuesAt row, column.2))
        (productRows (rowEntries base n (shown rows index row)) W b k) :=
      forall₂_map_left_iff.mpr (forall₂_map_right_iff.mpr (collected.imp fun _ _ values => values row mem).flip)
    rwa [forall₂_eq_eq_eq] at same

end

section

omit [CommRing R]

theorem eq_run_of_merged {history : History (Row R)} {vector : ValueVector R} (done : merged history = some vector) :
    vector = catArray.run history := by
  induction history generalizing vector with
  | fresh => exact (Option.some.inj done).symm
  | raw before input ih =>
    obtain ⟨earlier, found, rfl⟩ := Option.map_eq_some_iff.mp done
    rw [ih found]
    rfl
  | merge before other ihBefore ihOther =>
    obtain ⟨earlier, found, done⟩ := Option.bind_eq_some_iff.mp done
    obtain ⟨part, given, done⟩ := Option.bind_eq_some_iff.mp done
    rw [ihBefore found, ihOther given] at done
    split at done
    · cases done
    · exact (Option.some.inj done).symm

theorem numBlocks_ne_zero {vector : ValueVector R} {rows : Multiset (Row R)} (denotes : Denotes vector rows)
    {row : Row R} (mem : row ∈ rows) (nonempty : row.1 ≠ []) : vector.numBlocks ≠ 0 := by
  intro none
  have empty := Std.ExtTreeMap.eq_empty_iff_size_eq_zero.mpr none
  have stored : vector.insertedSize[toInt row.2]? = some row.1.length := by
    rw [denotes.sizes, Std.ExtTreeMap.getElem?_map, denotes.kept row mem nonempty, Option.map_some]
  rw [empty] at stored
  cases stored

/-- Partial results with arrays that are not empty have a key to read. -/
theorem merged_eq_run {history : History (Row R)} (given : history.Given) (legal : Legal history.inputs)
    (nonempty : ∀ row ∈ history.inputs, row.1 ≠ []) : merged history = some (catArray.run history) := by
  induction history with
  | fresh => rfl
  | raw before input ih =>
    have earlier := ih given (legal.part (Multiset.le_cons_self _ _)) fun row mem =>
      nonempty row (Multiset.mem_cons_of_mem mem)
    rw [merged, earlier]
    rfl
  | merge before other ihBefore ihOther =>
    obtain ⟨givenBefore, givenOther, some_input⟩ := given
    have otherLegal : Legal other.inputs := legal.part (Multiset.le_add_left _ _)
    have earlier := ihBefore givenBefore (legal.part (Multiset.le_add_right _ _)) fun row mem =>
      nonempty row (Multiset.mem_add.mpr (.inl mem))
    have part := ihOther givenOther otherLegal fun row mem => nonempty row (Multiset.mem_add.mpr (.inr mem))
    obtain ⟨row, mem⟩ := Multiset.exists_mem_of_ne_zero some_input
    have keys := numBlocks_ne_zero (run_denotes other otherLegal) mem (nonempty row (Multiset.mem_add.mpr (.inr mem)))
    rw [merged, earlier, part, Option.bind_some, Option.bind_some, if_neg keys]
    rfl

end

/-- The sizes for which blocked multiplication is exact. -/
structure Fits (n m b : ℕ) : Prop where
  rows : 0 < n
  columns : 0 < m
  total : n * m ≤ 2 ^ 31
  block : n * min b m < 2 ^ 31
  narrow : m < b → ((n * m : ℕ) : ℤ) < signed 32 (n * b)
  counted : Counted m b

section

variable {n m k b : ℕ} {rows : SelectivityVector} {index : ℕ → ℕ}

theorem cuts_of_bounds (total : n * m ≤ 2 ^ 31) (block : n * min b m < 2 ^ 31) (inside : k * b ≤ m)
    (fits : m ≤ (k + 1) * b) : Cuts n m b k where
  total := total
  inside := inside
  last := by
    rw [Nat.succ_mul] at fits
    exact lt_of_le_of_lt (Nat.mul_le_mul_left n (by omega)) block
  full := by
    intro several
    have room : b ≤ k * b := Nat.le_mul_of_pos_left b several
    rwa [min_eq_left (room.trans inside)] at block

theorem blockProduct_ne_nil (input : List R) (W : Matrix (Fin n) (Fin m) R) (block : 0 < b) (inside : k * b < m)
    (i : ℕ) : blockProduct input W b k i ≠ [] := by
  apply ne_nil_of_length_pos
  rw [length_blockProduct, width]
  split <;> omega

theorem exact_of_fits (small : m < 2 ^ 31) (block : 0 < b) (resolved : Resolved rows.selected index)
    (fits : Fits n m b) : Exact R n m b rows index := by
  intro base output unset W wide room
  obtain ⟨count, bound⟩ := (counted_iff fits.columns block).mp fits.counted
  obtain ⟨k, isCount⟩ : ∃ k, blockCount m b = k + 1 :=
    ⟨blockCount m b - 1, by have := one_le_ceilQuotient fits.columns block; omega⟩
  rw [isCount] at count bound
  obtain ⟨inside, cover⟩ := (blockCount_eq_iff fits.columns block).mp isCount
  have cuts := cuts_of_bounds fits.total fits.block inside.le cover
  obtain ⟨columns, done, values⟩ := multiplyBlocks_ok W unset wide fits.rows inside.le
    (fun i numbered => currentBlockSize_block fits.rows cuts fits.narrow numbered) room
  refine ⟨cut W b k, columns, createBlocks_eq W small count (by omega) cuts, done, ?_⟩
  intro row mem history given inputs
  rw [values row mem] at inputs
  have own : shown rows index row = index row := by
    rw [shown, (readFor_iff_resolved rows.ascending).mpr resolved row mem, Option.getD_some]
  rw [own, wide.rowEntries_eq mem] at inputs
  have legal : Legal history.inputs := by
    rw [inputs, productRows_eq _ W (by omega) cover]
    exact legal_numberedRows (k + 1) _ (by omega)
  refine ⟨_, merged_eq_run given legal fun other member => ?_,
    extractValues_of_fits _ W fits.columns (by omega) inside.le cover inputs⟩
  rw [inputs] at member
  obtain ⟨i, _, rfl⟩ := mem_map.mp (Multiset.mem_coe.mp member)
  exact blockProduct_ne_nil _ W block inside i

end

/-- Arrays of zeroes, but for one of ones. -/
def marked (n hot count : ℕ) : ArrayVector R where
  isNullAt _ := false
  spans := (range (count + 1)).map fun i => if i = hot then ⟨0, n⟩ else ⟨n, n⟩
  elements := replicate n 1 ++ replicate n 0
  inside := by
    intro span mem
    obtain ⟨i, _, rfl⟩ := mem_map.mp mem
    split <;> simp

section

variable {n hot count i : ℕ}

theorem marked_spans (bound : i ≤ count) :
    (marked n hot count : ArrayVector R).spans[i]? = some (if i = hot then ⟨0, n⟩ else ⟨n, n⟩) := by
  have inside : i < count + 1 := by omega
  simp [marked, inside]

theorem rowEntries_marked (bound : i ≤ count) :
    rowEntries (marked n hot count : ArrayVector R) n i = replicate n (if i = hot then 1 else 0) := by
  rw [rowEntries, marked_spans bound]
  split <;> simp [marked, Buffer.slice]

theorem wide_marked {rows : SelectivityVector} {index : ℕ → ℕ} (bound : ∀ row ∈ rows.selected, index row ≤ count) :
    Wide rows ⟨(marked n hot count : ArrayVector R), index⟩ n := by
  intro row mem
  refine ⟨_, marked_spans (bound row mem), ?_⟩
  split <;> rfl

end

section

variable {n m k b : ℕ} {blocks : List (List R)}

omit [CommRing R] in
theorem exists_cons_of_createBlocks {values : List R} (count : ceilQuotient m b = k + 1)
    (done : createBlocks n m values b = some blocks) : ∃ first rest, blocks = first :: rest := by
  rw [createBlocks, count] at done
  split at done
  · cases done
  · rw [createBlocksFrom] at done
    split at done
    · cases done
    · next first _ =>
        obtain ⟨rest, _, rfl⟩ := Option.map_eq_some_iff.mp done
        exact ⟨first, rest, rfl⟩

theorem matrixMultiplyH_first {unset : R} {rows : SelectivityVector} {input : DecodedArray R} {output : ArrayVector R}
    {first : List R} {rest : List (List R)} {columns : List (ArrayVector R × ℚ)}
    (done : multiplyBlocks n b unset rows input output (saveBlocksToFiles (first :: rest)) = .ok columns) :
    ∃ column, matrixMultiplyH n b unset rows input (arrayVector first) output = .ok column := by
  have files : ∃ others, saveBlocksToFiles (first :: rest) = (arrayVector first, round (0 : ℕ)) :: others := by
    simp [saveBlocksToFiles, createBlockIndex, range_succ_eq_map]
  obtain ⟨others, same⟩ := files
  rw [same] at done
  obtain ⟨_, _, one, _⟩ := Fallible.mapM_cons_ok done
  obtain ⟨column, found, _⟩ := Fallible.exists_of_map_ok one
  exact ⟨column, found⟩

end

section

variable {n m k b : ℕ} {rows : SelectivityVector} {index : ℕ → ℕ}

theorem exists_index_le (selected : List ℕ) (index : ℕ → ℕ) : ∃ count, ∀ row ∈ selected, index row ≤ count :=
  ⟨(selected.map index).sum, fun _ mem => le_sum_of_mem (mem_map_of_mem mem)⟩

variable (exact : Exact R n m b rows index) (room : rows.endRow * min b m < 2 ^ 31)
include exact room

/-- The outcome for arrays of zeroes and of ones. -/
theorem outcome_of_exact (hot : ℕ) (W : Matrix (Fin n) (Fin m) R) :
    ∃ count, (∀ row ∈ rows.selected, index row ≤ count) ∧
      ∃ blocks columns, createBlocks n m (rowMajor W) b = some blocks ∧
        multiplyBlocks n b 0 rows ⟨marked n hot count, index⟩ (arrayVector [])
          (saveBlocksToFiles blocks) = .ok columns ∧
        ∀ row ∈ rows.selected, ∀ history : History (Row R), history.Given →
          history.inputs = (columns.map fun column => (column.1.valuesAt row, column.2) : List (Row R)) →
          ∃ vector, merged history = some vector ∧ extractValues vector =
            some ((ofFn (Matrix.vecMul
              (vectorOf n (replicate n (if index row = hot then 1 else 0))) W)).map some) := by
  obtain ⟨count, bound⟩ := exists_index_le rows.selected index
  have wide : Wide rows ⟨(marked n hot count : ArrayVector R), index⟩ n := wide_marked bound
  obtain ⟨blocks, columns, found, done, values⟩ :=
    exact (marked n hot count) (arrayVector []) 0 W wide (by simpa [arrayVector] using room)
  refine ⟨count, bound, blocks, columns, found, done, fun row mem => ?_⟩
  rw [← rowEntries_marked (bound row mem), wide.rowEntries_eq mem]
  exact values row mem

theorem columns_pos_of_exact (some_row : rows.selected ≠ []) : 0 < m := by
  by_contra none
  obtain rfl : m = 0 := by omega
  obtain ⟨_, _, blocks, columns, found, done, values⟩ := outcome_of_exact exact room 0 0
  have count : ceilQuotient 0 b = 0 := by simp [ceilQuotient, div]
  obtain rfl : blocks = [] := by simpa [createBlocks, count, createBlocksFrom] using found.symm
  obtain rfl : columns = [] := by
    simpa [multiplyBlocks, saveBlocksToFiles, createBlockIndex, pure, Except.pure] using done.symm
  obtain ⟨row, mem⟩ := exists_mem_of_ne_nil _ some_row
  obtain ⟨vector, merge, null⟩ := values row mem .fresh trivial rfl
  obtain rfl := eq_run_of_merged merge
  simp [Aggregate.run, catArray, extractValues, ValueVector.empty] at null

variable (count : ceilQuotient m b = k + 1)
include count

theorem rows_pos_of_exact : 0 < n := by
  by_contra none
  obtain rfl : n = 0 := by omega
  obtain ⟨_, _, blocks, columns, found, done, _⟩ := outcome_of_exact exact room 0 0
  obtain ⟨first, rest, rfl⟩ := exists_cons_of_createBlocks count found
  obtain ⟨column, impossible⟩ := matrixMultiplyH_first done
  cases impossible

variable (columns : 0 < m) (small : m < 2 ^ 31)
include columns small

theorem cuts_of_exact : k + 1 < 2 ^ 31 ∧ Cuts n m b k := by
  obtain ⟨_, _, blocks, _, found, _⟩ := outcome_of_exact exact room 0 0
  exact cuts_of_createBlocks (rows_pos_of_exact exact room count) columns small (length_rowMajor _) count found

theorem narrow_of_exact (less : m < b) : ((n * m : ℕ) : ℤ) < signed 32 (n * b) := by
  have some_row := rows_pos_of_exact exact room count
  obtain ⟨few, cuts⟩ := cuts_of_exact exact room count columns small
  obtain rfl : k = 0 := by
    by_contra several
    have := cuts.inside
    have := Nat.le_mul_of_pos_left b (Nat.pos_of_ne_zero several)
    omega
  obtain ⟨_, _, blocks, columns, found, done, _⟩ := outcome_of_exact exact room 0 0
  have only : blocks = [slice (0 : Matrix (Fin n) (Fin m) R) 0 m] := by
    rw [createBlocks_eq _ small count few cuts] at found
    simpa [width] using found.symm
  rw [only] at done
  obtain ⟨column, multiplied⟩ := matrixMultiplyH_first done
  by_contra wrapped
  unfold matrixMultiplyH at multiplied
  simp only [arrayVector, length_slice, currentBlockSize, if_neg wrapped, if_neg some_row.ne',
    if_pos (Nat.mul_lt_mul_of_pos_left less some_row)] at multiplied
  cases multiplied

/-- What reaches an accumulator are the products with the blocks. -/
theorem products_of_exact (hot : ℕ) (W : Matrix (Fin n) (Fin m) R) {row source : ℕ} (mem : row ∈ rows.selected)
    (listed : source ∈ rows.selected) (given : (collect index rows.selected).readFor row = some (index source))
    {history : History (Row R)} (parts : history.Given)
    (inputs : history.inputs = productRows (replicate n (if index source = hot then 1 else 0)) W b k) :
    ∃ vector, merged history = some vector ∧ extractValues vector =
      some ((ofFn (Matrix.vecMul (vectorOf n (replicate n (if index row = hot then 1 else 0))) W)).map some) := by
  have some_row := rows_pos_of_exact exact room count
  obtain ⟨few, cuts⟩ := cuts_of_exact exact room count columns small
  obtain ⟨bound, below, blocks, products, found, done, values⟩ := outcome_of_exact exact room hot W
  rw [createBlocks_eq W small count few cuts, Option.some.injEq] at found
  obtain ⟨same, again, multiplied⟩ := multiplyBlocks_ok W 0 (wide_marked below) some_row cuts.inside
    (fun i numbered => currentBlockSize_block some_row cuts (narrow_of_exact exact room count columns small) numbered)
    (show (arrayVector ([] : List R)).elements.length + _ < _ by simpa [arrayVector] using room)
  rw [cut, found, done] at again
  obtain rfl := Except.ok.inj again
  apply values row mem history parts
  have own : shown rows index row = index source := by rw [shown, given, Option.getD_some]
  rw [multiplied row mem, own, rowEntries_marked (below source listed), inputs]

variable (some_row : rows.selected ≠ [])
include some_row

/-- Vectors of zeroes that are multiplied with zeroes. -/
theorem values_of_exact {history : History (Row R)} (parts : history.Given)
    (inputs : history.inputs = productRows (replicate n 0) (0 : Matrix (Fin n) (Fin m) R) b k) :
    merged history = some (catArray.run history) ∧
      ∃ values : List R, values.length = m ∧ extractValues (catArray.run history) = some (values.map some) := by
  obtain ⟨row, mem⟩ := exists_mem_of_ne_nil _ some_row
  obtain ⟨source, listed, given⟩ := (collected_collect index rows.ascending).readFor_mem row mem
  obtain ⟨bound, below⟩ := exists_index_le rows.selected index
  have cold : index source ≠ bound + 1 := by
    have := below source listed
    omega
  obtain ⟨vector, merge, shown⟩ := products_of_exact exact room count columns small (bound + 1) 0 mem listed given parts
    (by rw [if_neg cold]; exact inputs)
  obtain rfl := eq_run_of_merged merge
  exact ⟨merge, _, by simp, shown⟩

theorem cover_of_exact : m ≤ (k + 1) * b := by
  by_contra wide
  obtain ⟨_, values, length, shown⟩ := values_of_exact exact room count columns small some_row
    (History.given_ofList _) (History.inputs_ofList (productRows (replicate n 0) (0 : Matrix (Fin n) (Fin m) R) b k))
  have size := (lost_run_ofList _).length_extractValues shown
  rw [size_run_ofList, length_map, length, productRows, map_map] at size
  have sum := sum_length_blockProduct (replicate n 0) (0 : Matrix (Fin n) (Fin m) R) (Nat.le_of_not_le wide)
  have same : m = (k + 1) * b := size.trans sum
  omega

theorem indices_of_exact (block : 0 < b) : k ≤ 2 ^ 24 := by
  by_contra large
  let row : ℕ → Row R := fun i =>
    (blockProduct (replicate n 0) (0 : Matrix (Fin n) (Fin m) R) b k i, round i)
  -- The blocks numbered `2 ^ 24` and `2 ^ 24 + 1` have one index; the first is inserted first.
  let rest := ((range (k + 1)).erase (2 ^ 24)).erase (2 ^ 24 + 1)
  have perm : (range (k + 1)).Perm (2 ^ 24 :: (2 ^ 24 + 1) :: rest) := by
    have first : 2 ^ 24 ∈ range (k + 1) := mem_range.mpr (by omega)
    have second : 2 ^ 24 + 1 ∈ (range (k + 1)).erase (2 ^ 24) :=
      (mem_erase_of_ne (by decide)).mpr (mem_range.mpr (by omega))
    exact (perm_cons_erase first).trans ((perm_cons_erase second).cons _)
  have inputs : (History.ofList (row (2 ^ 24) :: row (2 ^ 24 + 1) :: rest.map row)).inputs =
      (productRows (replicate n 0) (0 : Matrix (Fin n) (Fin m) R) b k : Multiset (Row R)) := by
    rw [History.inputs_ofList]
    exact Multiset.coe_eq_coe.mpr (perm.map row).symm
  have same : toInt (row (2 ^ 24)).2 = toInt (row (2 ^ 24 + 1)).2 := by
    have collide : Binary32.round ((2 ^ 24 : ℕ) : ℚ) = Binary32.round ((2 ^ 24 + 1 : ℕ) : ℚ) := by
      decide +kernel
    simp only [row, collide]
  have full : (row (2 ^ 24)).1.length = b := by
    have earlier : (2 : ℕ) ^ 24 ≠ k := by omega
    simp only [row, length_blockProduct, width, if_neg earlier, min_self]
  have lost := lost_of_collision same (rest.map row)
  rw [full] at lost
  obtain ⟨_, values, _, shown⟩ := values_of_exact exact room count columns small some_row
    (History.given_ofList _) inputs
  exact lost.extractValues_ne block _ shown

/-- An empty block is lost on the way: after it has been merged once, there is no key to read. -/
theorem inside_of_exact : k * b < m := by
  by_contra outside
  obtain ⟨_, cuts⟩ := cuts_of_exact exact room count columns small
  let row : ℕ → Row R := fun i =>
    (blockProduct (replicate n 0) (0 : Matrix (Fin n) (Fin m) R) b k i, round i)
  let empty : History (Row R) := .merge .fresh (.raw .fresh (row k))
  have nil : (row k).1 = [] := by
    apply length_eq_zero_iff.mp
    simp only [row, length_blockProduct, width, if_true]
    omega
  have parts : (History.merge (History.ofList ((range k).map row)) empty).Given :=
    ⟨History.given_ofList _, ⟨trivial, trivial, Multiset.cons_ne_zero⟩, by
      simp only [empty, History.inputs, zero_add]
      exact Multiset.cons_ne_zero⟩
  have inputs : (History.merge (History.ofList ((range k).map row)) empty).inputs =
      (productRows (replicate n 0) (0 : Matrix (Fin n) (Fin m) R) b k : Multiset (Row R)) := by
    simp only [History.inputs, History.inputs_ofList, empty, productRows, range_succ, map_append, zero_add]
    rfl
  obtain ⟨merge, _⟩ := values_of_exact exact room count columns small some_row parts inputs
  obtain ⟨_, _, merge⟩ := Option.bind_eq_some_iff.mp merge
  obtain ⟨part, found, merge⟩ := Option.bind_eq_some_iff.mp merge
  have keys : part.numBlocks = 0 := by
    rw [eq_run_of_merged found]
    simp [empty, Aggregate.run, catArray, extractAccumulators, addRawInput, ValueVector.insertValue, nil,
      ValueVector.empty, addIntermediateResults, ValueVector.numBlocks]
  rw [if_pos keys] at merge
  cases merge

theorem resolved_of_exact [Nontrivial R] (block : 0 < b) : Resolved rows.selected index := by
  rw [← readFor_iff_resolved rows.ascending]
  intro row mem
  obtain ⟨source, listed, given⟩ := (collected_collect index rows.ascending).readFor_mem row mem
  by_contra other
  have apart : index source ≠ index row := fun same => other (by rw [given, same])
  have first := rows_pos_of_exact exact room count
  let W : Matrix (Fin n) (Fin m) R := fun r _ => if r = ⟨0, first⟩ then 1 else 0
  let product := productRows (replicate n 0) W b k
  obtain ⟨vector, merge, expected⟩ := products_of_exact exact room count columns small (index row) W mem listed given
    (History.given_ofList product) (by rw [if_neg apart, History.inputs_ofList])
  obtain rfl := eq_run_of_merged merge
  rw [extractValues_of_fits (replicate n 0) W columns
    (indices_of_exact exact room count columns small some_row block)
    (inside_of_exact exact room count columns small some_row).le
    (cover_of_exact exact room count columns small some_row) (History.inputs_ofList product), if_pos rfl,
    Option.some.injEq, map_inj_right fun _ _ same => Option.some.inj same] at expected
  have entries := congrFun (ofFn_injective expected) ⟨0, columns⟩
  simp [Matrix.vecMul, dotProduct, vectorOf, W] at entries

end

/-- Blocked multiplication gives every row of a batch its product if and only if a repeated vector is found
again, the sizes fit, and single precision counts the blocks. -/
theorem blockedMultiply_exact_iff [Nontrivial R] {n m b : ℕ} {rows : SelectivityVector} {index : ℕ → ℕ}
    (some_row : rows.selected ≠ []) (room : rows.endRow * min b m < 2 ^ 31) (small : m < 2 ^ 31) (block : 0 < b) :
    Exact R n m b rows index ↔ Resolved rows.selected index ∧ Fits n m b := by
  refine ⟨fun exact => ?_, fun ⟨resolved, fits⟩ => exact_of_fits small block resolved fits⟩
  have columns := columns_pos_of_exact exact room some_row
  obtain ⟨k, count⟩ : ∃ k, ceilQuotient m b = k + 1 :=
    ⟨_, (Nat.sub_add_cancel (one_le_ceilQuotient columns block)).symm⟩
  obtain ⟨_, cuts⟩ := cuts_of_exact exact room count columns small
  have inside := inside_of_exact exact room count columns small some_row
  have cover := cover_of_exact exact room count columns small some_row
  have indices := indices_of_exact exact room count columns small some_row block
  have exactCount := (blockCount_eq_iff columns block).mpr ⟨inside, cover⟩
  refine ⟨resolved_of_exact exact room count columns small some_row block, rows_pos_of_exact exact room count, columns,
    cuts.total, ?_, narrow_of_exact exact room count columns small, ?_⟩
  · rcases Nat.eq_zero_or_pos k with rfl | several
    · have last := cuts.last
      rw [Nat.zero_mul, Nat.sub_zero] at last
      exact lt_of_le_of_lt (Nat.mul_le_mul_left n (min_le_right b m)) last
    · exact lt_of_le_of_lt (Nat.mul_le_mul_left n (min_le_left b m)) (cuts.full several)
  · rw [counted_iff columns block, count, exactCount]
    exact ⟨rfl, by omega⟩

/-- A matrix with two rows and a ragged last block, and a dictionary in which the first vector comes twice. -/
theorem blockedMultiply_exact_ragged : Exact ℤ 2 3 2 (.all 3) (fun row => row % 2) :=
  (blockedMultiply_exact_iff (by decide) (by decide) (by decide) (by decide)).mpr
    ⟨by decide, by decide, by decide, by decide, by decide, nofun,
      counted_of_columns_le (by decide) (by decide) (by decide)⟩

/-- Two rows with the blocks `[2]` and `[3]` in one vector. -/
def twoBlocks : ArrayVector ℤ := ⟨fun _ => false, [⟨0, 1⟩, ⟨1, 1⟩], [2, 3], by decide⟩

/-- One more column than `2 ^ 24` is one too many for 262144 blocks of 64 columns; the product of 65536
and 65536 is zero as an `int`; without rows the code divides by zero; a repeated vector may be taken for
another; and the second of two blocks in one vector is not used. -/
theorem blockedMultiply_not_exact : ¬ Exact ℤ 1 (2 ^ 24 + 1) 64 (.all 1) id ∧ ¬ Exact ℤ 65536 10 65536 (.all 1) id ∧
    ¬ Exact ℤ 0 1 1 (.all 1) id ∧ ¬ Exact ℤ 1 1 1 (.all 3) (fun row => if row = 0 then 1 else 0) ∧
    (matrixMultiplyH 1 1 0 (.all 2) ⟨marked 1 0 0, fun _ => 0⟩ twoBlocks (arrayVector [])).map
      (·.valuesAt 1) = .ok [2] := by
  refine ⟨fun exact => ?_, fun exact => ?_, fun exact => ?_, fun exact => ?_, rfl⟩
  · have count : ceilQuotient (2 ^ 24 + 1) 64 = 262143 + 1 := by decide +kernel
    have cover := cover_of_exact exact (by decide) count (by decide) (by decide) (by decide)
    exact absurd cover (by decide)
  · have count : ceilQuotient 10 65536 = 0 + 1 := by decide +kernel
    have narrow := narrow_of_exact exact (by decide) count (by decide) (by decide) (by decide)
    exact absurd narrow (by decide)
  · have count : ceilQuotient 1 1 = 0 + 1 := by decide +kernel
    exact absurd (rows_pos_of_exact exact (by decide) count) (by decide)
  · have count : ceilQuotient 1 1 = 0 + 1 := by decide +kernel
    have resolved := resolved_of_exact exact (by decide) count (by decide) (by decide) (by decide) (by decide)
    exact absurd resolved (by decide)

end CactusDB.MlFunctions.BlockedMultiply
