import CactusDB.Library.Binary32
import CactusDB.Library.Buffer
import CactusDB.Library.Fallible
import CactusDB.Library.FixedWidth
import Mathlib.Data.Matrix.Mul

/-! A weight matrix is cut into blocks of columns. The number of blocks is computed in single precision;
sizes and positions are of type `int`. -/

namespace CactusDB.MlFunctions.ColumnBlocks
open Library Binary32 FixedWidth List Function

variable {R : Type*}

/-- An array read at an `int`. -/
def readAt (values : List R) (place : ℤ) : Option R :=
  if 0 ≤ signed 32 place then values[(signed 32 place).toNat]? else none

section

variable {α : Type*}

def grid (rows width : ℕ) (entry : ℕ → ℕ → α) : List α :=
  (range rows).flatMap fun r => (range width).map (entry r)

variable (rows width : ℕ) (entry : ℕ → ℕ → α)

@[simp] theorem length_grid : (grid rows width entry).length = rows * width := by
  simp [grid, length_flatMap]

theorem grid_succ : grid (rows + 1) width entry =
      grid rows width entry ++ (range width).map (entry rows) := by
  simp [grid, range_succ]

theorem getElem?_grid {rows width r c : ℕ} (row : r < rows) (column : c < width) :
    (grid rows width entry)[r * width + c]? = some (entry r c) := by
  induction rows with
  | zero => omega
  | succ rows ih =>
    rw [grid_succ]
    by_cases earlier : r < rows
    · rw [getElem?_append_left (by simpa using Buffer.rowMajor_lt earlier column), ih earlier]
    · obtain rfl : r = rows := by omega
      rw [getElem?_append_right (by simp), length_grid, Nat.add_sub_cancel_left]
      simp [column]

theorem mem_grid {value : α} : value ∈ grid rows width entry ↔ ∃ r < rows, ∃ c < width, entry r c = value := by
  simp [grid]

theorem grid_linear (f : ℕ → α) : (grid rows width fun r c => f (r * width + c)) = (range (rows * width)).map f := by
  induction rows with
  | zero => simp [grid]
  | succ rows ih => rw [grid_succ, ih, Nat.succ_mul, range_add, map_append, map_map]; rfl

theorem grid_eq_map : grid rows width entry = (grid rows width Prod.mk).map fun place => entry place.1 place.2 := by
  simp [grid, map_flatMap, comp_def]

end

/-- One block, row by row. Its length is negative or too small for what is written to it if the product is
not an `int`. -/
def copyBlock (row col : ℕ) (values : List R) (currentCol width : ℤ) : Option (List R) :=
  let size := signed 32 (row * width)
  if size < 0 then none
  else (grid row width.toNat Prod.mk).mapM fun place =>
    let written := signed 32 (place.1 * width + place.2)
    if 0 ≤ written ∧ written < size then readAt values (place.1 * col + currentCol + place.2) else none

/-- The loop of `createBlocks` with `remaining` blocks to go. -/
def createBlocksFrom (row col : ℕ) (values : List R) (blockSize : ℕ) : ℕ → ℤ → Option (List (List R))
  | 0, _ => some []
  | remaining + 1, currentCol =>
    let currentBlockSize : ℤ := if remaining = 0 then signed 32 (col - currentCol) else blockSize
    match copyBlock row col values currentCol currentBlockSize with
    | none => none
    | some block =>
      (createBlocksFrom row col values blockSize remaining (signed 32 (currentCol + currentBlockSize))).map (block :: ·)

/-- The number of blocks is computed in single precision; one that is not an `int` is not defined. -/
def createBlocks (row col : ℕ) (values : List R) (blockSize : ℕ) : Option (List (List R)) :=
  if 2 ^ 31 ≤ ceilQuotient col blockSize then none
  else createBlocksFrom row col values blockSize (ceilQuotient col blockSize) 0

def rowMajor {n m : ℕ} (W : Matrix (Fin n) (Fin m) R) : List R :=
  ofFn fun position : Fin (n * m) => W position.divNat position.modNat

@[simp] theorem length_rowMajor {n m : ℕ} (W : Matrix (Fin n) (Fin m) R) : (rowMajor W).length = n * m := by
  simp [rowMajor]

section

variable {values : List R}

theorem readAt_natCast {place : ℕ} (small : place < 2 ^ 31) : readAt values place = values[place]? := by
  rw [readAt, signed_natCast (by decide) small, if_pos (Int.natCast_nonneg place), Int.toNat_natCast]

/-- Behind the last `int` comes the least. -/
theorem readAt_two_pow : readAt values ((2 ^ 31 : ℕ) : ℤ) = none := by
  have wrapped : signed 32 ((2 ^ 31 : ℕ) : ℤ) = -2 ^ 31 := by decide
  rw [readAt, wrapped, if_neg (by decide)]

/-- The place behind the values is not read. -/
theorem readAt_length (total : values.length ≤ 2 ^ 31) : readAt values (values.length : ℤ) = none := by
  rcases total.eq_or_lt with same | less
  · rw [same]
    exact readAt_two_pow
  · rw [readAt_natCast less]
    exact getElem?_eq_none le_rfl

end

variable [Zero R] {n m : ℕ} (W : Matrix (Fin n) (Fin m) R)

def entry (r k : ℕ) : R := if inside : r < n ∧ k < m then W ⟨r, inside.1⟩ ⟨k, inside.2⟩ else 0

def slice (start width : ℕ) : List R := grid n width fun r c => entry W r (start + c)

@[simp] theorem length_slice (start width : ℕ) : (slice W start width).length = n * width := length_grid _ _ _

variable {k b : ℕ}

theorem getElem?_rowMajor {r : ℕ} (row : r < n) (column : k < m) : (rowMajor W)[r * m + k]? = some (entry W r k) := by
  simp [rowMajor, entry, row, column, Fin.divNat, Fin.modNat, Nat.mod_eq_of_lt, Buffer.rowMajor_lt,
    Buffer.rowMajor_div]

theorem copyBlock_eq (start width : ℕ) (inside : start + width ≤ m) (total : n * m ≤ 2 ^ 31)
    (size : n * width < 2 ^ 31) : copyBlock n m (rowMajor W) start width = some (slice W start width) := by
  have length : signed 32 ((n : ℤ) * width) = (n * width : ℕ) := by
    rw [← Int.natCast_mul]
    exact signed_natCast (by decide) size
  unfold copyBlock
  rw [length, if_neg (Int.natCast_nonneg _).not_gt, Int.toNat_natCast, slice,
    grid_eq_map _ _ fun r c => entry W r (start + c)]
  apply Fallible.mapM_eq_pure
  rintro ⟨r, c⟩ mem
  obtain ⟨r, row, c, column, same⟩ := (mem_grid _ _ _).mp mem
  obtain ⟨rfl, rfl⟩ := Prod.mk.inj same
  have place := Buffer.rowMajor_lt row column
  have shifted : start + c < m := (Nat.add_lt_add_left column start).trans_le inside
  have source : r * m + (start + c) < n * m := Buffer.rowMajor_lt row shifted
  have written : signed 32 ((r : ℤ) * width + c) = (r * width + c : ℕ) := by
    rw [← Int.natCast_mul, ← Int.natCast_add]
    exact signed_natCast (by decide) (place.trans size)
  have read : (r : ℤ) * m + start + c = (r * m + (start + c) : ℕ) := by
    push_cast
    ring
  dsimp only
  rw [written, if_pos ⟨Int.natCast_nonneg _, Int.ofNat_lt.mpr place⟩, read, readAt_natCast (source.trans_le total),
    getElem?_rowMajor W row shifted]
  rfl

section

variable {values : List R} {start width : ℕ} {block : List R}
  (done : copyBlock n m values start width = some block)
include done

omit [Zero R] in
theorem copyBlock_reads {r c : ℕ} (row : r < n) (column : c < width) :
    (readAt values ((r * m + (start + c) : ℕ) : ℤ)).isSome := by
  by_contra missing
  have read : (r : ℤ) * m + start + c = (r * m + (start + c) : ℕ) := by
    push_cast
    ring
  unfold copyBlock at done
  dsimp only at done
  split at done
  · cases done
  · rw [Fallible.mapM_eq_none ((mem_grid _ _ _).mpr ⟨r, row, c, by simpa using column, rfl⟩)] at done
    · cases done
    · dsimp only
      rw [read, Option.not_isSome_iff_eq_none.mp missing, ite_self]

omit [Zero R] in
/-- A block of `2 ^ 31` entries or more is not written. -/
theorem copyBlock_size : n * width < 2 ^ 31 := by
  by_contra large
  have positive : 0 < width := Nat.pos_of_ne_zero fun zero => by simp [zero] at large
  unfold copyBlock at done
  dsimp only at done
  split at done
  case isTrue => cases done
  case isFalse nonnegative =>
    obtain ⟨size, isSize⟩ := Int.eq_ofNat_of_zero_le (not_lt.mp nonnegative)
    have small : (size : ℤ) < 2 ^ 31 := by
      rw [← isSize]
      exact (signed_bounds (by decide) _).2
    have less : size < 2 ^ 31 := by exact_mod_cast small
    -- The place behind the short block is written for one of the entries.
    have row : size / width < n := Nat.div_lt_of_lt_mul (by rw [Nat.mul_comm]; omega)
    have column : size % width < ((width : ℤ)).toNat := by simpa using Nat.mod_lt size positive
    have place : ((size / width : ℕ) : ℤ) * width + (size % width : ℕ) = size := by
      exact_mod_cast Nat.div_add_mod' size width
    rw [Fallible.mapM_eq_none ((mem_grid _ _ _).mpr ⟨_, row, _, column, rfl⟩)] at done
    · cases done
    · dsimp only
      rw [place, signed_natCast (by decide) less, isSize, if_neg fun inside => lt_irrefl _ inside.2]

end

/-- The closed form of the cut. -/
theorem createBlocksFrom_eq (columns : m < 2 ^ 31) (total : n * m ≤ 2 ^ 31) (k start : ℕ)
    (inside : start + k * b ≤ m) (last : n * (m - (start + k * b)) < 2 ^ 31) (full : 0 < k → n * b < 2 ^ 31) :
    createBlocksFrom n m (rowMajor W) b (k + 1) start =
      some ((range (k + 1)).map fun i =>
        slice W (start + i * b) (if i = k then m - (start + k * b) else b)) := by
  induction k generalizing start with
  | zero =>
    rw [Nat.zero_mul, Nat.add_zero] at inside last
    have width : signed 32 ((m : ℤ) - start) = (m - start : ℕ) := by
      rw [← Int.ofNat_sub inside]
      exact signed_natCast (by decide) (by omega)
    have block := copyBlock_eq W start (m - start) (by omega) total last
    simp [createBlocksFrom, width, block]
  | succ k ih =>
    have shift : start + (k + 1) * b = start + b + k * b := by ring
    rw [shift] at inside last
    have block := copyBlock_eq W start b (by omega) total (full k.succ_pos)
    have rest := ih (start + b) inside last fun _ => full k.succ_pos
    have next : signed 32 ((start : ℤ) + b) = (start + b : ℕ) := by
      rw [← Int.natCast_add]
      exact signed_natCast (by decide) (by omega)
    rw [createBlocksFrom]
    simp only [Nat.succ_ne_zero, if_false, block, next, rest, Option.map_some, range_succ_eq_map (n := k + 1), map_cons,
      map_map, shift]
    refine congrArg some (congrArg₂ cons (by simp) (map_congr_left fun i _ => ?_))
    simp only [comp_apply, Nat.succ_eq_add_one, Nat.add_right_cancel_iff]
    rw [show start + (i + 1) * b = start + b + i * b by ring]

section

variable {values : List R} {blocks : List (List R)}

omit [Zero R] in
/-- The first round of the loop, with what it leaves to the others. -/
theorem createBlocksFrom_cases {start : ℕ} (columns : m < 2 ^ 31) (inside : start ≤ m)
    (done : createBlocksFrom n m values b (k + 1) start = some blocks) :
    (k = 0 ∧ ∃ first, copyBlock n m values start (m - start : ℕ) = some first) ∨
      ∃ fewer, k = fewer + 1 ∧ (∃ first, copyBlock n m values start b = some first) ∧
        (start + b ≤ m → ∃ rest, createBlocksFrom n m values b (fewer + 1) (start + b : ℕ) = some rest) := by
  rw [createBlocksFrom] at done
  cases k with
  | zero =>
    have width : signed 32 ((m : ℤ) - start) = (m - start : ℕ) := by
      rw [← Int.ofNat_sub inside]
      exact signed_natCast (by decide) (by omega)
    simp only [if_true, width] at done
    split at done
    · cases done
    · next first found => exact .inl ⟨rfl, first, found⟩
  | succ fewer =>
    simp only [Nat.succ_ne_zero, if_false] at done
    split at done
    · cases done
    · next first found =>
        refine .inr ⟨fewer, rfl, ⟨first, found⟩, fun room => ?_⟩
        have next : signed 32 ((start : ℤ) + b) = (start + b : ℕ) := by
          rw [← Int.natCast_add]
          exact signed_natCast (by decide) (by omega)
        rw [next] at done
        obtain ⟨rest, later, _⟩ := Option.map_eq_some_iff.mp done
        exact ⟨rest, later⟩

variable {start : ℕ} (columns : m < 2 ^ 31) (inside : start ≤ m)
  (done : createBlocksFrom n m values b (k + 1) start = some blocks)

include columns inside done

omit [Zero R] in
/-- Every entry of the columns that are left is read. -/
theorem reads_of_createBlocksFrom {r column : ℕ} (row : r < n) (least : start ≤ column) (most : column < m) :
    (readAt values ((r * m + column : ℕ) : ℤ)).isSome := by
  induction k generalizing start blocks with
  | zero =>
    obtain ⟨_, first, found⟩ | ⟨_, impossible, _⟩ := createBlocksFrom_cases columns inside done
    · have read := copyBlock_reads found row (c := column - start) (by omega)
      rwa [Nat.add_sub_cancel' least] at read
    · omega
  | succ k ih =>
    obtain ⟨impossible, _⟩ | ⟨fewer, same, ⟨first, found⟩, later⟩ := createBlocksFrom_cases columns inside done
    · omega
    · obtain rfl : k = fewer := by omega
      by_cases here : column < start + b
      · have read := copyBlock_reads found row (c := column - start) (by omega)
        rwa [Nat.add_sub_cancel' least] at read
      · obtain ⟨rest, others⟩ := later (by omega)
        exact ih (by omega) others (by omega)

omit [Zero R] in
/-- No block reaches behind the last column, and each is small enough to be written. -/
theorem bounds_of_createBlocksFrom (rows : 0 < n) (length : values.length = n * m) (total : n * m ≤ 2 ^ 31) :
    start + k * b ≤ m ∧ n * (m - (start + k * b)) < 2 ^ 31 ∧ (0 < k → n * b < 2 ^ 31) := by
  induction k generalizing start blocks with
  | zero =>
    obtain ⟨_, first, found⟩ | ⟨_, impossible, _⟩ := createBlocksFrom_cases columns inside done
    · rw [Nat.zero_mul, Nat.add_zero]
      exact ⟨inside, copyBlock_size found, nofun⟩
    · omega
  | succ k ih =>
    obtain ⟨impossible, _⟩ | ⟨fewer, same, ⟨first, found⟩, later⟩ := createBlocksFrom_cases columns inside done
    · omega
    obtain rfl : k = fewer := by omega
    have room : start + b ≤ m := by
      by_contra outside
      -- The entry behind the last row would be read.
      have read := copyBlock_reads found (r := n - 1) (c := m - start) (by omega) (by omega)
      have place : (n - 1) * m + (start + (m - start)) = values.length := by
        rw [Nat.add_sub_cancel' inside, length, ← Nat.succ_mul, Nat.succ_eq_add_one, Nat.sub_add_cancel rows]
      rw [place, readAt_length (length.trans_le total)] at read
      cases read
    obtain ⟨rest, others⟩ := later room
    obtain ⟨bound, last, _⟩ := ih room others
    rw [show start + (k + 1) * b = start + b + k * b by ring]
    exact ⟨bound, last, fun _ => copyBlock_size found⟩

end

/-- The sizes with which a matrix can be cut into `k + 1` blocks. -/
structure Cuts (n m b k : ℕ) : Prop where
  total : n * m ≤ 2 ^ 31
  inside : k * b ≤ m
  last : n * (m - k * b) < 2 ^ 31
  full : 0 < k → n * b < 2 ^ 31

/-- The width of block number `i`, of blocks up to number `k`. -/
def width (m b k i : ℕ) : ℕ := if i = k then m - k * b else b

theorem createBlocks_eq (columns : m < 2 ^ 31) (count : ceilQuotient m b = k + 1) (few : k + 1 < 2 ^ 31)
    (cuts : Cuts n m b k) :
    createBlocks n m (rowMajor W) b = some ((range (k + 1)).map fun i => slice W (i * b) (width m b k i)) := by
  have blocks := createBlocksFrom_eq W columns cuts.total k 0 (by simpa using cuts.inside) (by simpa using cuts.last)
    cuts.full
  simp only [Nat.zero_add, Nat.cast_zero] at blocks
  rw [createBlocks, count, if_neg (by omega), blocks]
  rfl

omit [Zero R] in
theorem cuts_of_createBlocks {values : List R} {blocks : List (List R)} (rows : 0 < n) (nonempty : 0 < m)
    (columns : m < 2 ^ 31) (length : values.length = n * m) (count : ceilQuotient m b = k + 1)
    (done : createBlocks n m values b = some blocks) : k + 1 < 2 ^ 31 ∧ Cuts n m b k := by
  rw [createBlocks, count] at done
  split at done
  case isTrue => cases done
  case isFalse few =>
    have cut : createBlocksFrom n m values b (k + 1) (0 : ℕ) = some blocks := done
    have total : n * m ≤ 2 ^ 31 := by
      by_contra large
      have row : 2 ^ 31 / m < n := Nat.div_lt_of_lt_mul (by rw [Nat.mul_comm]; omega)
      have read := reads_of_createBlocksFrom columns (Nat.zero_le m) cut row (Nat.zero_le _)
        (Nat.mod_lt (2 ^ 31) nonempty)
      rw [Nat.div_add_mod', readAt_two_pow] at read
      cases read
    obtain ⟨inside, last, full⟩ :=
      bounds_of_createBlocksFrom columns (Nat.zero_le m) cut rows length total
    rw [Nat.zero_add] at inside last
    exact ⟨by omega, total, inside, last, full⟩

/-- The columns of the blocks, one block after another, are the columns of the matrix. -/
theorem flatMap_columns {α : Type*} (f : ℕ → α) (inside : k * b ≤ m) :
    ((range (k + 1)).flatMap fun i =>
      (range (width m b k i)).map fun j => f (i * b + j)) = (range m).map f := by
  have full : ((range k).flatMap fun i =>
      (range (width m b k i)).map fun j => f (i * b + j)) = (range (k * b)).map f := by
    rw [← grid_linear, grid]
    apply flatMap_congr
    intro i earlier
    rw [mem_range] at earlier
    rw [width, if_neg (by omega)]
  have columns : m = k * b + (m - k * b) := by omega
  rw [range_succ, flatMap_append, full, flatMap_singleton, width, if_pos rfl]
  conv_rhs => rw [columns, range_add, map_append, map_map]
  rfl

/-- The number of blocks without rounding. -/
def blockCount (m b : ℕ) : ℕ := (m + b - 1) / b

theorem blockCount_eq_iff (columns : 0 < m) (block : 0 < b) :
    blockCount m b = k + 1 ↔ k * b < m ∧ m ≤ (k + 1) * b := by
  unfold blockCount
  rw [Nat.div_eq_iff block, Nat.succ_mul]
  omega

/-- Single precision finds the number of blocks, and can number them: the quotient of the rounded numbers
lies above the middle between the number before and the float that follows it, and below the middle
between the number itself and the float that follows. -/
def Counted (m b : ℕ) : Prop :=
  blockCount m b ≤ 2 ^ 24 ∧ (blockCount m b = 1 ∨ ¬ RoundsBelow (round m / round b) (blockCount m b - 1)) ∧
    RoundsBelow (round m / round b) (blockCount m b)

theorem counted_iff (columns : 0 < m) (block : 0 < b) :
    Counted m b ↔ ceilQuotient m b = blockCount m b ∧ blockCount m b ≤ 2 ^ 24 + 1 := by
  have positive : 0 < blockCount m b := Nat.div_pos (by omega) block
  have least := one_le_ceilQuotient columns block
  have skipped := ceilQuotient_ne_succ columns block
  unfold Counted
  generalize blockCount m b = c at *
  have upper : c ≤ 2 ^ 24 → (ceilQuotient m b ≤ c ↔ RoundsBelow (round m / round b) c) :=
    ceilQuotient_le_iff_roundsBelow columns block positive
  have lower : 1 < c → c ≤ 2 ^ 24 → (ceilQuotient m b ≤ c - 1 ↔ RoundsBelow (round m / round b) (c - 1)) :=
    fun several small => ceilQuotient_le_iff_roundsBelow columns block (by omega) (by omega)
  constructor
  · rintro ⟨small, before, below⟩
    have most := (upper small).mpr below
    rcases before with rfl | above
    · exact ⟨by omega, by omega⟩
    · by_cases several : 1 < c
      · have more := mt (lower several small).mp above
        omega
      · omega
  · rintro ⟨same, bound⟩
    have small : c ≤ 2 ^ 24 := by omega
    refine ⟨small, ?_, (upper small).mp same.le⟩
    by_cases several : 1 < c
    · exact .inr (mt (lower several small).mpr (by omega))
    · exact .inl (by omega)

theorem halfway_lt_of_mul_lt {whole : ℕ} (some : 0 < k) (below : k * b < whole) (small : whole ≤ 2 ^ 24)
    (block : 0 < b) : halfway k < whole / b := by
  have positive : (0 : ℚ) < b := by exact_mod_cast block
  have place : (2 : ℚ) ^ Nat.log 2 k ≤ k := by exact_mod_cast Nat.pow_log_le_self 2 some.ne'
  have next : (k * b + 1 : ℚ) ≤ whole := by exact_mod_cast below
  have gap : (k : ℚ) * b < 2 ^ 24 := by exact_mod_cast below.trans_le small
  rw [halfway, lt_div_iff₀ positive]
  calc ((k : ℚ) + 2 ^ Nat.log 2 k / 2 ^ 24) * b ≤ (k : ℚ) * b + k * b / 2 ^ 24 := by
        rw [add_mul, mul_div_right_comm]
        gcongr
    _ < (k : ℚ) * b + 1 := by
        gcongr
        rwa [div_lt_one (by norm_num)]
    _ ≤ (whole : ℚ) := next

theorem lt_halfway (k : ℕ) : (k : ℚ) < halfway k := by
  unfold halfway
  exact lt_add_of_pos_right _ (by positivity)

/-- Up to `2 ^ 24` columns the blocks are counted as they should be. -/
theorem counted_of_columns_le (columns : 0 < m) (small : m ≤ 2 ^ 24) (block : 0 < b) : Counted m b := by
  have wide : (m : ℚ) ≤ 2 ^ 24 := by exact_mod_cast small
  obtain ⟨k, count⟩ : ∃ k, blockCount m b = k + 1 := by
    have positive : 0 < blockCount m b := Nat.div_pos (by omega) block
    exact ⟨blockCount m b - 1, by omega⟩
  obtain ⟨lower, upper⟩ := (blockCount_eq_iff columns block).mp count
  rw [Counted, count, round_natCast small, Nat.add_sub_cancel]
  rcases le_or_gt b (2 ^ 24) with narrow | large
  · have positive : (0 : ℚ) < b := by exact_mod_cast block
    have few : k ≤ k * b := Nat.le_mul_of_pos_right k block
    have cover : (m : ℚ) / b ≤ (k + 1 : ℕ) := by
      rw [div_le_iff₀ positive]
      exact_mod_cast upper
    rw [round_natCast narrow]
    refine ⟨by omega, ?_, .inl (cover.trans_lt (lt_halfway _))⟩
    rcases Nat.eq_zero_or_pos k with rfl | several
    · exact .inl rfl
    · have above := halfway_lt_of_mul_lt several lower small block
      exact .inr fun below => by rcases below with less | ⟨same, _⟩ <;> linarith
  · obtain rfl : k = 0 := by
      by_contra several
      have := Nat.le_mul_of_pos_left b (Nat.pos_of_ne_zero several)
      omega
    have float : (2 : ℚ) ^ (24 : ℤ) ≤ round b := by
      obtain ⟨e, least, less⟩ := two_zpow_le_round (x := b) (by exact_mod_cast block)
      have exponent : (24 : ℤ) < e + 1 := by
        have above : (2 : ℚ) ^ (24 : ℤ) < 2 ^ (e + 1) := lt_trans (by exact_mod_cast large) less
        exact (zpow_lt_zpow_iff_right₀ (by norm_num)).mp above
      exact (zpow_le_zpow_right₀ (by norm_num) (by omega)).trans least
    have cover : (m : ℚ) / round b ≤ (0 + 1 : ℕ) := by
      rw [div_le_iff₀ (lt_of_lt_of_le (by norm_num) float)]
      push_cast
      linarith [show (2 : ℚ) ^ (24 : ℤ) = 2 ^ 24 by norm_cast]
    exact ⟨by norm_num, .inl rfl, .inl (cover.trans_lt (lt_halfway _))⟩

end CactusDB.MlFunctions.ColumnBlocks
