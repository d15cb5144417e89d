import CactusDB.Library.Buffer
import Mathlib

/-! The window function `ntile`, which is given a partition in several calls. -/

namespace CactusDB.Functions.Ntile

open Library Fallible Buffer List

structure BucketMetrics where
  rowsPerBucket : Nat
  bucketsWithExtraRow : Nat
  extraBucketsBoundary : Nat

namespace BucketMetrics

def computeBucketValue (metrics : BucketMetrics) (rowNumber : Nat) : Nat :=
  if rowNumber < metrics.extraBucketsBoundary then rowNumber / (metrics.rowsPerBucket + 1) + 1
  else (rowNumber - metrics.bucketsWithExtraRow) / metrics.rowsPerBucket + 1

/-- The first loop stops at the boundary, and the second goes on from there. -/
def computeBucketValues (metrics : BucketMetrics) : (numRows partitionOffset : Nat) → List Nat
  | 0, _ => []
  | numRows + 1, j =>
    if j < metrics.extraBucketsBoundary then
      (j / (metrics.rowsPerBucket + 1) + 1) :: metrics.computeBucketValues numRows (j + 1)
    else
      (range' j (numRows + 1)).map fun row => (row - metrics.bucketsWithExtraRow) / metrics.rowsPerBucket + 1

end BucketMetrics

def computeBucketMetrics (numPartitionRows numBuckets : Nat) : BucketMetrics :=
  let rowsPerBucket := numPartitionRows / numBuckets
  let bucketsWithExtraRow := numPartitionRows % numBuckets
  ⟨rowsPerBucket, bucketsWithExtraRow, (rowsPerBucket + 1) * bucketsWithExtraRow⟩

inductive Argument
  | constant (value : Option Int)
  | column

structure NtileFunction where
  numFixedBuckets : Option Nat
  bucketColumn : Bool
  fixedBucketsMoreThanPartition : Bool
  fixedBucketMetrics : BucketMetrics
  numPartitionRows : Nat
  partitionOffset : Nat

def checkBuckets (numBuckets : Int) : Except String Nat :=
  if 1 ≤ numBuckets then .ok numBuckets.toNat else .error "Buckets must be greater than 0"

def create : Argument → Except String NtileFunction
  | .constant (some value) => do return ⟨some (← checkBuckets value), false, true, ⟨0, 0, 0⟩, 0, 0⟩
  | .constant none => .ok ⟨none, false, true, ⟨0, 0, 0⟩, 0, 0⟩
  | .column => .ok ⟨none, true, true, ⟨0, 0, 0⟩, 0, 0⟩

namespace NtileFunction

def resetPartition (self : NtileFunction) (numRows : Nat) : NtileFunction :=
  let self := { self with partitionOffset := 0, numPartitionRows := numRows }
  match self.numFixedBuckets with
  | some numBuckets =>
    { self with
      fixedBucketsMoreThanPartition := numRows < numBuckets
      fixedBucketMetrics :=
        if numRows < numBuckets then self.fixedBucketMetrics else computeBucketMetrics numRows numBuckets }
  | none => self

/-- The column holds the number of buckets for each row of the partition. -/
def computeNtileFromColumn (self : NtileFunction) (column : List (Option Int)) (numRows : Nat) :
    Except String (List (Option Nat)) :=
  ((slice column self.partitionOffset numRows).zipIdx self.partitionOffset).mapM fun (entry, row) =>
    match entry with
    | none => .ok none
    | some value => do
      let numBuckets ← checkBuckets value
      if self.numPartitionRows < numBuckets then return some (row + 1)
      else return some ((computeBucketMetrics self.numPartitionRows numBuckets).computeBucketValue row)

def computeNtileWithConstants (self : NtileFunction) (numRows : Nat) : List (Option Nat) :=
  if self.numFixedBuckets.isNone then replicate numRows none
  else if self.fixedBucketsMoreThanPartition then (range' (self.partitionOffset + 1) numRows).map some
  else (self.fixedBucketMetrics.computeBucketValues numRows self.partitionOffset).map some

def apply (self : NtileFunction) (column : List (Option Int)) (numRows : Nat) :
    Except String (List (Option Nat) × NtileFunction) := do
  let values ← if self.bucketColumn then self.computeNtileFromColumn column numRows
    else pure (self.computeNtileWithConstants numRows)
  return (values, { self with partitionOffset := self.partitionOffset + numRows })

def applyAll (column : List (Option Int)) : (calls : List Nat) → NtileFunction → Except String (List (Option Nat))
  | [], _ => .ok []
  | numRows :: calls, self => do
    let (values, self) ← self.apply column numRows
    return values ++ (← applyAll column calls self)

end NtileFunction

def ntile (argument : Argument) (column : List (Option Int)) (calls : List Nat) :
    Except String (List (Option Nat)) := do
  ((← create argument).resetPartition column.length).applyAll column calls

open NtileFunction BucketMetrics

/-- How many rows a bucket has, of `buckets` buckets that are as even as they can be. -/
def bucketSize (rows buckets bucket : Nat) : Nat := rows / buckets + if bucket < rows % buckets then 1 else 0

theorem computeBucketValues_eq (metrics : BucketMetrics) (numRows partitionOffset : Nat) :
    metrics.computeBucketValues numRows partitionOffset =
      (range' partitionOffset numRows).map metrics.computeBucketValue := by
  induction numRows generalizing partitionOffset with
  | zero => rfl
  | succ numRows ih =>
    rw [computeBucketValues]
    split
    case isTrue before =>
      rw [ih, range'_succ, map_cons, computeBucketValue, if_pos before]
    case isFalse reached =>
      apply map_congr_left
      intro row mem
      have later := (mem_range'_1.mp mem).1
      rw [computeBucketValue, if_neg (by omega)]

theorem computeBucketValue_eq {rows buckets bucket i : Nat} (inside : i < bucketSize rows buckets bucket) :
    (computeBucketMetrics rows buckets).computeBucketValue
      (bucket * (rows / buckets) + min bucket (rows % buckets) + i) = bucket + 1 := by
  unfold bucketSize at inside
  unfold computeBucketValue computeBucketMetrics
  dsimp only
  generalize rows / buckets = q at *
  generalize rows % buckets = r at *
  by_cases extra : bucket < r
  · rw [if_pos extra] at inside
    have before := rowMajor_lt extra inside
    rw [Nat.mul_comm r] at before
    rw [Nat.min_eq_left (Nat.le_of_lt extra), ← Nat.mul_succ, if_pos before, rowMajor_div inside]
  · rw [if_neg extra, Nat.add_zero] at inside
    have reached : q * r ≤ bucket * q := Nat.mul_comm q r ▸ Nat.mul_le_mul_right q (Nat.le_of_not_lt extra)
    rw [Nat.min_eq_right (Nat.le_of_not_lt extra), if_neg (by rw [Nat.succ_mul]; omega), Nat.add_right_comm,
      Nat.add_sub_cancel, rowMajor_div inside]

theorem map_computeBucketValue {rows buckets : Nat} (some : 0 < buckets) :
    (range rows).map (computeBucketMetrics rows buckets).computeBucketValue =
      (range buckets).flatMap fun bucket => replicate (bucketSize rows buckets bucket) (bucket + 1) := by
  have upTo : ∀ count, (range (count * (rows / buckets) + min count (rows % buckets))).map
      (computeBucketMetrics rows buckets).computeBucketValue =
        (range count).flatMap fun bucket => replicate (bucketSize rows buckets bucket) (bucket + 1) := by
    intro count
    induction count with
    | zero => simp
    | succ count ih =>
      have next : (count + 1) * (rows / buckets) + min (count + 1) (rows % buckets) =
          count * (rows / buckets) + min count (rows % buckets) + bucketSize rows buckets count := by
        rw [bucketSize, Nat.succ_mul]
        split <;> omega
      rw [next, range_add, map_append, ih, range_succ, flatMap_append, flatMap_singleton, map_map]
      congr 1
      refine eq_replicate_iff.mpr ⟨by simp, fun value mem => ?_⟩
      obtain ⟨i, inside, rfl⟩ := mem_map.mp mem
      exact computeBucketValue_eq (mem_range.mp inside)
  have whole := upTo buckets
  rwa [Nat.min_eq_right (Nat.le_of_lt (Nat.mod_lt rows some)), Nat.div_add_mod] at whole

def valueOf (size numBuckets row : Nat) : Nat :=
  if size < numBuckets then row + 1 else (computeBucketMetrics size numBuckets).computeBucketValue row

theorem map_valueOf (size : Nat) {numBuckets : Nat} (some : 1 ≤ numBuckets) :
    (range size).map (valueOf size numBuckets) =
    (range (min numBuckets size)).flatMap fun bucket =>
      replicate (bucketSize size (min numBuckets size) bucket) (bucket + 1) := by
  rcases Nat.eq_zero_or_pos size with rfl | present
  · simp
  · rw [← map_computeBucketValue (by omega)]
    apply map_congr_left
    intro row inside
    unfold valueOf
    split
    case isTrue more =>
      rw [Nat.min_eq_right (Nat.le_of_lt more)]
      simp [computeBucketMetrics, computeBucketValue, Nat.div_self present]
    case isFalse less => rw [Nat.min_eq_left (Nat.le_of_not_lt less)]

theorem applyAll_eq (self : NtileFunction) {column : List (Option Int)} {size : Nat} {value : Nat → Nat}
    (each : ∀ offset numRows, offset + numRows ≤ size → { self with partitionOffset := offset }.apply column numRows =
      .ok ((range' offset numRows).map fun row => some (value row), { self with partitionOffset := offset + numRows }))
    {calls : List Nat} {offset : Nat} (inside : offset + calls.sum ≤ size) :
    { self with partitionOffset := offset }.applyAll column calls =
      .ok ((range' offset calls.sum).map fun row => some (value row)) := by
  induction calls generalizing offset with
  | nil => rfl
  | cons numRows calls ih =>
    rw [sum_cons] at inside ⊢
    have later := ih (by omega : offset + numRows + calls.sum ≤ size)
    rw [applyAll, each offset numRows (by omega), ← range'_append_1, map_append]
    change applyAll .. >>= _ = _
    rw [later]
    rfl

section

variable {numBuckets : Int} (positive : 1 ≤ numBuckets) {calls : List Nat}
include positive

theorem ntile_constant {column : List (Option Int)} (whole : calls.sum = column.length) :
    ntile (.constant (some numBuckets)) column calls =
      .ok ((range column.length).map fun row => some (valueOf column.length numBuckets.toNat row)) := by
  rw [ntile, create, checkBuckets, if_pos positive, range_eq_range', ← whole]
  refine applyAll_eq (resetPartition ⟨some numBuckets.toNat, false, true, ⟨0, 0, 0⟩, 0, 0⟩ calls.sum)
    (fun offset numRows _ => congrArg (fun values => Except.ok (values, _)) ?_) (Nat.le_of_eq (Nat.zero_add _))
  unfold computeNtileWithConstants resetPartition valueOf
  by_cases more : calls.sum < numBuckets.toNat
  · simp [more, range'_eq_map_range, Nat.add_right_comm]
  · simp [more, computeBucketValues_eq]

theorem computeNtileFromColumn_eq {size offset numRows : Nat} (inside : offset + numRows ≤ size) :
    computeNtileFromColumn ⟨none, true, true, ⟨0, 0, 0⟩, size, offset⟩
      (replicate size (some numBuckets)) numRows =
        .ok ((range' offset numRows).map fun row => some (valueOf size numBuckets.toNat row)) := by
  have entries : slice (replicate size (some numBuckets)) offset numRows = replicate numRows (some numBuckets) := by
    rw [slice, drop_replicate, take_replicate, Nat.min_eq_left (by omega)]
  have rows : ((replicate numRows (some numBuckets)).zipIdx offset).map Prod.snd = range' offset numRows := by
    rw [zipIdx_map_snd, length_replicate]
  rw [computeNtileFromColumn, entries, ← rows, map_map]
  apply mapM_eq_pure
  rintro ⟨entry, row⟩ mem
  obtain rfl := eq_of_mem_replicate (fst_mem_of_mem_zipIdx mem)
  dsimp only
  rw [checkBuckets, if_pos positive]
  change (if size < numBuckets.toNat then _ else _) = pure (some (if size < numBuckets.toNat then _ else _))
  split <;> rfl

theorem ntile_column {size : Nat} (whole : calls.sum = size) :
    ntile .column (replicate size (some numBuckets)) calls =
      .ok ((range size).map fun row => some (valueOf size numBuckets.toNat row)) := by
  rw [ntile, length_replicate, range_eq_range', whole.symm]
  refine applyAll_eq ⟨none, true, true, ⟨0, 0, 0⟩, calls.sum, 0⟩ (fun offset numRows inside => ?_)
    (Nat.le_of_eq (Nat.zero_add _))
  change computeNtileFromColumn .. >>= _ = _
  rw [computeNtileFromColumn_eq positive inside]
  rfl

/-- A partition is cut into buckets as evenly as it can be, with a constant and with a column. -/
theorem ntile_even {size : Nat} (whole : calls.sum = size) {column : List (Option Int)} (rows : column.length = size) :
    let used := min numBuckets.toNat size
    let even := (range used).flatMap fun bucket => replicate (bucketSize size used bucket) (some (bucket + 1))
    ntile (.constant (some numBuckets)) column calls = .ok even ∧
      ntile .column (replicate size (some numBuckets)) calls = .ok even ∧
      ∀ bucket < used, 0 < bucketSize size used bucket := by
  intro used even
  have values : ((range size).map fun row => some (valueOf size numBuckets.toNat row)) = even := by
    have numbers := congrArg (map some) (map_valueOf size (by omega : 1 ≤ numBuckets.toNat))
    rw [map_map, map_flatMap] at numbers
    simp only [map_replicate] at numbers
    exact numbers
  subst rows
  refine ⟨values ▸ ntile_constant positive whole, values ▸ ntile_column positive whole, fun bucket inside => ?_⟩
  have full : 0 < column.length / used := Nat.div_pos (Nat.min_le_right _ _) (Nat.zero_lt_of_lt inside)
  exact Nat.add_pos_left full _

end

theorem three_buckets : ntile (.constant (some 3)) [none, none, none, none, none] [2, 3] =
    .ok [some 1, some 1, some 2, some 2, some 3] :=
  (ntile_even (by decide : (1 : Int) ≤ 3) rfl rfl).1

end CactusDB.Functions.Ntile
