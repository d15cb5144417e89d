import CactusDB.Library.LinearProbing
import Mathlib.Data.Int.Interval

/-! Filters over 64-bit integers: ranges, lists of values in a hash table or a bitmask, their negations and
unions of ranges. -/

namespace CactusDB.Filters.BigintFilter
open Library.LinearProbing List

def minInt64 : Int := -2 ^ 63

def maxInt64 : Int := 2 ^ 63 - 1

def isInt64 (value : Int) : Prop := minInt64 ≤ value ∧ value ≤ maxInt64

instance (value : Int) : Decidable (isInt64 value) := inferInstanceAs (Decidable (_ ∧ _))

inductive Failure where
  /-- A check throws. -/
  | check (message : String)
  /-- A signed number overflows, or the end of a list is read. -/
  | undefined
  deriving DecidableEq

def checked (value : Int) : Except Failure Int := if isInt64 value then .ok value else .error .undefined

theorem checked_ok {value : Int} (bounds : isInt64 value) : checked value = .ok value := by
  rw [checked, if_pos bounds]

structure BigintRange where
  lower : Int
  upper : Int
  nullAllowed : Bool
  deriving DecidableEq

def BigintRange.testInt64 (range : BigintRange) (value : Int) : Bool :=
  decide (range.lower ≤ value ∧ value ≤ range.upper)

def apart : List BigintRange → Bool
  | first :: second :: rest => decide (first.upper ≤ second.lower) && apart (second :: rest)
  | _ => true

/-- The ranges that the constructor of a union accepts. -/
structure RangeUnion where
  ranges : List BigintRange
  several : 1 < ranges.length
  apart : apart ranges = true
  deriving DecidableEq

open BigintRange

/-- A hit on a lower bound is accepted; otherwise the range before the place of the value decides. -/
def testRanges (ranges : List BigintRange) (value : Int) : Bool :=
  let place := ranges.findIdx fun range => decide (value ≤ range.lower)
  if ranges[place]?.map lower = some value then true
  else if place = 0 then false
  else (ranges[place - 1]?.map (·.testInt64 value)).getD false

def RangeUnion.testInt64 (union : RangeUnion) (value : Int) : Bool := testRanges union.ranges value

/-- What the constructors of the lists check: the bounds need not be those of the values. -/
structure ValueList where
  min : Int
  max : Int
  values : List Int
  ordered : min < max
  several : 1 < values.length

/-- The bits of a mask are written without a check, so that a value outside of the bounds makes no mask. -/
structure MaskedList extends ValueList where
  within : ∀ value ∈ values, min ≤ value ∧ value ≤ max

namespace ValueList

variable (list : ValueList)

def sorted : List Int := list.values.mergeSort fun a b => decide (a ≤ b)

def kEmptyMarker : Int := 0xdeadbeefbadefeed - 2 ^ 64

def multiplier : Int := 0xc6a4a7935bd1e995

def size : Nat := 2 ^ Nat.log2 (list.values.length * 5)

/-- The multiplication wraps around. -/
def home (value : Int) : Nat := (value * multiplier % 2 ^ 64).toNat % list.size

def slots : List Int := fill kEmptyMarker list.home list.size list.values

def containsEmptyMarker : Bool := list.values.contains kEmptyMarker

def testHash (value : Int) : Bool :=
  if list.containsEmptyMarker && value == kEmptyMarker then true
  else if value < list.min ∨ list.max < value then false
  else findFrom kEmptyMarker value list.slots (list.home value) list.size

end ValueList

namespace MaskedList

variable (list : MaskedList)

def bitmask : List Bool :=
  list.values.foldl (fun bits value => bits.set (value - list.min).toNat true)
    (List.replicate (list.max - list.min + 1).toNat false)

def bit (value : Int) : Bool := list.bitmask.getD (value - list.min).toNat false

def testBitmask (value : Int) : Bool :=
  if value < list.min ∨ list.max < value then false else list.bit value

end MaskedList

inductive Filter where
  | alwaysFalse
  | alwaysTrue
  | isNull
  | isNotNull
  | bigintRange (range : BigintRange)
  | negatedBigintRange (lower upper : Int) (nullAllowed : Bool)
  | bigintValuesUsingHashTable (list : ValueList) (nullAllowed : Bool)
  | bigintValuesUsingBitmask (list : MaskedList) (nullAllowed : Bool)
  | negatedBigintValuesUsingHashTable (list : ValueList) (nullAllowed : Bool)
  | negatedBigintValuesUsingBitmask (list : MaskedList) (nullAllowed : Bool)
  | bigintMultiRange (union : RangeUnion) (nullAllowed : Bool)

namespace Filter

def testNull : Filter → Bool
  | alwaysFalse => false
  | alwaysTrue => true
  | isNull => true
  | isNotNull => false
  | bigintRange range => range.nullAllowed
  | negatedBigintRange _ _ nullAllowed => nullAllowed
  | bigintValuesUsingHashTable _ nullAllowed => nullAllowed
  | bigintValuesUsingBitmask _ nullAllowed => nullAllowed
  | negatedBigintValuesUsingHashTable _ nullAllowed => nullAllowed
  | negatedBigintValuesUsingBitmask _ nullAllowed => nullAllowed
  | bigintMultiRange _ nullAllowed => nullAllowed

def testInt64 : Filter → Int → Bool
  | alwaysFalse, _ => false
  | alwaysTrue, _ => true
  | isNull, _ => false
  | isNotNull, _ => true
  | bigintRange range, value => range.testInt64 value
  | negatedBigintRange lower upper nullAllowed, value => !(BigintRange.mk lower upper (!nullAllowed)).testInt64 value
  | bigintValuesUsingHashTable list _, value => list.testHash value
  | bigintValuesUsingBitmask list _, value => list.testBitmask value
  | negatedBigintValuesUsingHashTable list _, value => !list.testHash value
  | negatedBigintValuesUsingBitmask list _, value => !list.testBitmask value
  | bigintMultiRange union _, value => union.testInt64 value

end Filter

def Ascending (ranges : List BigintRange) : Prop := ranges.Pairwise fun first second => first.lower ≤ second.lower

instance (ranges : List BigintRange) : Decidable (Ascending ranges) := inferInstanceAs (Decidable (Pairwise _ _))

/-- The search for a lower bound has no meaning if the bounds do not ascend. -/
def Filter.searchable : Filter → Bool
  | bigintMultiRange union _ => decide (Ascending union.ranges)
  | _ => true

section

/-- What a union takes of one of its ranges: a range that runs backwards still gives its lower bound. -/
def BigintRange.reaches (range : BigintRange) (value : Int) : Bool :=
  decide (range.lower = value) || range.testInt64 value

variable {rest : List BigintRange}

theorem apart_tail {first : BigintRange} (separate : apart (first :: rest) = true) : apart rest = true := by
  cases rest with
  | nil => rfl
  | cons second rest => exact (Bool.and_eq_true_iff.mp separate).2

/-- A range that is followed by others ends before all of them. -/
theorem upper_le_of_apart {first : BigintRange} (separate : apart (first :: rest) = true)
    (ascending : Ascending rest) : ∀ range ∈ rest, first.upper ≤ range.lower := by
  cases rest with
  | nil => simp
  | cons second rest =>
    have next : first.upper ≤ second.lower := by simpa using (Bool.and_eq_true_iff.mp separate).1
    refine forall_mem_cons.mpr ⟨next, fun range mem => ?_⟩
    exact next.trans ((pairwise_cons.mp ascending).1 range mem)

def testBehind (before : Bool) (ranges : List BigintRange) (value : Int) : Bool :=
  let place := ranges.findIdx fun range => decide (value ≤ range.lower)
  if ranges[place]?.map lower = some value then true
  else if place = 0 then before
  else (ranges[place - 1]?.map (·.testInt64 value)).getD false

variable {value : Int}

theorem testBehind_cons_le {range : BigintRange} (below : value ≤ range.lower) (before : Bool)
    (rest : List BigintRange) : testBehind before (range :: rest) value = (decide (range.lower = value) || before) := by
  have first : (range :: rest).findIdx (fun range => decide (value ≤ range.lower)) = 0 := by
    rw [findIdx_cons]
    simp [below]
  simp only [testBehind, first, getElem?_cons_zero, Option.map_some, Option.some.injEq, if_true]
  by_cases hit : range.lower = value <;> simp [hit]

theorem testBehind_cons_lt {range : BigintRange} (above : range.lower < value) (before : Bool)
    (rest : List BigintRange) :
    testBehind before (range :: rest) value = testBehind (range.testInt64 value) rest value := by
  have later : (range :: rest).findIdx (fun range => decide (value ≤ range.lower)) =
      rest.findIdx (fun range => decide (value ≤ range.lower)) + 1 := by
    have passed : decide (value ≤ range.lower) = false := by simpa using above
    rw [findIdx_cons, passed]
    rfl
  simp only [testBehind, later, getElem?_cons_succ, Nat.add_one_ne_zero, if_false, Nat.add_sub_cancel]
  cases place : rest.findIdx fun range => decide (value ≤ range.lower) with
  | zero | succ => simp

theorem testBehind_eq {ranges : List BigintRange} (separate : apart ranges = true) (ascending : Ascending ranges)
    {before : Bool} (passed : before = true → ∀ range ∈ ranges, value ≤ range.lower) :
    testBehind before ranges value = (before || ranges.any (·.reaches value)) := by
  induction ranges generalizing before with
  | nil => simp [testBehind]
  | cons range rest ih =>
    have order := pairwise_cons.mp ascending
    rw [any_cons]
    by_cases below : value ≤ range.lower
    · have own : range.reaches value = decide (range.lower = value) := by
        rw [reaches, testInt64, ← Bool.decide_or, decide_eq_decide]
        omega
      have others : rest.any (·.reaches value) = true → range.lower = value := by
        rw [any_eq_true]
        rintro ⟨other, mem, reached⟩
        have behind := order.1 other mem
        rw [reaches, testInt64, ← Bool.decide_or, decide_eq_true_iff] at reached
        omega
      rw [testBehind_cons_le below, own, Bool.eq_iff_iff]
      simp only [Bool.or_eq_true, decide_eq_true_iff]
      tauto
    · have notBefore : before = false := by
        rw [Bool.eq_false_iff]
        intro reached
        exact below (passed reached range mem_cons_self)
      have own : range.reaches value = range.testInt64 value := by
        rw [reaches, decide_eq_false (by omega), Bool.false_or]
      rw [testBehind_cons_lt (by omega), notBefore, Bool.false_or, own]
      apply ih (apart_tail separate) order.2
      intro accepted other mem
      have behind := upper_le_of_apart separate order.2 other mem
      simp only [testInt64, decide_eq_true_iff] at accepted
      omega

theorem testUnion_eq {union : RangeUnion} (ascending : Ascending union.ranges) (value : Int) :
    union.testInt64 value = union.ranges.any (·.reaches value) := by
  have searched : union.testInt64 value = testBehind false union.ranges value := rfl
  rw [searched, testBehind_eq union.apart ascending (by simp), Bool.false_or]

end

variable (list : ValueList)

open ValueList

theorem length_le_size : list.values.length ≤ list.size := by
  have several := list.several
  have width : list.values.length * 5 < 2 ^ (Nat.log2 (list.values.length * 5) + 1) := Nat.lt_log2_self
  rw [Nat.pow_succ] at width
  unfold size
  omega

theorem room : list.values.countP (· ≠ kEmptyMarker) ≤ list.size :=
  countP_le_length.trans (length_le_size list)

theorem findFrom_marker (table : List Int) (position rounds : Nat) :
    findFrom kEmptyMarker kEmptyMarker table position rounds = false := by
  rw [Bool.eq_false_iff]
  intro found
  obtain ⟨distance, _, here, path⟩ := (findFrom_iff position rounds).mp found
  exact path distance (Nat.le_refl _) here

/-- A value is found if it was given and lies between the bounds. Only the marker is not held against them. -/
theorem testHash_eq (value : Int) : list.testHash value =
    decide (value ∈ list.values ∧ (value = kEmptyMarker ∨ (list.min ≤ value ∧ value ≤ list.max))) := by
  rw [Bool.eq_iff_iff, decide_eq_true_iff]
  unfold testHash
  by_cases mark : value = kEmptyMarker
  · subst mark
    by_cases present : kEmptyMarker ∈ list.values
    · simp [containsEmptyMarker, present]
    · simp [containsEmptyMarker, present, findFrom_marker]
  · have notMark : (list.containsEmptyMarker && value == kEmptyMarker) = false := by simp [mark]
    have slots : findFrom kEmptyMarker value list.slots (list.home value) list.size = true ↔
        value ∈ list.values := find_fill_iff (room list) mark
    rw [notMark, if_neg Bool.false_ne_true]
    split_ifs with outside
    · refine iff_of_false id fun known => ?_
      have bounds := known.2.resolve_left mark
      omega
    · rw [slots]
      exact ⟨fun mem => ⟨mem, .inr (by omega)⟩, And.left⟩

theorem mem_sorted_iff (value : Int) : value ∈ list.sorted ↔ value ∈ list.values := by
  rw [sorted, mem_mergeSort]

theorem sorted_pairwise : list.sorted.Pairwise (· ≤ ·) := by
  have ordered : list.sorted.Pairwise fun a b => decide (a ≤ b) = true :=
    pairwise_mergeSort (by simp; omega) (by simp; omega) list.values
  exact ordered.imp fun less => by simpa using less

end CactusDB.Filters.BigintFilter
