import CactusDB.Library.ThreeWay
import Mathlib.Algebra.Ring.Int.Defs
import Mathlib.Data.Finset.Sort

/-! Filters over byte strings: ranges, sets of values, their negations and unions of filters. -/

namespace CactusDB.Filters.BytesFilter
open Library.ThreeWay

structure Bytes where
  bytes : List (Fin 256)
  short : bytes.length < 2 ^ 31

open Bytes

theorem bytes_injective : Function.Injective bytes := by
  intro first second same
  cases first
  cases second
  simp only at same
  subst same
  rfl

/-- Strings are ordered by their bytes. -/
instance : LinearOrder Bytes := LinearOrder.lift' bytes bytes_injective

def Bytes.empty : Bytes := ⟨[], by decide⟩

def Bytes.isEmpty (value : Bytes) : Bool := value.bytes.isEmpty

def Bytes.length (value : Bytes) : Nat := value.bytes.length

def toInt (number : Int) : Int := (number + 2 ^ 31) % 2 ^ 32 - 2 ^ 31

def compareRanges (lhs rhs : Bytes) : Int :=
  if memcmp lhs.bytes rhs.bytes ≠ 0 then memcmp lhs.bytes rhs.bytes else toInt ((lhs.length : Int) - rhs.length)

def Bytes.compare (left right : Bytes) : Int := threeWay left.bytes right.bytes

/-- One end of a range. Without a bound its value is ignored. -/
structure Bound where
  value : Bytes
  unbounded : Bool
  exclusive : Bool

structure BytesRange where
  lower : Bound
  upper : Bound
  bounded : (lower.unbounded && upper.unbounded) = false

namespace BytesRange

def singleValue (range : BytesRange) : Bool :=
  !range.lower.exclusive && !range.upper.exclusive && !range.lower.unbounded && !range.upper.unbounded &&
    decide (range.lower.value = range.upper.value)

def testBytes (range : BytesRange) (value : Bytes) : Bool :=
  if value.length = 0 then
    if range.lower.unbounded then !range.upper.value.isEmpty || !range.upper.exclusive
    else range.lower.value.isEmpty && !range.lower.exclusive
  else if range.singleValue then
    if value.length ≠ range.lower.value.length then false
    else memcmp value.bytes range.lower.value.bytes == 0
  else if !range.lower.unbounded && (decide (compareRanges value range.lower.value < 0) ||
      (range.lower.exclusive && compareRanges value range.lower.value == 0)) then false
  else if !range.upper.unbounded then
    decide (compareRanges value range.upper.value < 0) ||
      (!range.upper.exclusive && compareRanges value range.upper.value == 0)
  else true

end BytesRange

structure ValueSet where
  values : Finset Bytes
  present : values.Nonempty

namespace ValueSet

def lower (set : ValueSet) : Bytes := set.values.min' set.present

def upper (set : ValueSet) : Bytes := set.values.max' set.present

def lengths (set : ValueSet) : Finset Nat := set.values.image length

def testBytes (set : ValueSet) (value : Bytes) : Bool :=
  decide (value.length ∈ set.lengths) && decide (value ∈ set.values)

def testBytesRange (set : ValueSet) (nullAllowed : Bool) (min max : Option Bytes) (hasNull : Bool) : Bool :=
  if hasNull && nullAllowed then true
  else match min, max with
    | some min, some max =>
      if min = max then set.testBytes min
      else if 0 < compareRanges min set.upper then false
      else !decide (compareRanges max set.lower < 0)
    | some min, none => !decide (0 < compareRanges min set.upper)
    | none, some max => !decide (compareRanges max set.lower < 0)
    | none, none => true

end ValueSet

inductive Filter where
  | alwaysFalse
  | alwaysTrue
  | isNull
  | isNotNull
  | bytesRange (range : BytesRange) (nullAllowed : Bool)
  | negatedBytesRange (nonNegated : BytesRange) (nullAllowed : Bool)
  | bytesValues (values : ValueSet) (nullAllowed : Bool)
  | negatedBytesValues (nonNegated : ValueSet) (nullAllowed : Bool)
  | multiRange (filters : List Filter) (nullAllowed nanAllowed : Bool)

namespace Filter

def testNull : Filter → Bool
  | alwaysFalse => false
  | alwaysTrue => true
  | isNull => true
  | isNotNull => false
  | bytesRange _ nullAllowed => nullAllowed
  | negatedBytesRange _ nullAllowed => nullAllowed
  | bytesValues _ nullAllowed => nullAllowed
  | negatedBytesValues _ nullAllowed => nullAllowed
  | multiRange _ nullAllowed _ => nullAllowed

mutual

def testBytes : Filter → Bytes → Bool
  | alwaysFalse, _ => false
  | alwaysTrue, _ => true
  | isNull, _ => false
  | isNotNull, _ => true
  | bytesRange range _, value => range.testBytes value
  | negatedBytesRange nonNegated _, value => !nonNegated.testBytes value
  | bytesValues values _, value => values.testBytes value
  | negatedBytesValues nonNegated _, value => !nonNegated.testBytes value
  | multiRange filters _ _, value => testSome filters value

def testSome : List Filter → Bytes → Bool
  | [], _ => false
  | filter :: rest, value => if filter.testBytes value then true else testSome rest value

end

def clone : Filter → Bool → Filter
  | bytesRange range _, nullAllowed => bytesRange range nullAllowed
  | negatedBytesRange nonNegated _, nullAllowed => negatedBytesRange nonNegated nullAllowed
  | bytesValues values _, nullAllowed => bytesValues values nullAllowed
  | negatedBytesValues nonNegated _, nullAllowed => negatedBytesValues nonNegated nullAllowed
  | multiRange filters _ nanAllowed, nullAllowed => multiRange filters nullAllowed nanAllowed
  | constant, _ => constant

theorem testBytes_clone (filter : Filter) (null : Bool) (value : Bytes) :
    (filter.clone null).testBytes value = filter.testBytes value := by
  cases filter <;> simp only [clone, testBytes]

theorem testSome_iff (filters : List Filter) (value : Bytes) :
    testSome filters value = true ↔ ∃ filter ∈ filters, filter.testBytes value = true := by
  induction filters with
  | nil => simp [testSome]
  | cons filter rest ih =>
    rw [testSome, List.exists_mem_cons_iff, ← ih]
    cases filter.testBytes value <;> simp

end Filter

section

variable (first second : Bytes)

theorem lt_iff : first < second ↔ first.bytes < second.bytes := Iff.rfl

theorem eq_iff : first = second ↔ first.bytes = second.bytes :=
  ⟨congrArg bytes, fun same => bytes_injective same⟩

variable (value : Bytes)

theorem isEmpty_iff : value.isEmpty = true ↔ value = .empty := by
  rw [isEmpty, List.isEmpty_iff, eq_iff]
  rfl

theorem length_eq_zero_iff : value.length = 0 ↔ value = .empty := by
  rw [length, List.length_eq_zero_iff, eq_iff]
  rfl

theorem not_lt_empty : ¬ value < .empty := by
  rw [lt_iff]
  exact List.not_lt_nil value.bytes

variable (lhs rhs : Bytes)

/-- Lengths of strings are too small for their difference to wrap around. -/
theorem compareRanges_eq : compareRanges lhs rhs = threeWay lhs.bytes rhs.bytes := by
  have left := lhs.short
  have right := rhs.short
  unfold compareRanges threeWay toInt length
  split_ifs <;> omega

theorem compareRanges_neg_iff : compareRanges lhs rhs < 0 ↔ lhs < rhs := by
  rw [compareRanges_eq, threeWay_neg_iff]
  rfl

theorem compareRanges_zero_iff : compareRanges lhs rhs = 0 ↔ lhs = rhs := by
  rw [compareRanges_eq, threeWay_zero_iff, eq_iff]

theorem compareRanges_pos_iff : 0 < compareRanges lhs rhs ↔ rhs < lhs := by
  have negative := compareRanges_neg_iff lhs rhs
  have zero := compareRanges_zero_iff lhs rhs
  rw [← not_le, le_iff_lt_or_eq, negative, zero, ← le_iff_lt_or_eq, not_le]

theorem compare_neg_iff (left right : Bytes) : left.compare right < 0 ↔ left < right :=
  threeWay_neg_iff left.bytes right.bytes

theorem compare_zero_iff (left right : Bytes) : left.compare right = 0 ↔ left = right := by
  rw [Bytes.compare, threeWay_zero_iff, eq_iff]

end

section

def Bound.AtLeast (bound : Bound) (value : Bytes) : Prop :=
  bound.unbounded = true ∨ bound.value < value ∨ (bound.exclusive = false ∧ value = bound.value)

def Bound.AtMost (bound : Bound) (value : Bytes) : Prop :=
  bound.unbounded = true ∨ value < bound.value ∨ (bound.exclusive = false ∧ value = bound.value)

def BytesRange.beforeEmpty (range : BytesRange) : Bool :=
  !range.lower.unbounded && range.lower.value.isEmpty && !range.lower.exclusive &&
    !range.upper.unbounded && range.upper.value.isEmpty && range.upper.exclusive

variable (range : BytesRange)

theorem beforeEmpty_iff : range.beforeEmpty = true ↔
    (range.lower.unbounded = false ∧ range.lower.value = .empty ∧ range.lower.exclusive = false) ∧
      range.upper.unbounded = false ∧ range.upper.value = .empty ∧ range.upper.exclusive = true := by
  unfold BytesRange.beforeEmpty
  simp only [Bool.and_eq_true, Bool.not_eq_true', isEmpty_iff]
  tauto

theorem atLeast_empty_iff (bound : Bound) : bound.AtLeast .empty ↔
    bound.unbounded = true ∨ (bound.exclusive = false ∧ bound.value = .empty) := by
  unfold Bound.AtLeast
  simp only [not_lt_empty, false_or, eq_comm]

theorem atMost_empty_iff (bound : Bound) : bound.AtMost .empty ↔
    bound.unbounded = true ∨ bound.value ≠ .empty ∨ bound.exclusive = false := by
  have below : empty < bound.value ↔ bound.value ≠ .empty := by
    rcases lt_trichotomy empty bound.value with less | same | greater
    · exact iff_of_true less less.ne'
    · rw [← same]
      simp
    · exact absurd greater (not_lt_empty _)
  unfold Bound.AtMost
  rw [below]
  by_cases same : bound.value = .empty
  · simp [same]
  · simp [same]

/-- The upper end is not compared with the empty string. -/
theorem testEmpty_iff : range.testBytes .empty = true ↔
    (range.lower.AtLeast .empty ∧ range.upper.AtMost .empty) ∨ range.beforeEmpty = true := by
  have bounded := range.bounded
  have none : empty.length = 0 := rfl
  rw [BytesRange.testBytes, if_pos none, atLeast_empty_iff, atMost_empty_iff, beforeEmpty_iff]
  cases low : range.lower.unbounded with
  | true =>
    rw [low, Bool.true_and] at bounded
    by_cases same : range.upper.value = .empty
    · have blank : empty.isEmpty = true := rfl
      simp [bounded, blank, same]
    · have blank : range.upper.value.isEmpty = false := by
        rw [Bool.eq_false_iff, ne_eq, isEmpty_iff]
        exact same
      simp [blank, same]
  | false =>
    rw [if_neg Bool.false_ne_true, Bool.and_eq_true, isEmpty_iff, Bool.not_eq_true']
    cases high : range.upper.unbounded <;> cases ends : range.upper.exclusive <;> simp <;> tauto

theorem testSingle_iff {range : BytesRange} (single : range.singleValue = true) (value : Bytes) :
    (range.lower.AtLeast value ∧ range.upper.AtMost value) ↔ value = range.lower.value := by
  unfold BytesRange.singleValue at single
  simp only [Bool.and_eq_true, Bool.not_eq_true', decide_eq_true_iff] at single
  obtain ⟨⟨⟨⟨lowerEnd, upperEnd⟩, low⟩, high⟩, same⟩ := single
  unfold Bound.AtLeast Bound.AtMost
  simp only [low, high, lowerEnd, upperEnd, Bool.false_eq_true, false_or, true_and, ← same]
  constructor
  · rintro ⟨above, below⟩
    rcases above with above | equal
    · rcases below with below | equal
      · exact absurd below (not_lt_of_gt above)
      · exact equal
    · exact equal
  · intro equal
    exact ⟨.inr equal, .inr equal⟩

theorem memcmp_zero_iff {value other : Bytes} (lengths : value.length = other.length) :
    memcmp value.bytes other.bytes = 0 ↔ value = other := by
  have whole : threeWay value.bytes other.bytes = 0 ↔ memcmp value.bytes other.bytes = 0 := by
    unfold length at lengths
    unfold threeWay
    split_ifs <;> omega
  rw [← whole, threeWay_zero_iff, eq_iff]

theorem testPresent_iff {value : Bytes} (present : value ≠ .empty) :
    range.testBytes value = true ↔ range.lower.AtLeast value ∧ range.upper.AtMost value := by
  have some : ¬ value.length = 0 := fun zero => present ((length_eq_zero_iff value).mp zero)
  rw [BytesRange.testBytes, if_neg some]
  by_cases single : range.singleValue = true
  · rw [if_pos single, testSingle_iff single]
    by_cases lengths : value.length = range.lower.value.length
    · rw [if_neg (not_not_intro lengths), beq_iff_eq, memcmp_zero_iff lengths]
    · rw [if_pos lengths]
      refine iff_of_false Bool.false_ne_true fun same => lengths ?_
      rw [same]
  · rw [if_neg single]
    have low : (!range.lower.unbounded && (decide (compareRanges value range.lower.value < 0) ||
        (range.lower.exclusive && compareRanges value range.lower.value == 0))) = true ↔
        ¬ range.lower.AtLeast value := by
      unfold Bound.AtLeast
      simp only [Bool.and_eq_true, Bool.not_eq_true', Bool.or_eq_true, decide_eq_true_iff, beq_iff_eq,
        compareRanges_neg_iff, compareRanges_zero_iff]
      cases range.lower.unbounded <;> cases range.lower.exclusive <;> simp
      · exact ⟨fun less => ⟨less.le, less.ne⟩, fun both => lt_of_le_of_ne both.1 both.2⟩
      · exact le_iff_lt_or_eq.symm
    by_cases outside : range.lower.AtLeast value
    · rw [if_neg (mt low.mp (not_not_intro outside))]
      unfold Bound.AtMost
      cases high : range.upper.unbounded <;> cases ends : range.upper.exclusive <;>
        simp [outside, compareRanges_neg_iff, compareRanges_zero_iff]
    · rw [if_pos (low.mpr outside)]
      simp [outside]

/-- A range accepts the strings between its ends, and the empty string if it ends before it and begins with it. -/
theorem testRange_iff (value : Bytes) : range.testBytes value = true ↔
    (range.lower.AtLeast value ∧ range.upper.AtMost value) ∨ (range.beforeEmpty = true ∧ value = .empty) := by
  by_cases empty : value = .empty
  · subst empty
    rw [testEmpty_iff]
    simp
  · rw [testPresent_iff range empty]
    simp [empty]

end

theorem testValues_eq (set : ValueSet) (value : Bytes) : set.testBytes value = decide (value ∈ set.values) := by
  unfold ValueSet.testBytes ValueSet.lengths
  by_cases mem : value ∈ set.values
  · simp only [mem, decide_true, Bool.and_true, decide_eq_true_iff]
    exact Finset.mem_image_of_mem length mem
  · simp [mem]

end CactusDB.Filters.BytesFilter
