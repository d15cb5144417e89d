import CactusDB.Filters.BytesMerge

/-! What the merges of single string filters accept. -/

namespace CactusDB.Filters.BytesPieces
open BytesFilter BytesMerge List

def simple : Filter → Bool
  | .bytesRange _ _ | .negatedBytesRange _ _ | .bytesValues _ _ | .negatedBytesValues _ _ => true
  | _ => false

def Settled : Filter → Prop
  | .alwaysTrue => False
  | .isNotNull => False
  | .multiRange filters _ _ => ∀ filter ∈ filters, simple filter = true
  | _ => True

structure Result (filter : Filter) (accepts : Bytes → Prop) (null : Bool) : Prop where
  tests : ∀ value, filter.testBytes value = true ↔ accepts value
  nulls : filter.testNull = null
  settled : Settled filter

theorem Result.congr {filter : Filter} {accepts others : Bytes → Prop} {null : Bool}
    (known : Result filter accepts null) (same : ∀ value, accepts value ↔ others value) : Result filter others null :=
  ⟨fun value => (known.tests value).trans (same value), known.nulls, known.settled⟩

theorem nullOrFalse_result {accepts : Bytes → Prop} (nothing : ∀ value, ¬ accepts value) (null : Bool) :
    Result (nullOrFalse null) accepts null := by
  cases null with
  | false | true => exact ⟨fun value => iff_of_false Bool.false_ne_true (nothing value), rfl, trivial⟩

def Between (range : BytesRange) (value : Bytes) : Prop := range.lower.AtLeast value ∧ range.upper.AtMost value

theorem not_between_of_beforeEmpty {range : BytesRange} (ends : range.beforeEmpty = true) (value : Bytes) :
    ¬ Between range value := by
  obtain ⟨_, high, blank, exclusive⟩ := (beforeEmpty_iff range).mp ends
  rintro ⟨_, below⟩
  unfold Bound.AtMost at below
  simp [high, blank, exclusive, not_lt_empty] at below

theorem between_iff (range : BytesRange) (value : Bytes) : Between range value ↔
    range.testBytes value = true ∧ (value = .empty → range.beforeEmpty = false) := by
  rw [testRange_iff]
  constructor
  · intro inside
    refine ⟨.inl inside, fun _ => ?_⟩
    rw [Bool.eq_false_iff]
    intro ends
    exact not_between_of_beforeEmpty ends value inside
  · rintro ⟨inside | ⟨ends, empty⟩, other⟩
    · exact inside
    · rw [other empty] at ends
      cases ends

/-- Of two bounds on one side the tighter one holds of a value exactly if both do. -/
theorem tighter_iff (before : Bytes → Bytes → Prop) [IsStrictTotalOrder Bytes before] {this other merged : Bound}
    {value : Bytes} (free : this.unbounded = true → merged = other)
    (otherFree : this.unbounded = false → other.unbounded = true → merged = this)
    (low : this.unbounded = false → other.unbounded = false → before this.value other.value → merged = other)
    (high : this.unbounded = false → other.unbounded = false → before other.value this.value → merged = this)
    (same : this.unbounded = false → other.unbounded = false → this.value = other.value →
      merged = ⟨this.value, false, this.exclusive || other.exclusive⟩) :
    let holds (bound : Bound) := bound.unbounded = true ∨ before bound.value value ∨
      (bound.exclusive = false ∧ value = bound.value)
    holds merged ↔ holds this ∧ holds other := by
  have weaker {first second : Bytes} {out : Bool} (less : before first second)
      (inside : before second value ∨ out = false ∧ value = second) : before first value := by
    rcases inside with beyond | ⟨_, rfl⟩
    · exact IsTrans.trans _ _ _ less beyond
    · exact less
  cases bounded : this.unbounded with
  | true => simp [free bounded, bounded]
  | false =>
    cases otherBounded : other.unbounded with
    | true => simp [otherFree bounded otherBounded, otherBounded]
    | false =>
      rcases trichotomous_of before this.value other.value with less | equal | greater
      · simpa [low bounded otherBounded less, bounded, otherBounded] using
          fun inside => .inl (weaker less inside)
      · simp only [same bounded otherBounded equal, equal, bounded, otherBounded]
        cases this.exclusive <;> cases other.exclusive <;> simp
        all_goals exact fun beyond => .inl beyond
      · simpa [high bounded otherBounded greater, bounded, otherBounded] using
          fun inside => .inl (weaker greater inside)

theorem mergeLower_iff (this other : Bound) (value : Bytes) :
    (mergeLower this other).AtLeast value ↔ this.AtLeast value ∧ other.AtLeast value := by
  have negative := compare_neg_iff this.value other.value
  have zero := compare_zero_iff this.value other.value
  cases this
  cases other
  apply tighter_iff (· < ·)
  all_goals grind [mergeLower, mergeExclusive]

theorem mergeUpper_iff (this other : Bound) (value : Bytes) :
    (mergeUpper this other).AtMost value ↔ this.AtMost value ∧ other.AtMost value := by
  have negative := compare_neg_iff this.value other.value
  have zero := compare_zero_iff this.value other.value
  cases this
  cases other
  apply tighter_iff (· > ·)
  all_goals grind [mergeUpper, mergeExclusive]

/-- Nothing lies between ends that are turned around, or that are the same and not both included. -/
theorem not_between_of_crossed {range : BytesRange} (low : range.lower.unbounded = false)
    (high : range.upper.unbounded = false) (crossed : range.upper.value < range.lower.value ∨
      (range.lower.value = range.upper.value ∧ (range.lower.exclusive = true ∨ range.upper.exclusive = true)))
    (value : Bytes) : ¬ Between range value := by
  rintro ⟨above, below⟩
  simp only [Bound.AtLeast, low, Bool.false_eq_true, false_or] at above
  simp only [Bound.AtMost, high, Bool.false_eq_true, false_or] at below
  rcases crossed with less | ⟨same, outside⟩
  · rcases above with above | ⟨_, rfl⟩
    · rcases below with below | ⟨_, rfl⟩
      · exact lt_asymm (below.trans less) above
      · exact lt_asymm less above
    · rcases below with below | ⟨_, equal⟩
      · exact lt_asymm below less
      · exact less.ne equal.symm
  · rw [← same] at below
    rcases above with above | ⟨included, rfl⟩
    · rcases below with below | ⟨_, rfl⟩
      · exact lt_asymm above below
      · exact lt_irrefl _ above
    · rcases below with below | ⟨otherIncluded, _⟩
      · exact lt_irrefl _ below
      · rcases outside with outside | outside
        · rw [included] at outside
          cases outside
        · rw [otherIncluded] at outside
          cases outside

theorem mergeRanges_result (this other : BytesRange) (null : Bool) :
    Result (mergeRanges this other null) (fun value => Between this value ∧ Between other value) null := by
  have both (value : Bytes) : Between ⟨_, _, merged_bounded this other⟩ value ↔
      Between this value ∧ Between other value := by
    unfold Between
    rw [mergeLower_iff, mergeUpper_iff]
    tauto
  unfold mergeRanges
  simp only
  split
  case isTrue crossed =>
    simp only [Bool.and_eq_true, Bool.not_eq_true', Bool.or_eq_true, decide_eq_true_iff] at crossed
    obtain ⟨⟨low, high⟩, crossed⟩ := crossed
    apply nullOrFalse_result
    intro value
    rw [← both]
    exact not_between_of_crossed low high crossed value
  case isFalse kept =>
    refine ⟨fun value => ?_, rfl, trivial⟩
    rw [← both, between_iff]
    refine ⟨fun test => ⟨test, fun _ => ?_⟩, And.left⟩
    -- A range that begins with the empty string and ends before it has crossed ends.
    rw [Bool.eq_false_iff]
    intro ends
    obtain ⟨⟨low, blank, _⟩, high, otherBlank, exclusive⟩ := (beforeEmpty_iff _).mp ends
    simp only at low blank high otherBlank exclusive
    simp [low, high, blank, otherBlank, exclusive] at kept

section

variable (range : BytesRange) (value : Bytes)

theorem belowRange_iff : (belowRange range).testBytes value = true ↔
    value < range.lower.value ∨ (value = range.lower.value ∧ range.testBytes value = false) := by
  rw [testRange_iff]
  simp only [belowRange, Bound.AtLeast, Bound.AtMost, BytesRange.beforeEmpty]
  constructor
  · rintro (⟨_, free | below | ⟨outside, rfl⟩⟩ | ⟨ends, _⟩)
    · cases free
    · exact .inl below
    · exact .inr ⟨rfl, outside⟩
    · simp at ends
  · rintro (below | ⟨rfl, outside⟩)
    · exact .inl ⟨.inl trivial, .inr (.inl below)⟩
    · exact .inl ⟨.inl trivial, .inr (.inr ⟨outside, rfl⟩)⟩

theorem aboveRange_iff : (aboveRange range).testBytes value = true ↔
    range.upper.value < value ∨ (value = range.upper.value ∧ range.testBytes value = false) := by
  rw [testRange_iff]
  simp only [aboveRange, Bound.AtLeast, Bound.AtMost, BytesRange.beforeEmpty]
  constructor
  · rintro (⟨free | above | ⟨outside, rfl⟩, _⟩ | ⟨ends, _⟩)
    · cases free
    · exact .inl above
    · exact .inr ⟨rfl, outside⟩
    · simp at ends
  · rintro (above | ⟨rfl, outside⟩)
    · exact .inl ⟨.inr (.inl above), .inl trivial⟩
    · exact .inl ⟨.inr (.inr ⟨outside, rfl⟩), .inl trivial⟩

theorem below_lower_rejected {range : BytesRange} (low : range.lower.unbounded = false) {value : Bytes}
    (below : value < range.lower.value) : range.testBytes value = false := by
  rw [Bool.eq_false_iff, ne_eq, testRange_iff, beforeEmpty_iff]
  rintro (⟨free | above | ⟨_, rfl⟩, _⟩ | ⟨⟨⟨_, blank, _⟩, _⟩, rfl⟩)
  · rw [low] at free
    cases free
  · exact lt_asymm above below
  · exact lt_irrefl _ below
  · rw [blank] at below
    exact lt_irrefl _ below

theorem above_upper_rejected {range : BytesRange} (high : range.upper.unbounded = false) {value : Bytes}
    (above : range.upper.value < value) : range.testBytes value = false := by
  rw [Bool.eq_false_iff, ne_eq, testRange_iff, beforeEmpty_iff]
  rintro (⟨_, free | below | ⟨_, rfl⟩⟩ | ⟨⟨_, _, blank, _⟩, rfl⟩)
  · rw [high] at free
    cases free
  · exact lt_asymm above below
  · exact lt_irrefl _ above
  · rw [blank] at above
    exact lt_irrefl _ above

/-- The two sides of a negated range accept what the range rejects. -/
theorem accepted_iff :
    (∃ filter ∈ accepted range, filter.testBytes value = true) ↔ range.testBytes value = false := by
  have members : (∃ filter ∈ accepted range, filter.testBytes value = true) ↔
      (range.lower.unbounded = false ∧ (belowRange range).testBytes value = true) ∨
        (range.upper.unbounded = false ∧ (aboveRange range).testBytes value = true) := by
    unfold accepted
    cases range.lower.unbounded <;> cases range.upper.unbounded <;> simp [Filter.testBytes]
  rw [members, belowRange_iff, aboveRange_iff]
  constructor
  · rintro (⟨low, below | ⟨_, outside⟩⟩ | ⟨high, above | ⟨_, outside⟩⟩)
    · exact below_lower_rejected low below
    · exact outside
    · exact above_upper_rejected high above
    · exact outside
  · intro outside
    have apart : ¬ Between range value := fun inside => by
      rw [((between_iff range value).mp inside).1] at outside
      cases outside
    rcases not_and_or.mp apart with notAbove | notBelow
    · unfold Bound.AtLeast at notAbove
      push Not at notAbove
      refine .inl ⟨by simpa using notAbove.1, ?_⟩
      rcases lt_or_eq_of_le notAbove.2.1 with below | same
      · exact .inl below
      · exact .inr ⟨same, outside⟩
    · unfold Bound.AtMost at notBelow
      push Not at notBelow
      refine .inr ⟨by simpa using notBelow.1, ?_⟩
      rcases lt_or_eq_of_le notBelow.2.1 with above | same
      · exact .inl above
      · exact .inr ⟨same.symm, outside⟩

end

section

theorem keepValues_result (values : Finset Bytes) (null : Bool) :
    Result (keepValues values null) (fun value => value ∈ values) null := by
  unfold keepValues
  split
  case isTrue left =>
    refine ⟨fun value => ?_, rfl, trivial⟩
    rw [Filter.testBytes, testValues_eq, decide_eq_true_iff]
  case isFalse none =>
    rw [Finset.not_nonempty_iff_eq_empty] at none
    subst none
    exact nullOrFalse_result (fun value => Finset.notMem_empty value) null

variable {set : ValueSet} {value : Bytes}

theorem lower_le (mem : value ∈ set.values) : set.lower ≤ value :=
  Finset.min'_le set.values value mem

theorem le_upper (mem : value ∈ set.values) : value ≤ set.upper :=
  Finset.le_max' set.values value mem

variable (this other : ValueSet)

theorem mergeValues_result (null : Bool) :
    Result (mergeValues this other null) (fun value => value ∈ this.values ∧ value ∈ other.values) null := by
  unfold mergeValues
  simp only [compare_neg_iff]
  split
  case isTrue apart =>
    apply nullOrFalse_result
    rintro value ⟨mem, otherMember⟩
    rcases apart with before | behind
    · exact absurd ((le_upper mem).trans_lt before) (not_lt_of_ge (lower_le otherMember))
    · exact absurd ((le_upper otherMember).trans_lt behind) (not_lt_of_ge (lower_le mem))
  case isFalse _ =>
    refine (keepValues_result _ null).congr fun value => ?_
    rw [Finset.mem_filter]
    split_ifs
    · exact And.comm
    · exact Iff.rfl

/-- A value of the list that lies between two bounds shows up in the test of the bounds. -/
theorem testBytesRange_of_mem {min max : Option Bytes} (mem : value ∈ set.values)
    (above : ∀ least, min = some least → least ≤ value) (below : ∀ greatest, max = some greatest → value ≤ greatest)
    (nullAllowed hasNull : Bool) : set.testBytesRange nullAllowed min max hasNull = true := by
  have notAbove {least : Bytes} (given : min = some least) : ¬ 0 < compareRanges least set.upper := by
    rw [compareRanges_pos_iff]
    exact not_lt_of_ge ((above least given).trans (le_upper mem))
  have notBelow {greatest : Bytes} (given : max = some greatest) : ¬ compareRanges greatest set.lower < 0 := by
    rw [compareRanges_neg_iff]
    exact not_lt_of_ge ((lower_le mem).trans (below greatest given))
  unfold ValueSet.testBytesRange
  split
  · rfl
  · cases min with
    | none =>
      cases max with
      | none => rfl
      | some greatest => simp [notBelow rfl]
    | some least =>
      cases max with
      | none => simp [notAbove rfl]
      | some greatest =>
        dsimp only
        split
        case isTrue same =>
          have equal : value = least := le_antisymm (same ▸ below greatest rfl) (above least rfl)
          rw [testValues_eq, ← equal]
          simpa using mem
        case isFalse =>
          rw [if_neg (notAbove rfl)]
          simp [notBelow rfl]

theorem bounds_of_test {range : BytesRange} (test : range.testBytes value = true) :
    (∀ least, boundOf range.lower = some least → least ≤ value) ∧
      ∀ greatest, boundOf range.upper = some greatest → value ≤ greatest := by
  unfold boundOf
  constructor
  all_goals
    intro bound given
    by_contra outside
    split at given
    · cases given
    cases given
  · rw [below_lower_rejected (by simp_all) (not_le.mp outside)] at test
    cases test
  · rw [above_upper_rejected (by simp_all) (not_le.mp outside)] at test
    cases test

theorem mergeValuesAndRange_result (this : ValueSet) (nullAllowed : Bool) (range : BytesRange) (null : Bool) :
    Result (mergeValuesAndRange this nullAllowed range null)
      (fun value => value ∈ this.values ∧ range.testBytes value = true) null := by
  unfold mergeValuesAndRange
  split
  case isTrue outside =>
    apply nullOrFalse_result
    rintro value ⟨mem, test⟩
    rw [testBytesRange_of_mem mem (bounds_of_test test).1 (bounds_of_test test).2] at outside
    cases outside
  case isFalse _ =>
    refine (keepValues_result _ null).congr fun value => ?_
    rw [Finset.mem_filter]

theorem mergeNegatedValues_result (null : Bool) :
    Result (mergeNegatedValues this other null) (fun value => value ∉ this.values ∧ value ∉ other.values) null := by
  refine ⟨fun value => ?_, rfl, trivial⟩
  rw [mergeNegatedValues, Filter.testBytes, testValues_eq]
  simp only [Bool.not_eq_true', decide_eq_false_iff_not, Finset.mem_union, Finset.mem_filter, testValues_eq]
  tauto

end

def behind (back : Bytes) : List Bytes → Bound → List Filter
  | [], upper => [.bytesRange ⟨⟨back, false, true⟩, upper, Bool.false_and _⟩ false]
  | front :: rest, upper =>
    .bytesRange ⟨⟨back, false, true⟩, ⟨front, false, true⟩, bounded_between back front⟩ false :: behind front rest upper

theorem gaps_eq_behind (first : Bytes) (rest : List Bytes) (upper : Bound) : gaps (first :: rest) ++
        [.bytesRange ⟨⟨(first :: rest).getLastD first, false, true⟩, upper, Bool.false_and _⟩ false] =
      behind first rest upper := by
  induction rest generalizing first with
  | nil => simp [gaps, behind]
  | cons second rest ih =>
    have tail := ih second
    rw [gaps, cons_append, behind, ← tail]
    simp [getLast?_cons]

/-- A piece accepts the strings between its ends, unless it begins with the empty string and ends before it. -/
theorem piece_iff {range : BytesRange} (proper : range.beforeEmpty = false) (value : Bytes) :
    range.testBytes value = true ↔ Between range value := by
  rw [between_iff]
  exact ⟨fun test => ⟨test, fun _ => proper⟩, And.left⟩

theorem atMost_of_le {upper : Bound} {value other : Bytes} (below : upper.AtMost other) (order : value ≤ other) :
    upper.AtMost value := by
  rcases below with free | below | ⟨inclusive, equal⟩
  · exact .inl free
  · exact .inr (.inl (order.trans_lt below))
  · exact .inr (order.lt_or_eq.imp (equal ▸ ·) fun same => ⟨inclusive, same.trans equal⟩)

theorem atLeast_of_le {lower : Bound} {value other : Bytes} (above : lower.AtLeast other) (order : other ≤ value) :
    lower.AtLeast value := by
  rcases above with free | above | ⟨inclusive, equal⟩
  · exact .inl free
  · exact .inr (.inl (above.trans_le order))
  · exact .inr (order.lt_or_eq.imp (equal ▸ ·) fun same => ⟨inclusive, same.symm.trans equal⟩)

theorem openPiece_iff (back : Bytes) (upper : Bound) (value : Bytes) :
    (Filter.bytesRange ⟨⟨back, false, true⟩, upper, Bool.false_and _⟩ false).testBytes value = true ↔
      back < value ∧ upper.AtMost value := by
  rw [Filter.testBytes, piece_iff (by simp [BytesRange.beforeEmpty])]
  simp [Between, Bound.AtLeast]

theorem behind_iff {back : Bytes} {rest : List Bytes} {upper : Bound} (sorted : (back :: rest).Pairwise (· < ·))
    (below : ∀ reject ∈ rest, upper.AtMost reject) (value : Bytes) :
    (∃ filter ∈ behind back rest upper, filter.testBytes value = true) ↔
      back < value ∧ upper.AtMost value ∧ value ∉ rest := by
  induction rest generalizing back with
  | nil =>
    simp only [behind, mem_singleton, exists_eq_left, openPiece_iff, not_mem_nil, not_false_eq_true, and_true]
  | cons front rest ih =>
    obtain ⟨first, tail⟩ := pairwise_cons.mp sorted
    have order : back < front := first front mem_cons_self
    have within : upper.AtMost front := below front mem_cons_self
    have later : ∀ reject ∈ rest, front < reject := (pairwise_cons.mp tail).1
    rw [behind, exists_mem_cons_iff, openPiece_iff,
      ih tail fun reject mem => below reject (mem_cons_of_mem front mem)]
    have piece : (Bound.mk front false true).AtMost value ↔ value < front := by simp [Bound.AtMost]
    rw [piece, mem_cons, not_or]
    constructor
    · rintro (⟨above, less⟩ | ⟨above, inside, missing⟩)
      · exact ⟨above, atMost_of_le within less.le, less.ne, fun mem => lt_asymm less (later value mem)⟩
      · exact ⟨order.trans above, inside, above.ne', missing⟩
    · rintro ⟨above, inside, apart, missing⟩
      rcases lt_or_gt_of_ne apart with less | greater
      · exact .inl ⟨above, less⟩
      · exact .inr ⟨greater, inside, missing⟩

variable (this : ValueSet) (range : BytesRange) (value : Bytes)

theorem mem_inRange : value ∈ inRange this range ↔ value ∈ this.values ∧ range.testBytes value = true := by
  rw [inRange, Finset.mem_filter]

theorem mem_withoutLower : value ∈ withoutLower this range ↔
    value ∈ inRange this range ∧ (range.lower.unbounded = false → value ≠ range.lower.value) := by
  unfold withoutLower
  cases range.lower.unbounded
  · simp [and_comm]
  · simp

theorem mem_rejectedValues : value ∈ rejectedValues this range ↔
    value ∈ withoutLower this range ∧ (range.upper.unbounded = false → value ≠ range.upper.value) := by
  unfold rejectedValues
  cases range.upper.unbounded
  · simp [and_comm]
  · simp

/-- Leaving out an end that is dropped leaves out just that value. -/
theorem trim_iff {beyond : Prop} {out : Bool} {value bound : Bytes} {dropped : Finset Bytes}
    (apart : beyond → value ≠ bound) : (beyond ∨ (out = false ∧ bound ∉ dropped) ∧ value = bound) ↔
      (beyond ∨ out = false ∧ value = bound) ∧ ¬(value = bound ∧ value ∈ dropped) := by
  by_cases same : value = bound
  · simp [same, show ¬beyond from fun outside => apart outside same]
  · simp [same]

theorem trimmedLower_iff : (trimmedLower this range).AtLeast value ↔ range.lower.AtLeast value ∧
    ¬ (range.lower.unbounded = false ∧ value = range.lower.value ∧ value ∈ inRange this range) := by
  unfold trimmedLower loExclusive Bound.AtLeast
  cases range.lower.unbounded with
  | true => simp
  | false =>
    simp only [Bool.not_false, Bool.true_and, Bool.or_eq_false_iff, decide_eq_false_iff_not, Bool.false_eq_true,
      false_or, true_and]
    exact trim_iff fun above => above.ne'

theorem trimmedUpper_iff : (trimmedUpper this range).AtMost value ↔ range.upper.AtMost value ∧
    ¬ (range.upper.unbounded = false ∧ value = range.upper.value ∧ value ∈ withoutLower this range) := by
  unfold trimmedUpper hiExclusive Bound.AtMost
  cases range.upper.unbounded with
  | true => simp
  | false =>
    simp only [Bool.not_false, Bool.true_and, Bool.or_eq_false_iff, decide_eq_false_iff_not, Bool.false_eq_true,
      false_or, true_and]
    exact trim_iff fun below => below.ne

/-- A rejected value is missing as an end or as a cut. -/
theorem trimmed_iff :
    ((trimmedLower this range).AtLeast value ∧ (trimmedUpper this range).AtMost value ∧
        value ∉ rejectedValues this range) ↔ Between range value ∧ value ∉ inRange this range := by
  rw [trimmedLower_iff, trimmedUpper_iff, mem_rejectedValues]
  have split := mem_withoutLower this range value
  unfold Between
  constructor
  · rintro ⟨⟨above, notLower⟩, ⟨below, notUpper⟩, kept⟩
    refine ⟨⟨above, below⟩, fun mem => ?_⟩
    have inner : value ∈ withoutLower this range := split.mpr ⟨mem, fun low same => notLower ⟨low, same, mem⟩⟩
    exact kept ⟨inner, fun high same => notUpper ⟨high, same, inner⟩⟩
  · rintro ⟨⟨above, below⟩, missing⟩
    refine ⟨⟨above, fun both => missing both.2.2⟩, ⟨below, fun both => missing (split.mp both.2.2).1⟩, fun both => ?_⟩
    exact missing (split.mp both.1).1

theorem trimmed_beforeEmpty_iff :
    (BytesRange.mk (trimmedLower this range) (trimmedUpper this range) range.bounded).beforeEmpty = true ↔
      range.beforeEmpty = true ∧ Bytes.empty ∉ inRange this range := by
  rw [beforeEmpty_iff, beforeEmpty_iff]
  simp only [trimmedLower, trimmedUpper, loExclusive, hiExclusive]
  constructor
  · rintro ⟨⟨low, blank, notLower⟩, high, otherBlank, upperEnd⟩
    rw [low, blank] at notLower
    rw [high, otherBlank] at upperEnd
    simp only [Bool.not_false, Bool.true_and, Bool.or_eq_false_iff, decide_eq_false_iff_not] at notLower
    simp only [Bool.not_false, Bool.true_and, Bool.or_eq_true, decide_eq_true_iff, mem_withoutLower] at upperEnd
    refine ⟨⟨⟨low, blank, notLower.1⟩, high, otherBlank, ?_⟩, notLower.2⟩
    rcases upperEnd with exclusive | both
    · exact exclusive
    · exact absurd both.1 notLower.2
  · rintro ⟨⟨⟨low, blank, included⟩, high, otherBlank, exclusive⟩, missing⟩
    refine ⟨⟨low, blank, ?_⟩, high, otherBlank, ?_⟩
    · simp [low, blank, included, missing]
    · simp [high, exclusive]

/-- A value that is cut out lies between the ends that are left. -/
theorem rejected_within {reject : Bytes} (mem : reject ∈ rejectedValues this range) :
    (trimmedLower this range).AtLeast reject ∧ (trimmedUpper this range).AtMost reject := by
  obtain ⟨inner, notUpper⟩ := (mem_rejectedValues this range reject).mp mem
  obtain ⟨accepted, notLower⟩ := (mem_withoutLower this range reject).mp inner
  have test := ((mem_inRange this range reject).mp accepted).2
  have between : Between range reject := by
    rw [between_iff]
    refine ⟨test, fun empty => ?_⟩
    rw [Bool.eq_false_iff]
    intro ends
    obtain ⟨⟨low, blank, _⟩, _⟩ := (beforeEmpty_iff range).mp ends
    exact notLower low (empty.trans blank.symm)
  exact ⟨(trimmedLower_iff this range reject).mpr ⟨between.1, fun both => notLower both.1 both.2.1⟩,
    (trimmedUpper_iff this range reject).mpr ⟨between.2, fun both => notUpper both.1 both.2.1⟩⟩

theorem notMem_inRange_iff :
    (range.testBytes value = true ∧ value ∉ inRange this range) ↔ value ∉ this.values ∧
      range.testBytes value = true := by
  rw [mem_inRange]
  tauto

theorem whole_iff (none : rejectedValues this range = ∅) (value : Bytes) :
    (BytesRange.mk (trimmedLower this range) (trimmedUpper this range) range.bounded).testBytes value = true ↔
      range.testBytes value = true ∧ value ∉ inRange this range := by
  have inside := trimmed_iff this range value
  rw [none] at inside
  simp only [Finset.notMem_empty, not_false_eq_true, and_true] at inside
  rw [testRange_iff, inside, trimmed_beforeEmpty_iff, testRange_iff range]
  unfold Between
  constructor
  · rintro (⟨between, missing⟩ | ⟨⟨ends, missing⟩, rfl⟩)
    · exact ⟨.inl between, missing⟩
    · exact ⟨.inr ⟨ends, rfl⟩, missing⟩
  · rintro ⟨between | ⟨ends, rfl⟩, missing⟩
    · exact .inl ⟨between, missing⟩
    · exact .inr ⟨⟨ends, missing⟩, rfl⟩

theorem pieces_iff {first : Bytes} {rest : List Bytes} (cutOut : (rejectedValues this range).sort = first :: rest)
    (value : Bytes) :
    (∃ filter ∈ .bytesRange ⟨trimmedLower this range, ⟨first, false, true⟩, Bool.and_false _⟩ false ::
        behind first rest (trimmedUpper this range), filter.testBytes value = true) ↔
      range.testBytes value = true ∧ value ∉ inRange this range := by
  have members (reject : Bytes) : reject ∈ first :: rest ↔ reject ∈ rejectedValues this range := by
    rw [← cutOut, Finset.mem_sort]
  have sorted : (first :: rest).Pairwise (· < ·) := by
    rw [← cutOut]
    exact (Finset.sortedLT_sort _).pairwise
  have firstMember : first ∈ rejectedValues this range := (members first).mp mem_cons_self
  have firstWithin := rejected_within this range firstMember
  have notLower : range.lower.unbounded = false → first ≠ range.lower.value := fun low same =>
    ((mem_withoutLower this range first).mp ((mem_rejectedValues this range first).mp firstMember).1).2 low same
  have proper : (BytesRange.mk (trimmedLower this range) ⟨first, false, true⟩ (Bool.and_false _)).beforeEmpty =
    false := by
    rw [Bool.eq_false_iff, ne_eq, beforeEmpty_iff]
    rintro ⟨⟨low, blank, _⟩, _, otherBlank, _⟩
    exact notLower low (otherBlank.trans blank.symm)
  have between : range.testBytes value = true ↔ Between range value := by
    apply piece_iff
    rw [Bool.eq_false_iff]
    intro ends
    have accepted := ((mem_inRange this range first).mp
      ((mem_withoutLower this range first).mp ((mem_rejectedValues this range first).mp firstMember).1).1).2
    obtain ⟨⟨low, blank, _⟩, _⟩ := (beforeEmpty_iff range).mp ends
    rcases (testRange_iff range first).mp accepted with inside | ⟨_, empty⟩
    · exact not_between_of_beforeEmpty ends first inside
    · exact notLower low (empty.trans blank.symm)
  have begin : (Filter.bytesRange ⟨trimmedLower this range, ⟨first, false, true⟩,
    Bool.and_false _⟩ false).testBytes value =
      true ↔ (trimmedLower this range).AtLeast value ∧ value < first := by
    rw [Filter.testBytes, piece_iff proper]
    simp [Between, Bound.AtMost]
  rw [exists_mem_cons_iff, begin, behind_iff sorted fun reject mem =>
    (rejected_within this range ((members reject).mp (mem_cons_of_mem first mem))).2]
  rw [between, ← trimmed_iff, ← members, mem_cons, not_or]
  have later : ∀ reject ∈ rest, first < reject := (pairwise_cons.mp sorted).1
  constructor
  · rintro (⟨above, less⟩ | ⟨greater, below, missing⟩)
    · exact ⟨above, atMost_of_le firstWithin.2 less.le, less.ne, fun mem => lt_asymm less (later value mem)⟩
    · exact ⟨atLeast_of_le firstWithin.1 greater.le, below, greater.ne', missing⟩
  · rintro ⟨above, below, apart, missing⟩
    rcases lt_or_gt_of_ne apart with less | greater
    · exact .inl ⟨above, less⟩
    · exact .inr ⟨greater, below, missing⟩

theorem simple_behind (back : Bytes) (rest : List Bytes) (upper : Bound) :
    ∀ filter ∈ behind back rest upper, simple filter = true := by
  induction rest generalizing back with
  | nil => simp [behind, simple]
  | cons front rest ih =>
    intro filter mem
    rw [behind] at mem
    cases mem with
    | head => rfl
    | tail _ later => exact ih front filter later

theorem mergeNegatedValuesAndRange_result (null : Bool) : Result (mergeNegatedValuesAndRange this range null)
    (fun value => value ∉ this.values ∧ range.testBytes value = true) null := by
  unfold mergeNegatedValuesAndRange
  split
  case h_1 none =>
    have empty : rejectedValues this range = ∅ := by
      rw [Finset.eq_empty_iff_forall_notMem]
      intro value mem
      rw [← Finset.mem_sort (· ≤ ·), none] at mem
      cases mem
    refine ⟨fun value => ?_, rfl, trivial⟩
    rw [Filter.testBytes, whole_iff this range empty, notMem_inRange_iff]
  case h_2 first rest cutOut =>
    rw [append_assoc, gaps_eq_behind, singleton_append]
    refine ⟨fun value => ?_, rfl, ?_⟩
    · rw [Filter.testBytes, Filter.testSome_iff, pieces_iff this range cutOut, notMem_inRange_iff]
    · intro filter mem
      cases mem with
      | head => rfl
      | tail _ later => exact simple_behind first rest _ filter later

end CactusDB.Filters.BytesPieces
