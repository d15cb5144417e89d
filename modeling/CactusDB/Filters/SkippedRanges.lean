import CactusDB.Filters.BigintFilter
import CactusDB.Filters.BytesPieces

/-! Tests of whole ranges of values by their minimum and maximum: a range that is refused holds nothing that
the filter accepts. -/

namespace CactusDB.Filters.SkippedRanges

/-- A test that lets nulls pass first is right if it does so, or if it is right about the values. -/
theorem skips_iff {ρ : Type} {ok : Bool → ρ} {tested result : ρ} {hasNull null : Bool}
    {refused : Prop} (test : tested = if hasNull && null then ok true else result) :
    (∃ answer, tested = ok answer ∧ (answer = false → refused ∧ (hasNull = true → null = false))) ↔
      (hasNull && null) = true ∨ ∃ answer, result = ok answer ∧ (answer = false → refused) := by
  rw [test]
  cases passes : hasNull && null with
  | true => exact iff_of_true ⟨true, rfl, nofun⟩ (.inl rfl)
  | false =>
    simp only [Bool.false_eq_true, if_false, false_or]
    refine exists_congr fun answer => and_congr_right fun _ => forall_congr' fun _ => and_iff_left fun nulls => ?_
    rwa [nulls, Bool.true_and] at passes

section
open BigintFilter BigintFilter.Filter List ValueList

def hashHoldsSome (list : ValueList) (min max : Int) : Except Failure Bool :=
  if min = max then .ok (list.testHash min)
  else if list.max < min ∨ max < list.min then .ok false
  else match list.sorted[list.sorted.findIdx fun value => decide (min ≤ value)]? with
    | none => .error .undefined
    | some first => .ok (if min = first then true else decide (first ≤ max))

def bitmaskHoldsSome (list : MaskedList) (min max : Int) : Bool :=
  if min = max then list.testBitmask min else !decide (list.max < min ∨ max < list.min)

def hashLeavesSome (list : ValueList) (min max : Int) : Except Failure Bool :=
  if min = max then .ok (!list.testHash min)
  else if list.max < max ∨ min < list.min then .ok true
  else
    let lo := list.sorted.findIdx fun value => decide (min ≤ value)
    let hi := list.sorted.findIdx fun value => decide (max ≤ value)
    match list.sorted[lo]? with
    | none => .error .undefined
    | some low =>
      if min ≠ low then .ok true
      else match list.sorted[hi]? with
        | none => .error .undefined
        | some high =>
          if max ≠ high then .ok true
          else do
            let width ← checked (max - min)
            .ok (decide ((hi : Int) - lo ≠ width))

def bitmaskLeavesSome (list : MaskedList) (min max : Int) : Bool :=
  if min = max then !list.testBitmask min else true

def rangeTest (range : BigintRange) (min max : Int) (hasNull : Bool) : Bool :=
  if hasNull && range.nullAllowed then true else !decide (range.upper < min ∨ max < range.lower)

def testInt64Range (filter : Filter) (min max : Int) (hasNull : Bool) : Except Failure Bool :=
  match filter with
  | .alwaysFalse => .ok false
  | .alwaysTrue => .ok true
  | .isNull => .ok hasNull
  | .isNotNull => .ok true
  | .bigintRange range => .ok (rangeTest range min max hasNull)
  | .negatedBigintRange lower upper nullAllowed =>
    .ok (if hasNull && nullAllowed then true else !decide (lower ≤ min ∧ max ≤ upper))
  | .bigintValuesUsingHashTable list nullAllowed =>
    if hasNull && nullAllowed then .ok true else hashHoldsSome list min max
  | .bigintValuesUsingBitmask list nullAllowed =>
    .ok (if hasNull && nullAllowed then true else bitmaskHoldsSome list min max)
  | .negatedBigintValuesUsingHashTable list nullAllowed =>
    if hasNull && nullAllowed then .ok true else hashLeavesSome list min max
  | .negatedBigintValuesUsingBitmask list nullAllowed =>
    .ok (if hasNull && nullAllowed then true else bitmaskLeavesSome list min max)
  | .bigintMultiRange union nullAllowed =>
    .ok (if hasNull && nullAllowed then true else union.ranges.any fun range => rangeTest range min max hasNull)

def SkipsInts (filter : Filter) (min max : Int) (hasNull : Bool) : Prop :=
  ∃ answer, testInt64Range filter min max hasNull = .ok answer ∧
    (answer = false → (∀ value, min ≤ value → value ≤ max → filter.testInt64 value = false) ∧
      (hasNull = true → filter.testNull = false))

/-- A list that meets the range has a value to be found, and one that does not has no marker in it. -/
def HoldsRightly (list : ValueList) (min max : Int) : Prop :=
  min = max ∨ if list.max < min ∨ max < list.min then
    ¬(kEmptyMarker ∈ list.values ∧ min ≤ kEmptyMarker ∧ kEmptyMarker ≤ max)
  else ∃ value ∈ list.values, min ≤ value

/-- A list whose bounds hold the range has the values that are looked for. If it has both ends of the range, their
difference is a number, and the entries between them do not make up in number for values that are missing. -/
def LeavesRightly (list : ValueList) (min max : Int) : Prop :=
  min = max ∨ (list.max < max ∨ min < list.min) ∨ ((∃ value ∈ list.values, min ≤ value) ∧ (min ∈ list.values →
    (∃ value ∈ list.values, max ≤ value) ∧ (max ∈ list.values → isInt64 (max - min) ∧
      (((list.values.countP fun value => decide (min ≤ value ∧ value < max)) : Int) = max - min →
        ∀ value, min ≤ value → value ≤ max → value ∈ list.values))))

/-- When the test is right: it lets nulls pass, or a list is looked up rightly, or no range of a union begins between
the bounds, unless one of them meets what lies between. -/
def SoundInts (filter : Filter) (min max : Int) (hasNull : Bool) : Prop :=
  match filter with
  | .bigintValuesUsingHashTable list null => (hasNull && null) = true ∨ HoldsRightly list min max
  | .negatedBigintValuesUsingHashTable list null => (hasNull && null) = true ∨ LeavesRightly list min max
  | .bigintMultiRange union null => (hasNull && null) = true ∨
    (∃ range ∈ union.ranges, (hasNull && range.nullAllowed) = true ∨ (min ≤ range.upper ∧ range.lower ≤ max)) ∨
      ∀ range ∈ union.ranges, ¬(min ≤ range.lower ∧ range.lower ≤ max)
  | _ => True

variable {filter : Filter} {min max : Int} {hasNull : Bool}

theorem ok_ite (condition : Bool) (answer : Bool) :
    (Except.ok (if condition then true else answer) : Except Failure Bool) =
      if condition then .ok true else .ok answer := by
  cases condition <;> rfl

section

variable {values : List Int}

/-- The first of ascending values that reaches a bound is the least that does. -/
theorem find_sorted_iff (sorted : values.Pairwise (· ≤ ·)) (bound first : Int) :
    values.find? (fun value => decide (bound ≤ value)) = some first ↔
      first ∈ values ∧ bound ≤ first ∧ ∀ value ∈ values, bound ≤ value → first ≤ value := by
  induction values with
  | nil => simp
  | cons value rest ih =>
    have order := pairwise_cons.mp sorted
    by_cases reached : bound ≤ value
    · rw [find?_cons_of_pos (by simpa using reached), Option.some.injEq]
      constructor
      · rintro rfl
        exact ⟨mem_cons_self, reached, forall_mem_cons.mpr ⟨fun _ => Int.le_refl _, fun other mem _ =>
          order.1 other mem⟩⟩
      · rintro ⟨mem, _, least⟩
        have below := least value mem_cons_self reached
        rcases mem_cons.mp mem with same | later
        · exact same.symm
        · exact Int.le_antisymm (order.1 first later) below
    · rw [find?_cons_of_neg (by simpa using reached), ih order.2]
      simp only [mem_cons, forall_eq_or_imp, reached, false_imp_iff, true_and]
      refine ⟨fun known => ⟨.inr known.1, known.2⟩, fun known => ⟨known.1.resolve_left ?_, known.2⟩⟩
      rintro rfl
      exact reached known.2.1

theorem findIdx_sorted (sorted : values.Pairwise (· ≤ ·)) (bound : Int) :
    values.findIdx (fun value => decide (bound ≤ value)) = values.countP fun value => decide (value < bound) := by
  induction values with
  | nil => rfl
  | cons value rest ih =>
    have order := pairwise_cons.mp sorted
    rw [findIdx_cons, countP_cons]
    by_cases reached : bound ≤ value
    · have none : rest.countP (fun value => decide (value < bound)) = 0 := by
        rw [countP_eq_zero]
        intro other mem
        have later := order.1 other mem
        simp only [decide_eq_true_iff]
        omega
      rw [none, decide_eq_true reached, decide_eq_false (by omega)]
      rfl
    · rw [ih order.2, decide_eq_false reached, decide_eq_true (by omega)]
      rfl

theorem countP_between (forward : min ≤ max) : (values.countP fun value => decide (value < max)) =
    (values.countP fun value => decide (value < min)) + values.countP fun value =>
      decide (min ≤ value ∧ value < max) := by
  induction values with
  | nil => rfl
  | cons value rest ih =>
    rw [countP_cons, countP_cons, countP_cons, ih]
    simp only [decide_eq_true_iff]
    split_ifs <;> omega

end

variable (list : ValueList)

theorem lookup_iff (bound first : Int) :
    list.sorted[list.sorted.findIdx fun value => decide (bound ≤ value)]? = some first ↔
      first ∈ list.values ∧ bound ≤ first ∧ ∀ value ∈ list.values, bound ≤ value → first ≤ value := by
  rw [← find?_eq_getElem?_findIdx, find_sorted_iff (sorted_pairwise list)]
  simp only [mem_sorted_iff]

theorem lookup_none_iff (bound : Int) :
    list.sorted[list.sorted.findIdx fun value => decide (bound ≤ value)]? = none ↔ ¬∃ value ∈ list.values,
      bound ≤ value := by
  rw [← find?_eq_getElem?_findIdx, find?_eq_none]
  simp [mem_sorted_iff]

/-- The place of the upper bound lies behind that of the lower one by the entries between them. -/
theorem places_between (forward : min ≤ max) :
    ((list.sorted.findIdx fun value => decide (max ≤ value) : Nat) : Int) -
        (list.sorted.findIdx fun value => decide (min ≤ value) : Nat) =
      (list.values.countP fun value => decide (min ≤ value ∧ value < max) : Nat) := by
  have same : list.sorted.countP (fun value => decide (min ≤ value ∧ value < max)) = list.values.countP _ :=
    (mergeSort_perm list.values _).countP_eq _
  rw [findIdx_sorted (sorted_pairwise list), findIdx_sorted (sorted_pairwise list), countP_between forward, same]
  omega

theorem hashHoldsSome_iff : (∃ answer, hashHoldsSome list min max = .ok answer ∧
      (answer = false → ∀ value, min ≤ value → value ≤ max → list.testHash value = false)) ↔
    HoldsRightly list min max := by
  unfold hashHoldsSome HoldsRightly
  by_cases single : min = max
  · rw [if_pos single]
    refine iff_of_true ⟨_, rfl, fun none value lower upper => ?_⟩ (.inl single)
    rwa [show value = min by omega]
  · rw [if_neg single, or_iff_right single]
    by_cases apart : list.max < min ∨ max < list.min
    · rw [if_pos apart, if_pos apart]
      simp only [Except.ok.injEq, exists_eq_left', true_imp_iff, testHash_eq, decide_eq_false_iff_not]
      constructor
      · rintro refused ⟨mem, lower, upper⟩
        exact refused _ lower upper ⟨mem, .inl rfl⟩
      · rintro free value lower upper ⟨mem, marker | bounds⟩
        · subst marker
          exact free ⟨mem, lower, upper⟩
        · omega
    · rw [if_neg apart, if_neg apart]
      cases found : list.sorted[list.sorted.findIdx fun value => decide (min ≤ value)]? with
      | none => exact iff_of_false (fun ⟨_, failed, _⟩ => nomatch failed) ((lookup_none_iff list min).mp found)
      | some first =>
        obtain ⟨mem, reached, least⟩ := (lookup_iff list min first).mp found
        refine iff_of_true ⟨_, rfl, fun none value lower upper => ?_⟩ ⟨first, mem, reached⟩
        rw [testHash_eq, decide_eq_false_iff_not]
        rintro ⟨inList, _⟩
        have order := least value inList lower
        split at none
        · cases none
        · simp only [decide_eq_false_iff_not] at none
          omega

/-- Between two of its values a list leaves something unless its entries fill the range. -/
theorem countLeft_iff (inside : ∀ value, min ≤ value → value ≤ max → list.min ≤ value ∧ value ≤ list.max) :
    (∃ answer, (checked (max - min) >>= fun width => Except.ok (decide (
        ((list.sorted.findIdx fun value => decide (max ≤ value) : Nat) : Int) -
          (list.sorted.findIdx fun value => decide (min ≤ value) : Nat) ≠ width))) = .ok answer ∧
      (answer = false → ∀ value, min ≤ value → value ≤ max → (!list.testHash value) = false)) ↔
    isInt64 (max - min) ∧ (((list.values.countP fun value => decide (min ≤ value ∧ value < max)) : Int) = max - min →
      ∀ value, min ≤ value → value ≤ max → value ∈ list.values) := by
  by_cases number : isInt64 (max - min)
  · rw [checked_ok number, and_iff_right number]
    simp only [Bind.bind, Except.bind, Except.ok.injEq, exists_eq_left', decide_eq_false_iff_not, not_not,
      Bool.not_eq_false', testHash_eq, decide_eq_true_iff]
    by_cases forward : min ≤ max
    · rw [places_between list forward]
      refine forall_congr' fun _ => forall_congr' fun value => forall₂_congr fun lower upper => ?_
      exact ⟨And.left, fun mem => ⟨mem, .inr (inside value lower upper)⟩⟩
    · exact iff_of_true (fun _ value lower upper => by omega) fun _ value lower upper => by omega
  · rw [checked, if_neg number]
    refine iff_of_false ?_ fun known => number known.1
    rintro ⟨answer, failed, -⟩
    cases failed

theorem hashLeavesSome_iff : (∃ answer, hashLeavesSome list min max = .ok answer ∧
      (answer = false → ∀ value, min ≤ value → value ≤ max → (!list.testHash value) = false)) ↔
    LeavesRightly list min max := by
  unfold LeavesRightly
  by_cases single : min = max
  · rw [hashLeavesSome, if_pos single]
    refine iff_of_true ⟨_, rfl, fun none value lower upper => ?_⟩ (.inl single)
    rwa [show value = min by omega]
  rw [or_iff_right single]
  by_cases wide : list.max < max ∨ min < list.min
  · rw [hashLeavesSome, if_neg single, if_pos wide]
    exact iff_of_true ⟨true, rfl, nofun⟩ (.inl wide)
  rw [or_iff_right wide]
  simp only [hashLeavesSome, if_neg single, if_neg wide]
  cases lowFound : list.sorted[list.sorted.findIdx fun value => decide (min ≤ value)]? with
  | none => exact iff_of_false (by simp) fun known => (lookup_none_iff list min).mp lowFound known.1
  | some low =>
    obtain ⟨lowMem, lowReached, lowLeast⟩ := (lookup_iff list min low).mp lowFound
    rw [and_iff_right ⟨low, lowMem, lowReached⟩]
    by_cases lowest : min = low
    · subst lowest
      simp only [ne_eq, not_true_eq_false, if_false, lowMem, true_imp_iff]
      cases highFound : list.sorted[list.sorted.findIdx fun value => decide (max ≤ value)]? with
      | none => exact iff_of_false (by simp) fun known => (lookup_none_iff list max).mp highFound known.1
      | some high =>
        obtain ⟨highMem, highReached, highLeast⟩ := (lookup_iff list max high).mp highFound
        rw [and_iff_right ⟨high, highMem, highReached⟩]
        by_cases highest : max = high
        · subst highest
          simp only [not_true_eq_false, if_false, highMem, true_imp_iff]
          exact countLeft_iff list fun value lower upper => by omega
        · have absent : max ∉ list.values := fun mem => highest
            (Int.le_antisymm highReached (highLeast max mem (Int.le_refl max)))
          simp only [highest, not_false_eq_true, if_true]
          exact iff_of_true ⟨true, rfl, nofun⟩ fun mem => absurd mem absent
    · have absent : min ∉ list.values := fun mem => lowest
        (Int.le_antisymm lowReached (lowLeast min mem (Int.le_refl min)))
      simp only [ne_eq, lowest, not_false_eq_true, if_true]
      exact iff_of_true ⟨true, rfl, nofun⟩ fun mem => absurd mem absent

theorem rangeTest_iff (range : BigintRange) : rangeTest range min max hasNull = true ↔
    (hasNull && range.nullAllowed) = true ∨ (min ≤ range.upper ∧ range.lower ≤ max) := by
  unfold rangeTest
  split <;> simp [*]

theorem rangeTest_refused {range : BigintRange} (refused : rangeTest range min max hasNull = false) {value : Int}
    (lower : min ≤ value) (upper : value ≤ max) : range.testInt64 value = false := by
  have apart := (not_congr (rangeTest_iff range)).mp (Bool.eq_false_iff.mp refused)
  rw [BigintRange.testInt64, decide_eq_false_iff_not]
  omega

/-- A union whose ranges are all refused accepts only lower bounds of ranges that run backwards. -/
theorem union_refused_iff {union : RangeUnion} (ascending : Ascending union.ranges) :
    (∃ answer, (Except.ok (union.ranges.any fun range => rangeTest range min max hasNull) : Except Failure Bool) =
        .ok answer ∧ (answer = false → ∀ value, min ≤ value → value ≤ max → union.testInt64 value = false)) ↔
      (∃ range ∈ union.ranges, (hasNull && range.nullAllowed) = true ∨ (min ≤ range.upper ∧ range.lower ≤ max)) ∨
        ∀ range ∈ union.ranges, ¬(min ≤ range.lower ∧ range.lower ≤ max) := by
  simp only [Except.ok.injEq, exists_eq_left', testUnion_eq ascending, ← rangeTest_iff]
  by_cases some : ∃ range ∈ union.ranges, rangeTest range min max hasNull = true
  · rw [any_eq_true.mpr some]
    exact iff_of_true nofun (.inl some)
  · rw [or_iff_right some]
    have none : union.ranges.any (fun range => rangeTest range min max hasNull) = false := by
      rw [← Bool.not_eq_true, any_eq_true]
      exact some
    simp only [none, true_imp_iff]
    constructor
    · intro refused range mem between
      have reached := any_eq_false.mp (refused range.lower between.1 between.2) range mem
      simp [BigintRange.reaches] at reached
    · intro free value lower upper
      rw [any_eq_false]
      intro range mem reached
      rw [BigintRange.reaches, Bool.or_eq_true, decide_eq_true_iff] at reached
      rcases reached with hit | held
      · exact free range mem (by omega)
      · rw [rangeTest_refused (Bool.eq_false_iff.mpr (any_eq_false.mp none range mem)) lower upper] at held
        cases held

theorem skipsInts_iff (searchable : filter.searchable = true) (hasNull : Bool) :
    SkipsInts filter min max hasNull ↔ SoundInts filter min max hasNull := by
  cases filter with
  | alwaysFalse => exact iff_of_true ⟨false, rfl, fun _ => ⟨fun _ _ _ => rfl, fun _ => rfl⟩⟩ trivial
  | alwaysTrue => exact iff_of_true ⟨true, rfl, nofun⟩ trivial
  | isNull =>
    refine iff_of_true ⟨hasNull, rfl, fun none => ⟨fun _ _ _ => rfl, fun nulls => ?_⟩⟩ trivial
    rw [none] at nulls
    cases nulls
  | isNotNull => exact iff_of_true ⟨true, rfl, nofun⟩ trivial
  | bigintRange range =>
    have test : testInt64Range (.bigintRange range) min max hasNull = if hasNull && range.nullAllowed then .ok true else
        .ok (!decide (range.upper < min ∨ max < range.lower)) := ok_ite _ _
    refine iff_of_true ((skips_iff test).mpr (.inr ⟨_, rfl, fun refused value lower upper => ?_⟩)) trivial
    rw [Bool.not_eq_false', decide_eq_true_iff] at refused
    simp only [testInt64, BigintRange.testInt64, decide_eq_false_iff_not]
    omega
  | negatedBigintRange lower upper null =>
    refine iff_of_true ((skips_iff (ok_ite _ _)).mpr (.inr ⟨_, rfl, fun refused value above below => ?_⟩)) trivial
    have inside : lower ≤ min ∧ max ≤ upper := by simpa using refused
    simp only [testInt64, BigintRange.testInt64, Bool.not_eq_false', decide_eq_true_iff]
    omega
  | bigintValuesUsingHashTable list null => exact (skips_iff rfl).trans (or_congr_right (hashHoldsSome_iff list))
  | bigintValuesUsingBitmask list null =>
    refine iff_of_true ((skips_iff (ok_ite _ _)).mpr (.inr ⟨_, rfl, fun refused value lower upper => ?_⟩)) trivial
    unfold bitmaskHoldsSome at refused
    split at refused
    · rwa [show value = min by omega]
    · rw [Bool.not_eq_false', decide_eq_true_iff] at refused
      rw [testInt64, MaskedList.testBitmask, if_pos (by omega)]
  | negatedBigintValuesUsingHashTable list null =>
      exact (skips_iff rfl).trans (or_congr_right (hashLeavesSome_iff list))
  | negatedBigintValuesUsingBitmask list null =>
    refine iff_of_true ((skips_iff (ok_ite _ _)).mpr (.inr ⟨_, rfl, fun refused value lower upper => ?_⟩)) trivial
    unfold bitmaskLeavesSome at refused
    split at refused
    · rwa [show value = min by omega]
    · cases refused
  | bigintMultiRange union null =>
    have ascending : Ascending union.ranges := of_decide_eq_true searchable
    exact (skips_iff (ok_ite _ _)).trans (or_congr_right (union_refused_iff ascending))

end

section
open BytesFilter BytesMerge BytesPieces

def rangeTestBytes (range : BytesRange) (min max : Option Bytes) : Bool :=
  (range.lower.unbounded || match max with
    | none => true
    | some max => decide ((if range.lower.exclusive then 1 else 0) ≤ compareRanges max range.lower.value)) &&
  (range.upper.unbounded || match min with
    | none => true
    | some min => decide (compareRanges min range.upper.value ≤ if range.upper.exclusive then -1 else 0))

/-- The test of a negated range. Without a minimum or a maximum it may read one that is absent. -/
def negatedRangeTestBytes (nonNegated : BytesRange) (min max : Option Bytes) : Option Bool :=
  if (min.isNone && !nonNegated.lower.unbounded) || (max.isNone && !nonNegated.upper.unbounded) then some true
  else if min.isSome && decide (min = max) then min.map fun value => !nonNegated.testBytes value
  else do
    let least ← min
    if !nonNegated.testBytes least then some true
    else do
      let greatest ← max
      some (!nonNegated.testBytes greatest)

mutual

/-- No answer means that a bound is read that is absent. -/
def testBytesRange (min max : Option Bytes) (hasNull : Bool) : Filter → Option Bool
  | .alwaysFalse => some false
  | .alwaysTrue => some true
  | .isNull => some hasNull
  | .isNotNull => some true
  | .bytesRange range nullAllowed => if hasNull && nullAllowed then some true else some (rangeTestBytes range min max)
  | .negatedBytesRange nonNegated nullAllowed =>
    if hasNull && nullAllowed then some true else negatedRangeTestBytes nonNegated min max
  | .bytesValues values nullAllowed => some (values.testBytesRange nullAllowed min max hasNull)
  | .negatedBytesValues nonNegated nullAllowed =>
    if hasNull && nullAllowed then some true
    else if min.isSome && decide (min = max) then min.map fun value => !nonNegated.testBytes value
    else some true
  | .multiRange filters nullAllowed _ =>
    if hasNull && nullAllowed then some true else testSomeRange min max hasNull filters

def testSomeRange (min max : Option Bytes) (hasNull : Bool) : List Filter → Option Bool
  | [] => some false
  | filter :: rest => do
    let answer ← testBytesRange min max hasNull filter
    if answer then some true else testSomeRange min max hasNull rest

end

def Spans (min max : Option Bytes) (value : Bytes) : Prop :=
  (∀ least, min = some least → least ≤ value) ∧ ∀ greatest, max = some greatest → value ≤ greatest

def SkipsBytes (filter : Filter) (min max : Option Bytes) (hasNull : Bool) : Prop :=
  ∃ answer, testBytesRange min max hasNull filter = some answer ∧
    (answer = false → (∀ value, Spans min max value → filter.testBytes value = false) ∧
      (hasNull = true → filter.testNull = false))

/-- A negated range has a bound for each of its ends, or both bounds are there, or the minimum alone decides. -/
def ReadsPresent (nonNegated : BytesRange) (min max : Option Bytes) : Prop :=
  (min = none ∧ nonNegated.lower.unbounded = false) ∨ (max = none ∧ nonNegated.upper.unbounded = false) ∨
    ∃ least, min = some least ∧ (nonNegated.testBytes least = false ∨ max ≠ none)

mutual

/-- When the test is right: it lets nulls pass, or no range begins and ends at the empty string that is the minimum, or
no absent bound is read. -/
def SoundBytes (min max : Option Bytes) (hasNull : Bool) : Filter → Prop
  | .bytesRange range null => (hasNull && null) = true ∨ ¬(range.beforeEmpty = true ∧ min = some .empty)
  | .negatedBytesRange nonNegated null => (hasNull && null) = true ∨ ReadsPresent nonNegated min max
  | .multiRange filters null _ => (hasNull && null) = true ∨ SomeSound min max hasNull filters
  | _ => True

/-- A filter of a union lets the range through, alone or with the filters behind it, or they are all right. -/
def SomeSound (min max : Option Bytes) (hasNull : Bool) : List Filter → Prop
  | [] => True
  | filter :: rest => testBytesRange min max hasNull filter = some true ∨
    (testBytesRange min max hasNull filter = some false ∧ testSomeRange min max hasNull rest = some true) ∨
      (SoundBytes min max hasNull filter ∧ SomeSound min max hasNull rest)

end

variable {min max : Option Bytes} {hasNull : Bool}

section

variable {bound : Bound} (bounded : bound.unbounded = false) (value : Bytes)
include bounded

theorem atLeast_iff : bound.AtLeast value ↔ (if bound.exclusive then 1 else 0) ≤ compareRanges value bound.value := by
  unfold Bound.AtLeast
  rw [bounded, ← compareRanges_pos_iff, ← compareRanges_zero_iff]
  cases bound.exclusive <;> simp <;> omega

theorem atMost_iff : bound.AtMost value ↔ compareRanges value bound.value ≤ if bound.exclusive then -1 else 0 := by
  unfold Bound.AtMost
  rw [bounded, ← compareRanges_neg_iff, ← compareRanges_zero_iff]
  cases bound.exclusive <;> simp <;> omega

end

/-- A range that is refused lies before the lower end or behind the upper one. -/
theorem rangeTestBytes_refused {range : BytesRange} (proper : range.beforeEmpty = false)
    (refused : rangeTestBytes range min max = false) {value : Bytes} (spans : Spans min max value) :
    range.testBytes value = false := by
  rw [Bool.eq_false_iff, ne_eq, piece_iff proper]
  rintro ⟨above, below⟩
  unfold rangeTestBytes at refused
  rw [Bool.and_eq_false_iff, Bool.or_eq_false_iff, Bool.or_eq_false_iff] at refused
  rcases refused with ⟨bounded, test⟩ | ⟨bounded, test⟩
  · cases max with
    | none => cases test
    | some greatest =>
      dsimp only at test
      rw [decide_eq_false_iff_not, ← atLeast_iff bounded] at test
      exact test (atLeast_of_le above (spans.2 greatest rfl))
  · cases min with
    | none => cases test
    | some least =>
      dsimp only at test
      rw [decide_eq_false_iff_not, ← atMost_iff bounded] at test
      exact test (atMost_of_le below (spans.1 least rfl))

/-- A range that accepts two strings accepts all between them. -/
theorem testBytes_between {range : BytesRange} {least greatest value : Bytes} (first : range.testBytes least = true)
    (last : range.testBytes greatest = true) (apart : least ≠ greatest) (above : least ≤ value)
    (below : value ≤ greatest) : range.testBytes value = true := by
  rw [testRange_iff] at first last ⊢
  have noEmpty : range.beforeEmpty = false := by
    rw [Bool.eq_false_iff]
    intro ends
    have only (value : Bytes) (accepted : (range.lower.AtLeast value ∧ range.upper.AtMost value) ∨
        (range.beforeEmpty = true ∧ value = .empty)) : value = .empty :=
      (accepted.resolve_left (not_between_of_beforeEmpty ends value)).2
    exact apart ((only least first).trans (only greatest last).symm)
  rw [noEmpty] at first last
  simp only [Bool.false_eq_true, false_and, or_false] at first last
  exact .inl ⟨atLeast_of_le first.1 above, atMost_of_le last.2 below⟩

theorem rangeTestBytes_beforeEmpty {range : BytesRange} (ends : range.beforeEmpty = true) :
    rangeTestBytes range min max = min.isNone := by
  obtain ⟨⟨lowBound, lowValue, lowIn⟩, highBound, highValue, highEx⟩ := (beforeEmpty_iff range).mp ends
  have above (value : Bytes) : 0 ≤ compareRanges value .empty :=
    not_lt.mp fun less => not_lt_empty value ((compareRanges_neg_iff value .empty).mp less)
  have notBelow (value : Bytes) : ¬ compareRanges value .empty ≤ -1 := fun less => by
    have := above value
    omega
  unfold rangeTestBytes
  rw [lowBound, lowValue, lowIn, highBound, highValue, highEx]
  cases min <;> cases max <;> simp [above, notBelow]

theorem range_refused_iff (range : BytesRange) :
    (∃ answer, some (rangeTestBytes range min max) = some answer ∧
      (answer = false → ∀ value, Spans min max value → range.testBytes value = false)) ↔
    ¬(range.beforeEmpty = true ∧ min = some .empty) := by
  simp only [Option.some.injEq, exists_eq_left']
  cases ends : range.beforeEmpty with
  | false => exact iff_of_true (fun refused _ spans => rangeTestBytes_refused ends refused spans) (by simp)
  | true =>
    rw [rangeTestBytes_beforeEmpty ends]
    constructor
    · rintro refuses ⟨_, rfl⟩
      have spans : Spans (some .empty) max .empty :=
        ⟨fun _ same => (Option.some.inj same).ge, fun greatest _ => not_lt.mp (not_lt_empty greatest)⟩
      have accepted : range.testBytes .empty = true := (testEmpty_iff range).mpr (.inr ends)
      rw [refuses rfl .empty spans] at accepted
      cases accepted
    · intro apart given value spans
      rw [Bool.eq_false_iff, ne_eq, testRange_iff]
      rintro (between | ⟨_, rfl⟩)
      · exact not_between_of_beforeEmpty ends value between
      · cases min with
        | none => cases given
        | some least =>
          have none : least = .empty := le_antisymm (spans.1 least rfl) (not_lt.mp (not_lt_empty least))
          exact apart ⟨rfl, congrArg some none⟩

theorem negatedRange_refused {range : BytesRange} (present : ReadsPresent range min max) :
    ∃ answer, negatedRangeTestBytes range min max = some answer ∧
      (answer = false → ∀ value, Spans min max value → (!range.testBytes value) = false) := by
  unfold negatedRangeTestBytes
  split
  · exact ⟨true, rfl, by simp⟩
  case isFalse read =>
    rcases present with ⟨absent, bounded⟩ | ⟨absent, bounded⟩ | ⟨least, given, decided⟩
    · simp [absent, bounded] at read
    · simp [absent, bounded] at read
    · subst given
      split
      case isTrue single =>
        refine ⟨_, rfl, fun refused value spans => ?_⟩
        have same : some least = max := by simpa using single
        have equal : value = least := le_antisymm (spans.2 least same.symm) (spans.1 least rfl)
        rwa [equal]
      case isFalse several =>
        cases first : range.testBytes least with
        | false => exact ⟨true, by simp [first], by simp⟩
        | true =>
          cases max with
          | none =>
            rcases decided with outside | found
            · rw [first] at outside
              cases outside
            · exact absurd rfl found
          | some greatest =>
            refine ⟨!range.testBytes greatest, by simp [first], fun refused value spans => ?_⟩
            have last : range.testBytes greatest = true := by simpa using refused
            have apart : least ≠ greatest := by simpa using several
            rw [testBytes_between first last apart (spans.1 least rfl) (spans.2 greatest rfl)]
            rfl

/-- A test that answers has a bound for each of its ends or reads none that is absent. -/
theorem readsPresent_of_answer {range : BytesRange} {answer : Bool}
    (done : negatedRangeTestBytes range min max = some answer) : ReadsPresent range min max := by
  unfold negatedRangeTestBytes at done
  unfold ReadsPresent
  cases min with
  | none => cases low : range.lower.unbounded <;> cases max <;> simp_all
  | some least =>
    cases max with
    | some greatest => exact .inr (.inr ⟨least, rfl, .inr nofun⟩)
    | none => cases high : range.upper.unbounded <;> cases first : range.testBytes least <;> simp_all

theorem negatedRange_iff (range : BytesRange) :
    (∃ answer, negatedRangeTestBytes range min max = some answer ∧
      (answer = false → ∀ value, Spans min max value → (!range.testBytes value) = false)) ↔
        ReadsPresent range min max :=
  ⟨fun ⟨_, done, _⟩ => readsPresent_of_answer done, negatedRange_refused⟩

/-- Every test lets nulls pass that the filter accepts. -/
theorem testNull_of_refused {filter : Filter} (refused : testBytesRange min max hasNull filter = some false)
    (nulls : hasNull = true) : filter.testNull = false := by
  subst nulls
  rw [Bool.eq_false_iff]
  intro accepted
  cases filter <;> simp_all [Filter.testNull, testBytesRange, ValueSet.testBytesRange]

mutual

theorem skipsBytes_iff (min max : Option Bytes) (hasNull : Bool) :
    ∀ filter, SkipsBytes filter min max hasNull ↔ SoundBytes min max hasNull filter
  | .alwaysFalse => by
    refine iff_of_true ⟨false, by rw [testBytesRange], fun _ => ⟨fun _ _ => ?_, fun _ => rfl⟩⟩
      (by simp only [SoundBytes])
    rw [Filter.testBytes]
  | .alwaysTrue => iff_of_true ⟨true, by rw [testBytesRange], nofun⟩ (by simp only [SoundBytes])
  | .isNull => by
    refine iff_of_true ⟨hasNull, by rw [testBytesRange], fun none => ⟨fun _ _ => ?_, ?_⟩⟩ (by simp only [SoundBytes])
    · rw [Filter.testBytes]
    · rw [none]
      nofun
  | .isNotNull => iff_of_true ⟨true, by rw [testBytesRange], nofun⟩ (by simp only [SoundBytes])
  | .bytesRange range null => by
    have test : testBytesRange min max hasNull (.bytesRange range null) =
        if hasNull && null then some true else some (rangeTestBytes range min max) := by rw [testBytesRange]
    rw [SoundBytes, ← range_refused_iff]
    simp only [SkipsBytes, Filter.testBytes]
    exact skips_iff test
  | .negatedBytesRange range null => by
    have test : testBytesRange min max hasNull (.negatedBytesRange range null) =
        if hasNull && null then some true else negatedRangeTestBytes range min max := by rw [testBytesRange]
    rw [SoundBytes, ← negatedRange_iff]
    simp only [SkipsBytes, Filter.testBytes]
    exact skips_iff test
  | .bytesValues values null => by
    refine iff_of_true ⟨_, by rw [testBytesRange], fun refused => ⟨fun value spans => ?_, fun nulls => ?_⟩⟩
      (by simp only [SoundBytes])
    · rw [Filter.testBytes, testValues_eq, decide_eq_false_iff_not]
      intro mem
      rw [testBytesRange_of_mem mem spans.1 spans.2] at refused
      cases refused
    · cases null with
      | false => rfl
      | true =>
        rw [nulls] at refused
        cases refused
  | .negatedBytesValues values null => by
    have test : testBytesRange min max hasNull (.negatedBytesValues values null) =
        if hasNull && null then some true
        else if min.isSome && decide (min = max) then min.map fun value => !values.testBytes value
        else some true := by rw [testBytesRange]
    refine iff_of_true ((skips_iff test).mpr (.inr ?_)) (by simp only [SoundBytes])
    split
    case isTrue single =>
      cases min with
      | none => cases single
      | some least =>
        refine ⟨_, rfl, fun refused value spans => ?_⟩
        have same : some least = max := by simpa using single
        have equal : value = least := le_antisymm (spans.2 least same.symm) (spans.1 least rfl)
        rw [Filter.testBytes, equal]
        exact refused
    case isFalse => exact ⟨true, rfl, nofun⟩
  | .multiRange filters null nan => by
    have test : testBytesRange min max hasNull (.multiRange filters null nan) =
        if hasNull && null then some true else testSomeRange min max hasNull filters := by rw [testBytesRange]
    rw [SoundBytes, ← skipsSome_iff min max hasNull filters]
    simp only [SkipsBytes, Filter.testBytes]
    exact skips_iff test

theorem skipsSome_iff (min max : Option Bytes) (hasNull : Bool) :
    ∀ filters, (∃ answer, testSomeRange min max hasNull filters = some answer ∧
      (answer = false → ∀ value, Spans min max value → Filter.testSome filters value = false)) ↔
        SomeSound min max hasNull filters
  | [] => by
    refine iff_of_true ⟨false, by rw [testSomeRange], fun _ _ _ => by rw [Filter.testSome]⟩ ?_
    rw [SomeSound]
    trivial
  | filter :: rest => by
    rw [SomeSound, ← skipsBytes_iff min max hasNull filter, ← skipsSome_iff min max hasNull rest, testSomeRange]
    simp only [SkipsBytes, Filter.testSome]
    cases first : testBytesRange min max hasNull filter with
    | none => simp
    | some answer =>
      cases answer with
      | true => simp
      | false =>
        cases others : testSomeRange min max hasNull rest with
        | none => simp
        | some answer =>
          cases answer with
          | true => simp
          | false =>
            have noNull : hasNull = true → filter.testNull = false := testNull_of_refused first
            have both (value : Bytes) : (if filter.testBytes value then true else Filter.testSome rest value) = false ↔
                filter.testBytes value = false ∧ Filter.testSome rest value = false := by
              cases filter.testBytes value <;> simp
            simp only [Bind.bind, Option.bind, Bool.false_eq_true, if_false, Option.some.injEq, exists_eq_left',
              true_imp_iff, and_false, false_or, both, and_iff_left noNull, ← forall_and]

end

end

open BigintFilter BytesFilter

/-- A range of values is skipped by its minimum and maximum only where it holds nothing that the filter accepts, and no
end of a list or absent bound is read, exactly under the conditions on lists, unions and bounds. -/
theorem skipped_ranges_lose_nothing (integers : BigintFilter.Filter) (strings : BytesFilter.Filter) (hasNull : Bool) :
    (∀ min max : Int, integers.searchable = true →
      (SkipsInts integers min max hasNull ↔ SoundInts integers min max hasNull)) ∧
    (∀ min max : Option Bytes, SkipsBytes strings min max hasNull ↔ SoundBytes min max hasNull strings) :=
  ⟨fun _ _ searchable => skipsInts_iff searchable hasNull, fun min max => skipsBytes_iff min max hasNull strings⟩

def repeatedList : ValueList :=
  ⟨0, 1000000000, [0, 0, 2, 1000000000], by decide, by decide⟩

def upToEmpty : BytesRange := ⟨⟨.empty, true, false⟩, ⟨.empty, false, false⟩, rfl⟩

theorem upToEmpty_skipped :
    SkipsInts (.negatedBigintValuesUsingHashTable repeatedList false) 5 5 false ∧
      SkipsBytes (.negatedBytesRange upToEmpty true) none (some .empty) true :=
  ⟨((skipped_ranges_lose_nothing _ .isNull false).1 5 5 rfl).mpr (.inr (.inl rfl)),
    ((skipped_ranges_lose_nothing .isNull _ true).2 none _).mpr (by simp [SoundBytes])⟩

def twoValues : ValueList := ⟨0, 20, [5, 7], by decide, by decide⟩

/-- The repeated value makes up for the missing 1, a list is read behind its end, and a minimum is read that is
absent. -/
theorem accepted_value_skipped :
    testInt64Range (.negatedBigintValuesUsingHashTable repeatedList false) 0 2 false = .ok false ∧
      (BigintFilter.Filter.negatedBigintValuesUsingHashTable repeatedList false).testInt64 1 = true ∧
      testInt64Range (.bigintValuesUsingHashTable twoValues false) 8 12 false = .error .undefined ∧
      testBytesRange none (some .empty) false (.negatedBytesRange upToEmpty false) = none := by
  have sorted : repeatedList.sorted = [0, 0, 2, 1000000000] := List.mergeSort_of_pairwise (by decide)
  have two : twoValues.sorted = [5, 7] := List.mergeSort_of_pairwise (by decide)
  refine ⟨?_, by decide +kernel, ?_, by decide +kernel⟩
  · simp only [testInt64Range, hashLeavesSome, sorted]
    decide +kernel
  · simp only [testInt64Range, hashHoldsSome, two]
    decide +kernel

end CactusDB.Filters.SkippedRanges
