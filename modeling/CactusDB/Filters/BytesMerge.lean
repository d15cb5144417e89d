import CactusDB.Filters.BytesFilter

/-! Merging two filters over byte strings into one. -/

namespace CactusDB.Filters.BytesMerge
open BytesFilter

def nullOrFalse (nullAllowed : Bool) : Filter := if nullAllowed then .isNull else .alwaysFalse

/-- Left before right for upper ends, right before left for lower ends. -/
def mergeExclusive (compareResult : Int) (left right : Bool) : Bool :=
  if compareResult = 0 then left || right else if compareResult < 0 then left else right

def mergeLower (this other : Bound) : Bound :=
  if this.unbounded then other
  else if other.unbounded then this
  else
    let compare := this.value.compare other.value
    ⟨if compare < 0 then other.value else this.value, false, mergeExclusive (-compare) this.exclusive other.exclusive⟩

def mergeUpper (this other : Bound) : Bound :=
  if this.unbounded then other
  else if other.unbounded then this
  else
    let compare := this.value.compare other.value
    ⟨if compare < 0 then this.value else other.value, false, mergeExclusive compare this.exclusive other.exclusive⟩

/-- Each range has an end, which the merged range keeps. -/
theorem merged_bounded (this other : BytesRange) :
    ((mergeLower this.lower other.lower).unbounded && (mergeUpper this.upper other.upper).unbounded) = false := by
  rw [Bool.and_eq_false_iff]
  refine (Bool.and_eq_false_iff.mp this.bounded).imp (fun low => ?_) (fun high => ?_)
  · cases other : other.lower.unbounded <;> simp [mergeLower, low, other]
  · cases other : other.upper.unbounded <;> simp [mergeUpper, high, other]

def mergeRanges (this other : BytesRange) (bothNullAllowed : Bool) : Filter :=
  let lower := mergeLower this.lower other.lower
  let upper := mergeUpper this.upper other.upper
  if !lower.unbounded && !upper.unbounded &&
      (decide (upper.value < lower.value) ||
        (decide (lower.value = upper.value) && (lower.exclusive || upper.exclusive))) then
    nullOrFalse bothNullAllowed
  else .bytesRange ⟨lower, upper, merged_bounded this other⟩ bothNullAllowed

/-- An end that the range accepts is rejected by its negation, and is left out. -/
def belowRange (range : BytesRange) : BytesRange :=
  ⟨⟨.empty, true, false⟩, ⟨range.lower.value, false, range.testBytes range.lower.value⟩, rfl⟩

def aboveRange (range : BytesRange) : BytesRange :=
  ⟨⟨range.upper.value, false, range.testBytes range.upper.value⟩, ⟨.empty, true, false⟩, rfl⟩

def accepted (nonNegated : BytesRange) : List Filter :=
  (if !nonNegated.lower.unbounded then [.bytesRange (belowRange nonNegated) false] else []) ++
    (if !nonNegated.upper.unbounded then [.bytesRange (aboveRange nonNegated) false] else [])

def toMultiRange (nonNegated : BytesRange) (nullAllowed : Bool) : Filter :=
  match accepted nonNegated with
  | [] => nullOrFalse nullAllowed
  | [single] => single.clone nullAllowed
  | filters => .multiRange filters nullAllowed false

def keepValues (newValues : Finset Bytes) (bothNullAllowed : Bool) : Filter :=
  if left : newValues.Nonempty then .bytesValues ⟨newValues, left⟩ bothNullAllowed else nullOrFalse bothNullAllowed

def mergeValues (this other : ValueSet) (bothNullAllowed : Bool) : Filter :=
  if this.upper.compare other.lower < 0 ∨ other.upper.compare this.lower < 0 then nullOrFalse bothNullAllowed
  else
    let smaller := if other.values.card < this.values.card then other else this
    let larger := if other.values.card < this.values.card then this else other
    keepValues (smaller.values.filter fun value => value ∈ larger.values) bothNullAllowed

def boundOf (bound : Bound) : Option Bytes := if bound.unbounded then none else some bound.value

def mergeValuesAndRange (this : ValueSet) (nullAllowed : Bool) (other : BytesRange) (bothNullAllowed : Bool) : Filter :=
  if !this.testBytesRange nullAllowed (boundOf other.lower) (boundOf other.upper) bothNullAllowed then
    nullOrFalse bothNullAllowed
  else keepValues (this.values.filter fun value => other.testBytes value) bothNullAllowed

theorem rejected_present (this other : ValueSet) :
    (this.values ∪ other.values.filter fun value => !this.testBytes value).Nonempty :=
  this.present.mono Finset.subset_union_left

def mergeNegatedValues (this other : ValueSet) (bothNullAllowed : Bool) : Filter :=
  .negatedBytesValues ⟨_, rejected_present this other⟩ bothNullAllowed

theorem bounded_between (back front : Bytes) :
    ((⟨back, false, true⟩ : Bound).unbounded && (⟨front, false, true⟩ : Bound).unbounded) = false := rfl

def gaps : List Bytes → List Filter
  | back :: front :: rest =>
    .bytesRange ⟨⟨back, false, true⟩, ⟨front, false, true⟩, bounded_between back front⟩ false :: gaps (front :: rest)
  | _ => []

section

variable (this : ValueSet) (range : BytesRange)

def inRange : Finset Bytes := this.values.filter fun value => range.testBytes value

def loExclusive : Bool :=
  !range.lower.unbounded && (range.lower.exclusive || decide (range.lower.value ∈ inRange this range))

def withoutLower : Finset Bytes :=
  if !range.lower.unbounded then (inRange this range).erase range.lower.value else inRange this range

def hiExclusive : Bool :=
  !range.upper.unbounded && (range.upper.exclusive || decide (range.upper.value ∈ withoutLower this range))

def rejectedValues : Finset Bytes :=
  if !range.upper.unbounded then (withoutLower this range).erase range.upper.value else withoutLower this range

def trimmedLower : Bound := ⟨range.lower.value, range.lower.unbounded, loExclusive this range⟩

def trimmedUpper : Bound := ⟨range.upper.value, range.upper.unbounded, hiExclusive this range⟩

/-- What is left of a range without the rejected values. An end that is rejected is made exclusive. -/
def mergeNegatedValuesAndRange (bothNullAllowed : Bool) : Filter :=
  match (rejectedValues this range).sort with
  | [] => .bytesRange ⟨trimmedLower this range, trimmedUpper this range, range.bounded⟩ bothNullAllowed
  | first :: rest =>
    .multiRange
      ([.bytesRange ⟨trimmedLower this range, ⟨first, false, true⟩, Bool.and_false _⟩ false] ++ gaps (first :: rest) ++
        [.bytesRange ⟨⟨(first :: rest).getLastD first, false, true⟩, trimmedUpper this range, Bool.false_and _⟩ false])
      bothNullAllowed false

end

structure Collected where
  byteValues : Finset Bytes
  merged : List Filter

def collect (state : Collected) : Filter → Collected
  | .alwaysFalse => state
  | .isNull => state
  | .bytesValues values _ => { state with byteValues := state.byteValues ∪ values.values }
  | .multiRange filters _ _ => { state with merged := state.merged ++ filters }
  | innerMerged => { state with merged := state.merged ++ [innerMerged] }

def collectPairs (mergeWith : Filter → Filter → Option Filter) : List (Filter × Filter) → Collected → Option Collected
  | [], state => some state
  | (filter, filterOther) :: rest, state => do
    let innerMerged ← mergeWith filter filterOther
    collectPairs mergeWith rest (collect state innerMerged)

def withValues (state : Collected) (bothNullAllowed : Bool) : List Filter :=
  if some : state.byteValues.Nonempty then state.merged ++ [.bytesValues ⟨state.byteValues, some⟩ bothNullAllowed]
  else state.merged

def combine (merged : List Filter) (bothNullAllowed bothNanAllowed : Bool) : Filter :=
  match merged with
  | [] => nullOrFalse bothNullAllowed
  | [single] => single.clone bothNullAllowed
  | merged => .multiRange merged bothNullAllowed bothNanAllowed

def mergeUnion (mergeWith : Filter → Filter → Option Filter) (filters otherFilters : List Filter)
    (bothNullAllowed bothNanAllowed : Bool) : Option Filter := do
  let pairs := filters.flatMap fun filter => otherFilters.map fun filterOther => (filter, filterOther)
  let state ← collectPairs mergeWith pairs ⟨∅, []⟩
  return combine (withValues state bothNullAllowed) bothNullAllowed bothNanAllowed

section

variable (mergeWith : Filter → Filter → Option Filter)

def isNotNullMergeWith (other : Filter) : Option Filter :=
  match other with
  | .alwaysTrue | .isNotNull => some .isNotNull
  | .alwaysFalse | .isNull => some .alwaysFalse
  | other => mergeWith other .isNotNull

def bytesRangeMergeWith (this : BytesRange) (nullAllowed : Bool) (other : Filter) : Option Filter :=
  match other with
  | .isNotNull => some (.bytesRange this false)
  | .bytesRange range otherNull => some (mergeRanges this range (nullAllowed && otherNull))
  | other => mergeWith other (.bytesRange this nullAllowed)

def negatedBytesRangeMergeWith (nonNegated : BytesRange) (nullAllowed : Bool) (other : Filter) : Option Filter :=
  match other with
  | .alwaysTrue | .alwaysFalse | .isNull | .bytesValues _ _ =>
      mergeWith other (.negatedBytesRange nonNegated nullAllowed)
  | .isNotNull => some (.negatedBytesRange nonNegated false)
  | other => mergeWith other (toMultiRange nonNegated nullAllowed)

def bytesValuesMergeWith (this : ValueSet) (nullAllowed : Bool) (other : Filter) : Option Filter :=
  match other with
  | .isNotNull => some (.bytesValues this false)
  | .bytesValues values otherNull => some (mergeValues this values (nullAllowed && otherNull))
  | .negatedBytesValues values otherNull =>
    some (keepValues (this.values.filter fun value => !values.testBytes value) (nullAllowed && otherNull))
  | .bytesRange range otherNull => some (mergeValuesAndRange this nullAllowed range (nullAllowed && otherNull))
  | .negatedBytesRange range otherNull =>
    some (keepValues (this.values.filter fun value => !range.testBytes value) (nullAllowed && otherNull))
  | other => mergeWith other (.bytesValues this nullAllowed)

def negatedBytesValuesMergeWith (this : ValueSet) (nullAllowed : Bool) (other : Filter) : Option Filter :=
  match other with
  | .isNotNull => some (.negatedBytesValues this false)
  | .negatedBytesValues values otherNull =>
    if this.values.card < values.values.card then mergeWith other (.negatedBytesValues this nullAllowed)
    else some (mergeNegatedValues this values (nullAllowed && otherNull))
  | .bytesRange range otherNull => some (mergeNegatedValuesAndRange this range (nullAllowed && otherNull))
  | other => mergeWith other (.negatedBytesValues this nullAllowed)

def multiRangeMergeWith (filters : List Filter) (nullAllowed nanAllowed : Bool) (other : Filter) : Option Filter :=
  match other with
  | .alwaysTrue | .alwaysFalse | .isNull | .negatedBytesRange _ _ =>
    mergeWith other (.multiRange filters nullAllowed nanAllowed)
  | .isNotNull => some (.multiRange filters false nanAllowed)
  | .multiRange otherFilters otherNull otherNan =>
    mergeUnion mergeWith filters otherFilters (nullAllowed && otherNull) (nanAllowed && otherNan)
  | other => mergeUnion mergeWith filters [other] (nullAllowed && other.testNull) nanAllowed

def mergeStep (this other : Filter) : Option Filter :=
  match this with
  | .alwaysFalse => some .alwaysFalse
  | .alwaysTrue => some other
  | .isNull => some (if other.testNull then .isNull else .alwaysFalse)
  | .isNotNull => isNotNullMergeWith mergeWith other
  | .bytesRange range nullAllowed => bytesRangeMergeWith mergeWith range nullAllowed other
  | .negatedBytesRange nonNegated nullAllowed => negatedBytesRangeMergeWith mergeWith nonNegated nullAllowed other
  | .bytesValues values nullAllowed => bytesValuesMergeWith mergeWith values nullAllowed other
  | .negatedBytesValues nonNegated nullAllowed => negatedBytesValuesMergeWith mergeWith nonNegated nullAllowed other
  | .multiRange filters nullAllowed nanAllowed => multiRangeMergeWith mergeWith filters nullAllowed nanAllowed other

end

def mergeWith : Nat → Filter → Filter → Option Filter
  | 0, _, _ => none
  | calls + 1, this, other => mergeStep (mergeWith calls) this other

end CactusDB.Filters.BytesMerge
