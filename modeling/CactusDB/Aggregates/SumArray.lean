import CactusDB.Library.GroupedAggregation
import CactusDB.MlFunctions.ArrayVectors
import Mathlib.Data.Matrix.Basic

/-! The `array_sum` aggregate. A row is an array of arrays; the accumulator of a group adds the numbers
of its rows in one flat buffer. How many arrays and columns a row has is taken from the whole batch. -/

namespace CactusDB.Aggregates.SumArray
open Library Fallible Buffer GroupedAggregation MlFunctions.ArrayVectors List
open Function

variable {G R : Type}

inductive Failure where
  /-- Memory is read that does not belong to the vector or the accumulator. -/
  | outOfBounds
  | divisionByZero
  /-- The shape of the arrays is read before any batch has set it. -/
  | notInitialised
  /-- `values()` is called on a vector that is not flat. -/
  | onlyFlatVectors
  deriving DecidableEq

structure NestedVector (R : Type) where
  outer : List Span
  inner : List Span
  floats : List R

structure DecodedNested (R : Type) where
  base : NestedVector R
  index : Nat → Nat

def NestedVector.valueAt (vector : NestedVector R) (row : Nat) : List (List R) :=
  match vector.outer[row]? with
  | some span => (slice vector.inner span.offset span.size).map fun array => slice vector.floats array.offset array.size
  | none => []

structure SumArrayAggregate (G R : Type) where
  accumulators : G → Option (List R)
  shape : Option (Nat × Nat)

def SumArrayAggregate.fresh : SumArrayAggregate G R := ⟨fun _ => none, none⟩

def addValue [Add R] (storedValue : Option (List R)) (newValues : List R) (offset size : Nat) :
    Except Failure (List R) :=
  if offset + size ≤ newValues.length then
    match storedValue with
    | none => .ok (slice newValues offset size)
    | some stored =>
      if size ≤ stored.length then
        .ok (zipWith (· + ·) (stored.take size) (slice newValues offset size) ++ stored.drop size)
      else .error .outOfBounds
  else .error .outOfBounds

section

variable [Add R] [DecidableEq G]

/-- The offset counts inner arrays but is used for numbers, and the size is that of the whole batch. -/
def addRow (groups : Nat → G) (input : DecodedNested R) (size : Nat) (accumulators : G → Option (List R)) (row : Nat) :
    Except Failure (G → Option (List R)) :=
  match input.base.outer[input.index row]? with
  | some span =>
    match addValue (accumulators (groups row)) input.base.floats span.offset size with
    | .ok stored => .ok (update accumulators (groups row) (some stored))
    | .error failure => .error failure
  | none => .error .outOfBounds

namespace SumArrayAggregate

section

variable (self : SumArrayAggregate G R) (groups : Nat → G) (rows : SelectivityVector) (input : DecodedNested R)

def addRawInput : Except Failure (SumArrayAggregate G R) := do
  let numSamples := input.base.inner.length
  if numSamples = 0 then
    .error .divisionByZero
  else
    let numCols := input.base.floats.length / numSamples
    let accumulators ← rows.selected.foldlM (addRow groups input (numSamples * numCols)) self.accumulators
    return ⟨accumulators, some (numSamples, numCols)⟩

def addIntermediateResults : Except Failure (SumArrayAggregate G R) := self.addRawInput groups rows input

end

omit [Add R] [DecidableEq G] in
/-- The elements of the column are arrays, which have no buffer of values. -/
def addSingleGroupRawInput (_self : SumArrayAggregate G R) (_group : G) (_rows : SelectivityVector)
    (_input : DecodedNested R) : Except Failure (SumArrayAggregate G R) := .error .onlyFlatVectors

omit [Add R] [DecidableEq G] in
def addSingleGroupIntermediateResults (self : SumArrayAggregate G R) (group : G) (rows : SelectivityVector)
    (input : DecodedNested R) : Except Failure (SumArrayAggregate G R) := self.addSingleGroupRawInput group rows input

/-- All groups get a row, but only the first one is filled, from the accumulator of the first group. -/
def extractValues (self : SumArrayAggregate G R) (groups : List G) : Except Failure (NestedVector R) :=
  match self.shape, groups with
  | some (numSamples, numCols), first :: rest =>
    let stored := (self.accumulators first).getD []
    if numSamples * numCols ≤ stored.length then
      .ok
        { outer := ⟨0, numSamples⟩ :: replicate rest.length ⟨0, 0⟩
          inner := (range numSamples).map fun i => ⟨i * numCols, numCols⟩
          floats := stored.take (numSamples * numCols) }
    else .error .outOfBounds
  | none, _ => .error .notInitialised
  | _, [] => .error .outOfBounds

def extractAccumulators (self : SumArrayAggregate G R) (groups : List G) : Except Failure (NestedVector R) :=
  self.extractValues groups

end SumArrayAggregate

end

section

variable {n c : Nat}

def rowsOf (M : Matrix (Fin n) (Fin c) R) : List (List R) := ofFn fun i => ofFn (M i)

def flat (M : Matrix (Fin n) (Fin c) R) : List R := ofFn fun k : Fin (n * c) => M k.divNat k.modNat

def nested (M : Matrix (Fin n) (Fin c) R) : NestedVector R where
  outer := [⟨0, n⟩]
  inner := (range n).map fun i => ⟨i * c, c⟩
  floats := flat M

variable (M : Matrix (Fin n) (Fin c) R)

@[simp] theorem length_flat : (flat M).length = n * c := by simp [flat]

theorem slice_flat_whole : slice (flat M) 0 (n * c) = flat M := by
  rw [slice, drop_zero, take_of_length_le (length_flat M).le]

theorem slice_flat (i : Fin n) : slice (flat M) (i * c) c = ofFn (M i) := by
  apply ext_getElem?
  intro j
  rw [getElem?_slice]
  split
  case isTrue inside =>
    have bound := rowMajor_lt i.isLt inside
    have row : (⟨i * c + j, bound⟩ : Fin (n * c)).divNat = i := Fin.ext (rowMajor_div inside)
    have column : (⟨i * c + j, bound⟩ : Fin (n * c)).modNat = ⟨j, inside⟩ := Fin.ext (rowMajor_mod inside)
    rw [flat, List.getElem?_ofFn, dif_pos bound, List.getElem?_ofFn, dif_pos inside, row, column]
  case isFalse outside => rw [getElem?_eq_none (by simpa using outside)]

theorem valueAt_nested : (nested M).valueAt 0 = rowsOf M := by
  have whole : slice ((range n).map fun i => (⟨i * c, c⟩ : Span)) 0 n = (range n).map fun i => ⟨i * c, c⟩ := by
    rw [slice, drop_zero, take_of_length_le (by simp)]
  show (slice ((range n).map fun i => (⟨i * c, c⟩ : Span)) 0 n).map _ = _
  rw [whole, map_map, rowsOf]
  apply ext_getElem?
  intro i
  rw [List.getElem?_map, List.getElem?_ofFn]
  split
  case isTrue inside =>
    rw [getElem?_range inside, Option.map_some]
    exact congrArg some (slice_flat M ⟨i, inside⟩)
  case isFalse outside => rw [getElem?_eq_none (by simpa using outside), Option.map_none]

theorem zipWith_flat [Add R] (M N : Matrix (Fin n) (Fin c) R) :
    zipWith (· + ·) (flat M) (flat N) = flat (M + N) := by
  apply ext_getElem
  · simp
  · intro k _ _
    simp [flat]

end

open SumArrayAggregate

section

variable {n c : Nat} [AddCommMonoid R] [DecidableEq G]

/-- Runs in which every batch holds a single array of arrays, of one shape, that all its rows show, and
in which partial results are taken out for one group at a time. Each group comes with what it was given. -/
inductive Fed : SumArrayAggregate G R → (G → Multiset (Matrix (Fin n) (Fin c) R)) → Prop
  | fresh : Fed .fresh fun _ => 0
  | raw {self after : SumArrayAggregate G R} {inputs : G → Multiset (Matrix (Fin n) (Fin c) R)} {groups : Nat → G}
      {rows : SelectivityVector} {input : DecodedNested R} {M : Matrix (Fin n) (Fin c) R} (fed : Fed self inputs)
      (alone : input.base = nested M) (shown : ∀ row ∈ rows.selected, input.index row = 0)
      (performed : self.addRawInput groups rows input = .ok after) :
      Fed after fun group => inputs group + received groups (fun _ => {M}) rows.selected group
  | merge {self other after : SumArrayAggregate G R} {inputs otherInputs : G → Multiset (Matrix (Fin n) (Fin c) R)}
      {groups : Nat → G} {rows : SelectivityVector} {input : DecodedNested R} {source : G} (fed : Fed self inputs)
      (otherFed : Fed other otherInputs) (alone : other.extractAccumulators [source] = .ok input.base)
      (shown : ∀ row ∈ rows.selected, input.index row = 0)
      (performed : self.addIntermediateResults groups rows input = .ok after) :
      Fed after fun group => inputs group + received groups (fun _ => otherInputs source) rows.selected group

/-- The stored numbers are the sum of the inputs. A group that was given nothing may have none. -/
def Denotes (stored : Option (List R)) (inputs : Multiset (Matrix (Fin n) (Fin c) R)) : Prop :=
  stored = some (flat inputs.sum) ∨ stored = none ∧ inputs = 0

variable {groups : Nat → G} {rows : SelectivityVector} {input : DecodedNested R} {M : Matrix (Fin n) (Fin c) R}

theorem addRow_ok {size row : Nat} {before after : G → Option (List R)}
    (done : addRow groups input size before row = .ok after) :
    ∃ stored, after = update before (groups row) (some stored) := by
  unfold addRow at done
  split at done
  case h_1 span _ =>
    split at done
    case h_1 stored _ => exact ⟨stored, (Except.ok.inj done).symm⟩
    case h_2 => exact absurd done nofun
  case h_2 => exact absurd done nofun

theorem addValue_stored (S M : Matrix (Fin n) (Fin c) R) :
    addValue (some (flat S)) (flat M) 0 (n * c) = .ok (flat (S + M)) := by
  simp only [addValue, Nat.zero_add, length_flat, Nat.le_refl, ↓reduceIte, slice_flat_whole]
  rw [take_of_length_le (length_flat S).le, drop_of_length_le (length_flat S).le, append_nil, zipWith_flat]

theorem addValue_first (M : Matrix (Fin n) (Fin c) R) : addValue none (flat M) 0 (n * c) = .ok (flat M) := by
  simp only [addValue, Nat.zero_add, length_flat, Nat.le_refl, ↓reduceIte, slice_flat_whole]

theorem addRow_denoting (alone : input.base = nested M) {row : Nat} (shown : input.index row = 0)
    {before : G → Option (List R)} {inputs gives : Multiset (Matrix (Fin n) (Fin c) R)} (sum : gives.sum = M)
    (denotes : Denotes (before (groups row)) inputs) :
    ∃ stored, addRow groups input (n * c) before row = .ok (update before (groups row) (some stored)) ∧
      stored = flat (inputs + gives).sum := by
  have span : input.base.outer[input.index row]? = some ⟨0, n⟩ := by
    rw [alone, shown]
    rfl
  have floats : input.base.floats = flat M := by rw [alone, nested]
  unfold addRow
  rw [span]
  dsimp only
  rw [floats, Multiset.sum_add, sum]
  rcases denotes with stored | ⟨none, empty⟩
  · rw [stored, addValue_stored]
    exact ⟨_, rfl, rfl⟩
  · rw [none, addValue_first, empty, Multiset.sum_zero, zero_add]
    exact ⟨_, rfl, rfl⟩

theorem addRawInput_eq (self : SumArrayAggregate G R) (alone : input.base = nested M) (positive : 0 < n) :
    self.addRawInput groups rows input = do
      let accumulators ← rows.selected.foldlM (addRow groups input (n * c)) self.accumulators
      return ⟨accumulators, some (n, c)⟩ := by
  have samples : input.base.inner.length = n := by simp [alone, nested]
  have columns : input.base.floats.length / n = c := by
    rw [alone, nested, length_flat, Nat.mul_div_cancel_left c positive]
  unfold addRawInput
  simp only [samples, columns, if_neg (Nat.ne_of_gt positive)]

variable {self after : SumArrayAggregate G R} {inputs : G → Multiset (Matrix (Fin n) (Fin c) R)}

section

variable (alone : input.base = nested M)
include alone

/-- A batch without inner arrays does not go through. -/
theorem positive_of_performed (performed : self.addRawInput groups rows input = .ok after) : 0 < n := by
  rcases Nat.eq_zero_or_pos n with rfl | positive
  · simp [addRawInput, alone, nested] at performed
  · exact positive

theorem performed_cases (performed : self.addRawInput groups rows input = .ok after) :
    rows.selected.foldlM (addRow groups input (n * c)) self.accumulators = .ok after.accumulators ∧
      after.shape = some (n, c) := by
  rw [addRawInput_eq self alone (positive_of_performed alone performed)] at performed
  obtain ⟨accumulators, batch, same⟩ := exists_of_bind_ok performed
  cases same
  exact ⟨batch, rfl⟩

/-- A batch of a single array gives it to the group of every row. -/
theorem denotes_batch (shown : ∀ row ∈ rows.selected, input.index row = 0)
    (performed : self.addRawInput groups rows input = .ok after) {gives : Multiset (Matrix (Fin n) (Fin c) R)}
    (sum : gives.sum = M) (denotes : ∀ group, Denotes (self.accumulators group) (inputs group)) (group : G) :
    Denotes (after.accumulators group) (inputs group + received groups (fun _ => gives) rows.selected group) := by
  refine foldlM_denotes Denotes (fun _ => True) (fun _ _ => trivial) (fun row mem own => ?_) (fun row mem foreign => ?_)
    (performed_cases alone performed).1 (denotes group) trivial
  · intro before middle inputs done denoted _
    obtain ⟨stored, added, isStored⟩ := addRow_denoting alone (shown row mem) sum (own ▸ denoted)
    rw [added] at done
    rw [← Except.ok.inj done, own, update_self, isStored]
    exact .inl rfl
  · intro before middle done
    obtain ⟨stored, rfl⟩ := addRow_ok done
    exact update_of_ne (Ne.symm foreign) _ _

end

omit [AddCommMonoid R] [DecidableEq G] in
/-- What is taken out for one group is what it has stored. -/
theorem extractValues_of_stored {group : G} {S : Matrix (Fin n) (Fin c) R}
    (shape : self.shape = some (n, c)) (stored : self.accumulators group = some (flat S)) :
    self.extractValues [group] = .ok (nested S) := by
  simp only [extractValues, shape, stored, Option.getD_some, length_flat, Nat.le_refl, ↓reduceIte,
    length_nil, replicate_zero, nested]
  rw [take_of_length_le (length_flat S).le]

omit [DecidableEq G] in
theorem base_of_extracted {group : G} {base : NestedVector R}
    {inputs : Multiset (Matrix (Fin n) (Fin c) R)} (shape : self.shape = some (n, c))
    (denotes : Denotes (self.accumulators group) inputs) (extracted : self.extractValues [group] = .ok base) :
    base = nested inputs.sum := by
  rcases denotes with stored | ⟨none, empty⟩
  · rw [extractValues_of_stored shape stored] at extracted
    exact (Except.ok.inj extracted).symm
  · simp only [extractValues, shape, none, Option.getD_none, length_nil] at extracted
    split at extracted
    case isTrue small =>
      have floats : flat (0 : Matrix (Fin n) (Fin c) R) = [] := eq_nil_of_length_eq_zero (by simpa using small)
      rw [← Except.ok.inj extracted, empty, Multiset.sum_zero, nested, floats]
      simp
    case isFalse => exact absurd extracted nofun

/-- Every accumulator of a run holds the sum of what its group has been given. -/
theorem Fed.denotes (fed : Fed self inputs) : (∀ group, Denotes (self.accumulators group) (inputs group)) ∧
      (self.shape = some (n, c) ∨ self.shape = none ∧ ∀ group, inputs group = 0) := by
  induction fed with
  | fresh => exact ⟨fun _ => .inr ⟨rfl, rfl⟩, .inr ⟨rfl, fun _ => rfl⟩⟩
  | raw fed alone shown performed ih =>
    exact ⟨denotes_batch alone shown performed (Multiset.sum_singleton _) ih.1,
      .inl (performed_cases alone performed).2⟩
  | merge fed otherFed alone shown performed ih otherHyp =>
    rcases otherHyp.2 with shape | ⟨none, _⟩
    · have base := base_of_extracted shape (otherHyp.1 _) alone
      exact ⟨denotes_batch base shown performed rfl ih.1, .inl (performed_cases base performed).2⟩
    · simp [extractAccumulators, extractValues, none] at alone

/-- Only the length of what is stored decides whether a batch of a single array goes through. -/
theorem addRawInput_succeeds (alone : input.base = nested M) (positive : 0 < n)
    (shown : ∀ row ∈ rows.selected, input.index row = 0)
    (denotes : ∀ group, Denotes (self.accumulators group) (inputs group)) :
    ∃ after, self.addRawInput groups rows input = .ok after := by
  have each : ∀ row ∈ rows.selected, ∀ before : G → Option (List R),
      (∀ group, ∃ given : Multiset (Matrix (Fin n) (Fin c) R), Denotes (before group) given) →
      ∃ after, addRow groups input (n * c) before row = .ok after ∧
        ∀ group, ∃ given : Multiset (Matrix (Fin n) (Fin c) R), Denotes (after group) given := by
    intro row mem before good
    obtain ⟨given, denoted⟩ := good (groups row)
    obtain ⟨stored, added, isStored⟩ := addRow_denoting alone (shown row mem) (Multiset.sum_singleton M) denoted
    refine ⟨_, added, fun group => ?_⟩
    by_cases own : group = groups row
    · rw [own, update_self, isStored]
      exact ⟨given + {M}, .inl rfl⟩
    · rw [update_of_ne own]
      exact good group
  obtain ⟨accumulators, done⟩ := foldlM_succeeds _ _ each self.accumulators fun group => ⟨_, denotes group⟩
  exact ⟨⟨accumulators, some (n, c)⟩, by rw [addRawInput_eq self alone positive, done]; rfl⟩

/-- In every such run, what is taken out for a group is the sum of all it was given, however its rows
were split over batches and partial results, and further batches go through. -/
theorem group_sum {self : SumArrayAggregate G R} {inputs : G → Multiset (Matrix (Fin n) (Fin c) R)}
    (fed : Fed self inputs) :
    (∀ group, inputs group ≠ 0 → ∃ result, self.extractValues [group] = .ok result ∧
      result.valueAt 0 = rowsOf (inputs group).sum) ∧
    ∀ (groups : Nat → G) (rows : SelectivityVector) (input : DecodedNested R) (M : Matrix (Fin n) (Fin c) R),
      0 < n → input.base = nested M → (∀ row ∈ rows.selected, input.index row = 0) →
      ∃ after, self.addRawInput groups rows input = .ok after := by
  obtain ⟨denotes, shape⟩ := fed.denotes
  refine ⟨fun group given => ?_, fun groups rows input M positive alone shown =>
    addRawInput_succeeds alone positive shown denotes⟩
  have stored := (denotes group).resolve_right fun empty => given empty.2
  have isShape := shape.resolve_right fun none => given (none.2 group)
  exact ⟨_, extractValues_of_stored isShape stored, valueAt_nested _⟩

end

def oneRow : SelectivityVector := .all 1

def twoRows : SelectivityVector := .all 2

def firstMatrix : Matrix (Fin 1) (Fin 2) ℤ := .of fun _ j => j + 1

def secondMatrix : Matrix (Fin 1) (Fin 2) ℤ := .of fun _ j => j + 3

def single (M : Matrix (Fin 1) (Fin 2) ℤ) : DecodedNested ℤ := ⟨nested M, fun _ => 0⟩

def both : DecodedNested ℤ := ⟨⟨[⟨0, 1⟩, ⟨1, 1⟩], [⟨0, 2⟩, ⟨2, 2⟩], [1, 2, 3, 4]⟩, id⟩

theorem group_sum_batches : ∃ middle after : SumArrayAggregate Bool ℤ,
    fresh.addRawInput (fun _ => true) oneRow (single firstMatrix) = .ok middle ∧
      middle.addRawInput (fun _ => true) oneRow (single secondMatrix) = .ok after ∧
      ∃ result, after.extractValues [true] = .ok result ∧ result.valueAt 0 = [[4, 6]] := by
  have shown : ∀ M, ∀ row ∈ oneRow.selected, (single M).index row = 0 := fun _ _ _ => rfl
  have start : Fed (.fresh : SumArrayAggregate Bool ℤ) (fun _ => (0 : Multiset (Matrix (Fin 1) (Fin 2) ℤ))) := .fresh
  obtain ⟨middle, first⟩ := (group_sum start).2 (fun _ => true) oneRow (single firstMatrix) firstMatrix (by decide) rfl
    (shown firstMatrix)
  have between := Fed.raw start rfl (shown firstMatrix) first
  obtain ⟨after, second⟩ := (group_sum between).2 (fun _ => true) oneRow (single secondMatrix) secondMatrix (by decide)
    rfl (shown secondMatrix)
  obtain ⟨result, extracted, value⟩ := (group_sum (Fed.raw between rfl (shown secondMatrix) second)).1 true
    (by decide +kernel)
  refine ⟨middle, after, first, second, result, extracted, value.trans ?_⟩
  decide +kernel

/-- Two rows in one batch are read from the wrong places and past the end. With two groups, only the
first one is handed out. -/
theorem groups_not_summed : both.base.valueAt 0 = [[1, 2]] ∧ both.base.valueAt 1 = [[3, 4]] ∧
      (fresh.addRawInput (fun _ => ()) twoRows both).map
        (fun _ : SumArrayAggregate Unit ℤ => ()) = .error .outOfBounds ∧
      ((fresh.addRawInput (fun _ => true) oneRow (single firstMatrix)).bind
        fun middle => (middle.addRawInput (fun _ => false) oneRow (single secondMatrix)).bind
          fun after => (after.extractValues [true, false]).map fun result => (result.valueAt 0, result.valueAt 1)) =
        .ok ([[1, 2]], []) := by
  decide +kernel

end CactusDB.Aggregates.SumArray
