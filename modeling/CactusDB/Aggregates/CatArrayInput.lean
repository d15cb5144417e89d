import CactusDB.Aggregates.CatArray
import CactusDB.Library.GroupedAggregation
import CactusDB.MlFunctions.ArrayVectors

/-! The entry points of `array_cat`. Two of them take the rows of many groups, raw or as intermediate
maps, and two take the rows of a single group. -/

namespace CactusDB.Aggregates.CatArrayInput
open Library Library.Fallible Library.Buffer Library.GroupedAggregation MlFunctions.ArrayVectors CatArray Function
open Multiset

variable {G R : Type}

inductive Failure where
  /-- Memory is read that does not belong to the vector. -/
  | outOfBounds
  /-- A vector is used as an array vector but is none. -/
  | nullVector
  /-- A decoded vector is read that nothing has been decoded into. -/
  | notDecoded
  deriving DecidableEq

structure DecodedReals where
  base : List ℚ
  index : Nat → Nat

def DecodedReals.valueAt (reals : DecodedReals) (row : Nat) : Option ℚ := reals.base[reals.index row]?

structure DecodedMaps (R : Type) where
  spans : List Span
  index : Nat → Nat
  keys : DecodedReals
  valueArrays : DecodedArray R

def DecodedMaps.mapAt (maps : DecodedMaps R) (row : Nat) : Option (List (ℚ × List R)) := do
  let span ← maps.spans[maps.index row]?
  (List.range span.size).mapM fun i => do
    let key ← maps.keys.valueAt (span.offset + i)
    let array ← maps.valueArrays.base.spans[maps.valueArrays.index (span.offset + i)]?
    return (key, maps.valueArrays.base.values array)

structure CatArrayAggregate (G R : Type) where
  accumulators : G → ValueVector R
  decodedIndexes : Option DecodedReals

def CatArrayAggregate.fresh : CatArrayAggregate G R := ⟨fun _ => .empty, none⟩

inductive Argument (R : Type) where
  | arrays (column : DecodedArray R)
  | maps (column : DecodedMaps R)

section

variable [DecidableEq G]

/-- The array is looked up in the base by the number of the row, not by its index. -/
def addRawRow (groups : Nat → G) (arrays : DecodedArray R) (indexes : DecodedReals)
    (accumulators : G → ValueVector R) (row : Nat) : Except Failure (G → ValueVector R) :=
  match arrays.base.spans[row]?, indexes.valueAt row with
  | some span, some index =>
    .ok (update accumulators (groups row)
      ((accumulators (groups row)).insertValue (arrays.base.values span) index))
  | _, _ => .error .outOfBounds

/-- The key that is read last, by the number of the row, is of no use. -/
def DecodedMaps.keySize (maps : DecodedMaps R) (row : Nat) : Option ℚ := maps.keys.valueAt (maps.keys.index row)

def addIntermediateRow (groups : Nat → G) (maps : DecodedMaps R) (accumulators : G → ValueVector R) (row : Nat) :
    Except Failure (G → ValueVector R) :=
  match maps.mapAt row, maps.keySize row with
  | some map, some _ =>
    .ok (update accumulators (groups row) (CatArray.addIntermediateResults (accumulators (groups row)) map))
  | _, _ => .error .outOfBounds

/-- The size of the array is looked up with the index of the other argument, its entries are taken from
the number of the row on, and its block index from the member that another call has decoded. -/
def addShiftedRow (group : G) (arrays : DecodedArray R) (indexes : DecodedReals) (decodedIndexes : Option DecodedReals)
    (accumulators : G → ValueVector R) (row : Nat) : Except Failure (G → ValueVector R) :=
  match arrays.base.spans[indexes.index row]?, decodedIndexes with
  | some span, some decoded =>
    match decoded.valueAt row with
    | some index =>
      if row + span.size ≤ arrays.base.elements.length then
        .ok (update accumulators group
          ((accumulators group).insertValue (slice arrays.base.elements row span.size) index))
      else .error .outOfBounds
    | none => .error .outOfBounds
  | some _, none => .error .notDecoded
  | none, _ => .error .outOfBounds

namespace CatArrayAggregate

variable (self : CatArrayAggregate G R)

def addRawInput (groups : Nat → G) (rows : SelectivityVector) (arrays : DecodedArray R) (indexes : DecodedReals) :
    Except Failure (CatArrayAggregate G R) := do
  let accumulators ← rows.selected.foldlM (addRawRow groups arrays indexes) self.accumulators
  return ⟨accumulators, some indexes⟩

def addIntermediateResults (groups : Nat → G) (rows : SelectivityVector) (maps : DecodedMaps R) :
    Except Failure (CatArrayAggregate G R) := do
  let accumulators ← rows.selected.foldlM (addIntermediateRow groups maps) self.accumulators
  return ⟨accumulators, self.decodedIndexes⟩

def addSingleGroupRawInput (group : G) (rows : SelectivityVector) (arrays : DecodedArray R) (indexes : DecodedReals) :
    Except Failure (CatArrayAggregate G R) := do
  let accumulators ←
    rows.selected.foldlM (addShiftedRow group arrays indexes self.decodedIndexes) self.accumulators
  return ⟨accumulators, self.decodedIndexes⟩

/-- The code expects an array and an index, but an intermediate result is one map. -/
def addSingleGroupIntermediateResults (group : G) (rows : SelectivityVector) (first : Argument R)
    (second : Option DecodedReals) : Except Failure (CatArrayAggregate G R) :=
  match first, second with
  | .maps _, _ => .error .nullVector
  | .arrays _, none => .error .outOfBounds
  | .arrays arrays, some indexes => self.addSingleGroupRawInput group rows arrays indexes

end CatArrayAggregate

def rawRow (arrays : DecodedArray R) (indexes : DecodedReals) (row : Nat) : Row R :=
  (arrays.base.valuesAt (arrays.index row), (indexes.valueAt row).getD 0)

/-- The number of each selected row finds, in the base of the arrays, the array that the row shows. This
holds for a flat column. -/
def Placed (rows : SelectivityVector) (arrays : DecodedArray R) : Prop :=
  ∀ row ∈ rows.selected, ∃ span, arrays.base.spans[row]? = some span ∧
    arrays.base.values span = arrays.base.valuesAt (arrays.index row)

/-- Runs of the grouped entry points with what each group has been given. An intermediate map is what
some group of another run had at the time. -/
inductive Fed : CatArrayAggregate G R → (G → Multiset (Row R)) → Prop
  | fresh : Fed .fresh fun _ => 0
  | raw {self after : CatArrayAggregate G R} {inputs : G → Multiset (Row R)} {groups : Nat → G}
      {rows : SelectivityVector} {arrays : DecodedArray R} {indexes : DecodedReals} (fed : Fed self inputs)
      (placed : Placed rows arrays) (performed : self.addRawInput groups rows arrays indexes = .ok after) :
      Fed after fun group =>
        inputs group + received groups (fun row => {rawRow arrays indexes row}) rows.selected group
  | merge {self after : CatArrayAggregate G R} {inputs : G → Multiset (Row R)} {groups : Nat → G}
      {rows : SelectivityVector} {maps : DecodedMaps R} (fed : Fed self inputs)
      {others : Nat → CatArrayAggregate G R} {otherInputs : Nat → G → Multiset (Row R)} {source : Nat → G}
      (otherFed : ∀ row, Fed (others row) (otherInputs row))
      (shown : ∀ row ∈ rows.selected,
        maps.mapAt row = some (extractAccumulators ((others row).accumulators (source row))))
      (performed : self.addIntermediateResults groups rows maps = .ok after) :
      Fed after fun group =>
        inputs group + received groups (fun row => otherInputs row (source row)) rows.selected group

section

variable {groups : Nat → G} {arrays : DecodedArray R} {indexes : DecodedReals} {maps : DecodedMaps R}
  {before after : G → ValueVector R} {row : Nat} {group : G} {inputs : Multiset (Row R)}

theorem addRawRow_ok (done : addRawRow groups arrays indexes before row = .ok after) :
    ∃ span index, arrays.base.spans[row]? = some span ∧ indexes.valueAt row = some index ∧
      after = update before (groups row)
        ((before (groups row)).insertValue (arrays.base.values span) index) := by
  unfold addRawRow at done
  split at done
  case h_1 span index found value => exact ⟨span, index, found, value, (Except.ok.inj done).symm⟩
  case h_2 => exact absurd done nofun

theorem addIntermediateRow_ok (done : addIntermediateRow groups maps before row = .ok after) :
    ∃ map, maps.mapAt row = some map ∧ after = update before (groups row)
      (CatArray.addIntermediateResults (before (groups row)) map) := by
  unfold addIntermediateRow at done
  split at done
  case h_1 map _ found _ => exact ⟨map, found, (Except.ok.inj done).symm⟩
  case h_2 => exact absurd done nofun

variable {rows : SelectivityVector}

theorem denotes_addRawRow (placed : Placed rows arrays) (mem : row ∈ rows.selected)
    (own : groups row = group) (done : addRawRow groups arrays indexes before row = .ok after)
    (denotes : Denotes (before group) inputs) (legal : Legal (inputs + {rawRow arrays indexes row})) :
    Denotes (after group) (inputs + {rawRow arrays indexes row}) := by
  obtain ⟨span, index, found, value, rfl⟩ := addRawRow_ok done
  obtain ⟨other, listed, shows⟩ := placed row mem
  obtain rfl : span = other := Option.some.inj (found.symm.trans listed)
  have same : rawRow arrays indexes row = (arrays.base.values span, index) := by
    rw [rawRow, shows, value, Option.getD_some]
  have shift : inputs + {(arrays.base.values span, index)} = (arrays.base.values span, index) ::ₘ inputs := by
    rw [add_comm, singleton_add]
  rw [same, shift] at legal ⊢
  have added := denotes_addRawInput denotes legal
  rw [CatArray.addRawInput] at added
  rwa [own, update_self]

theorem denotes_addIntermediateRow {other : ValueVector R} {others : Multiset (Row R)}
    (shown : maps.mapAt row = some (extractAccumulators other)) (denoted : Legal others → Denotes other others)
    (own : groups row = group) (done : addIntermediateRow groups maps before row = .ok after)
    (denotes : Denotes (before group) inputs) (legal : Legal (inputs + others)) :
    Denotes (after group) (inputs + others) := by
  obtain ⟨map, found, rfl⟩ := addIntermediateRow_ok done
  obtain rfl : map = extractAccumulators other := Option.some.inj (found.symm.trans shown)
  rw [own, update_self]
  exact denotes_merge denotes (denoted (legal.part (le_add_left _ _))) legal

end

/-- Every accumulator of a run holds what its group has been given. -/
theorem Fed.denotes {self : CatArrayAggregate G R} {inputs : G → Multiset (Row R)} (fed : Fed self inputs) :
    ∀ group, Legal (inputs group) → Denotes (self.accumulators group) (inputs group) := by
  induction fed with
  | fresh => exact fun _ _ => denotes_empty
  | raw fed placed performed ih =>
    intro group legal
    obtain ⟨accumulators, batch, same⟩ := exists_of_bind_ok performed
    cases same
    refine foldlM_denotes Denotes Legal Legal.part (fun row mem own => ?_) (fun row _ foreign => ?_) batch
      (ih group (legal.part (le_add_right _ _))) legal
    · intro before after inputs done
      exact denotes_addRawRow placed mem own done
    · intro before after done
      obtain ⟨span, index, _, _, rfl⟩ := addRawRow_ok done
      exact update_of_ne (Ne.symm foreign) _ _
  | merge fed otherFed shown performed ih otherHyp =>
    intro group legal
    obtain ⟨accumulators, batch, same⟩ := exists_of_bind_ok performed
    cases same
    refine foldlM_denotes Denotes Legal Legal.part (fun row mem own => ?_) (fun row _ foreign => ?_) batch
      (ih group (legal.part (le_add_right _ _))) legal
    · intro before after inputs done
      exact denotes_addIntermediateRow (shown row mem) (otherHyp row _) own done
    · intro before after done
      obtain ⟨map, _, rfl⟩ := addIntermediateRow_ok done
      exact update_of_ne (Ne.symm foreign) _ _

variable (self : CatArrayAggregate G R) {rows : SelectivityVector}

theorem addRawInput_succeeds (groups : Nat → G)
    {arrays : DecodedArray R} (indexes : DecodedReals) (placed : Placed rows arrays)
    (given : ∀ row ∈ rows.selected, (indexes.valueAt row).isSome) :
    ∃ after, self.addRawInput groups rows arrays indexes = .ok after := by
  have each : ∀ row ∈ rows.selected, ∀ before : G → ValueVector R, True →
      ∃ after, addRawRow groups arrays indexes before row = .ok after ∧ True := by
    intro row mem before _
    obtain ⟨span, found, _⟩ := placed row mem
    obtain ⟨index, value⟩ := Option.isSome_iff_exists.mp (given row mem)
    exact ⟨_, by simp only [addRawRow, found, value]; rfl, trivial⟩
  obtain ⟨accumulators, done⟩ := foldlM_succeeds _ (fun _ => True) each self.accumulators trivial
  exact ⟨⟨accumulators, some indexes⟩, by rw [CatArrayAggregate.addRawInput, done]; rfl⟩

end

def twoRows : SelectivityVector := .all 2

def twoBlocks : ArrayVector ℚ := ⟨fun _ => false, [⟨0, 1⟩, ⟨1, 1⟩], [5, 7], by decide⟩

open CatArrayAggregate

end CactusDB.Aggregates.CatArrayInput
