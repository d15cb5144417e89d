import CactusDB.MlFunctions.ArrayVectors

/-! The kernels that compute a batch as one matrix. Each row of the base is computed once, and a map
from rows to places in the result is kept for those that come up again. -/

namespace CactusDB.MlFunctions.RowKernels
open Library Fallible Buffer ArrayVectors List Function Option

inductive KernelError where
  | gpuNotImplemented
  | mappedIndexNotFound
  | divisionByZero
  /-- Memory is read or written that does not belong to the vector. -/
  | outOfBounds
  deriving DecidableEq

structure Slots where
  rowMap : Nat → Option Nat
  uniqueRawIndexes : List Nat

/-- One row of the first loop. A repeated index is looked up in the map of the rows, where `operator[]`
enters a zero if there is nothing. -/
def Slots.add (index : Nat → Nat) (slots : Slots) (row : Nat) : Slots :=
  if slots.uniqueRawIndexes.contains (index row) then
    let slot := (slots.rowMap (index row)).getD 0
    { slots with rowMap := update (update slots.rowMap (index row) (some slot)) row (some slot) }
  else
    { rowMap := update slots.rowMap row (some slots.uniqueRawIndexes.length)
      uniqueRawIndexes := slots.uniqueRawIndexes ++ [index row] }

open Slots

def collect (index : Nat → Nat) (selected : List Nat) : Slots :=
  selected.foldl (add index) ⟨fun _ => none, []⟩

variable {K : Type}

def readRow (base : ArrayVector K) (width rawIndex : Nat) : Except KernelError (List K) :=
  match base.spans[rawIndex]? with
  | some span =>
    if span.offset + width ≤ base.elements.length then .ok (slice base.elements span.offset width)
    else .error .outOfBounds
  | none => .error .outOfBounds

def writeRow (rowMap : Nat → Option Nat) (resultMatrix : List (List K)) (state : ArrayVector K × Nat) (row : Nat) :
    Except KernelError (ArrayVector K × Nat) :=
  match rowMap row with
  | none => .error .mappedIndexNotFound
  | some slot =>
    match resultMatrix[slot]? with
    | none => .error .outOfBounds
    | some values =>
      if room : state.2 + values.length ≤ state.1.elements.length then
        .ok (state.1.store row state.2 values room, state.2 + values.length)
      else .error .outOfBounds

/-- What the kernels differ in: how many entries of an array they read, how many they write for it, what
they compute, and where in the buffer of the output they begin to write. -/
structure Kernel (K : Type) where
  inputWidth : ArrayVector K → List Nat → Option Nat
  outputWidth : Nat → Nat
  computeRow : List K → List K
  firstOffset : Nat → Nat

def Kernel.apply (kernel : Kernel K) (unset : K) (rows : SelectivityVector) (input : DecodedArray K)
    (output : ArrayVector K) : Except KernelError (ArrayVector K) := do
  let cleared := ((output.ensureWritable rows.endRow).clearNulls rows).fillZero rows.endRow
  let slots := collect input.index rows.selected
  match kernel.inputWidth input.base slots.uniqueRawIndexes with
  | none => .error .outOfBounds
  | some width =>
    let inputMatrix ← slots.uniqueRawIndexes.mapM (readRow input.base width)
    let resultMatrix := inputMatrix.map kernel.computeRow
    let grown := cleared.growElements (replicate (rows.endRow * kernel.outputWidth width) unset)
    let written ← rows.selected.foldlM (writeRow slots.rowMap resultMatrix)
      (grown, kernel.firstOffset cleared.elements.length)
    return written.1

section

variable {index : Nat → Nat} {done : List Nat} {slots : Slots}

def Repeated (index : Nat → Nat) (done : List Nat) (row : Nat) : Prop := ∃ earlier ∈ done, earlier < row ∧
    index earlier = index row

/-- The base row whose result a row is given. -/
def Slots.readFor (slots : Slots) (row : Nat) : Option Nat := (slots.rowMap row).bind fun slot =>
    slots.uniqueRawIndexes[slot]?

/-- Where the slot of a row comes from: from its own base row if that is new, and otherwise from the row
with the number of the base row, if there is one so far. -/
def Origin (index : Nat → Nat) (done : List Nat) (slots : Slots) (row slot : Nat) : Prop :=
  (¬ Repeated index done row → slots.uniqueRawIndexes[slot]? = some (index row)) ∧
    (Repeated index done row →
      if index row ∈ done ∧ index row < row then slots.rowMap (index row) = some slot else slot = 0)

/-- What the first loop has built after some rows. -/
structure Collected (index : Nat → Nat) (done : List Nat) (slots : Slots) : Prop where
  unique : ∀ i, i ∈ slots.uniqueRawIndexes ↔ ∃ row ∈ done, index row = i
  first : slots.uniqueRawIndexes[0]? = done.head?.map index
  pending : ∀ row, row ∉ done → slots.rowMap row = none ∨ slots.rowMap row = some 0
  reads : ∀ row ∈ done, ∃ slot, slots.rowMap row = some slot ∧ slot < slots.uniqueRawIndexes.length ∧
    Origin index done slots row slot

theorem collected_nil : Collected index [] ⟨fun _ => none, []⟩ where
  unique := by simp
  first := rfl
  pending _ _ := .inl rfl
  reads := by simp

/-- A later row does not change where the earlier ones have their slots from. -/
theorem Origin.later {after : Slots} {row slot next : Nat} (origin : Origin index done slots row slot)
    (old : row ∈ done) (later : ∀ earlier ∈ done, earlier < next) (inside : slot < slots.uniqueRawIndexes.length)
    (rowMap : ∀ earlier ∈ done, after.rowMap earlier = slots.rowMap earlier)
    (unique : ∃ more, after.uniqueRawIndexes = slots.uniqueRawIndexes ++ more) :
    Origin index (done ++ [next]) after row slot := by
  obtain ⟨more, same⟩ := unique
  have before := later row old
  have old (earlier : Nat) : earlier ∈ done ++ [next] ∧ earlier < row ↔ earlier ∈ done ∧ earlier < row := by
    refine and_congr_left fun less => ?_
    have other : earlier ≠ next := by omega
    simp [other]
  have repeats : Repeated index (done ++ [next]) row ↔ Repeated index done row := by
    simp only [Repeated, ← and_assoc, old]
  have known := old (index row)
  constructor
  · intro new
    rw [same, getElem?_append_left inside]
    exact origin.1 (new ∘ repeats.mpr)
  · intro again
    have found := origin.2 (repeats.mp again)
    by_cases here : index row ∈ done ∧ index row < row
    · rw [if_pos (known.mpr here), rowMap _ here.1]
      rwa [if_pos here] at found
    · rw [if_neg (mt known.mp here)]
      rwa [if_neg here] at found

theorem mem_concat_map (unique : ∀ i, i ∈ slots.uniqueRawIndexes ↔ ∃ row ∈ done, index row = i) (row i : Nat) :
    i ∈ slots.uniqueRawIndexes ∨ i = index row ↔ ∃ other ∈ done ++ [row], index other = i := by
  rw [unique i]
  constructor
  · rintro (⟨other, mem, equal⟩ | rfl)
    · exact ⟨other, mem_append_left _ mem, equal⟩
    · exact ⟨row, by simp, rfl⟩
  · rintro ⟨other, mem, equal⟩
    rcases mem_append.mp mem with found | last
    · exact .inl ⟨other, found, equal⟩
    · rw [← equal, mem_singleton.mp last]
      exact .inr rfl

namespace Collected
variable (collected : Collected index done slots)
include collected

/-- A base row that comes up for the first time gets the next slot. -/
theorem add_new {row : Nat} (later : ∀ earlier ∈ done, earlier < row)
    (new : index row ∉ slots.uniqueRawIndexes) : Collected index (done ++ [row]) (slots.add index row) := by
  have rowMap : (slots.add index row).rowMap =
      update slots.rowMap row (some slots.uniqueRawIndexes.length) := by simp [add, new]
  have unique : (slots.add index row).uniqueRawIndexes = slots.uniqueRawIndexes ++ [index row] := by
    simp [add, new]
  have kept : ∀ earlier ∈ done, (slots.add index row).rowMap earlier = slots.rowMap earlier := by
    intro earlier mem
    rw [rowMap]
    exact update_of_ne (Nat.ne_of_lt (later earlier mem)) _ _
  refine ⟨fun i => ?_, ?_, fun other outside => ?_, fun other mem => ?_⟩
  · rw [unique, mem_append, mem_singleton]
    exact mem_concat_map collected.unique row i
  · rw [unique]
    have first := collected.first
    cases done with
    | nil =>
      have none : slots.uniqueRawIndexes = [] := by
        rw [head?_nil, map_none, getElem?_eq_none_iff] at first
        exact length_eq_zero_iff.mp (Nat.le_zero.mp first)
      simp [none]
    | cons head rest =>
      rw [head?_cons, Option.map_some] at first
      rw [List.getElem?_append_left (List.getElem?_eq_some_iff.mp first).1, first]
      simp
  · have apart : other ≠ row := fun same => outside (by simp [same])
    rw [rowMap, update_of_ne apart]
    exact collected.pending other fun mem => outside (mem_append_left _ mem)
  · rcases mem_append.mp mem with old | last
    · obtain ⟨slot, found, inside, origin⟩ := collected.reads other old
      refine ⟨slot, (kept other old).trans found, ?_,
        origin.later old later inside kept ⟨[index row], by rw [unique]⟩⟩
      rw [unique, length_append]
      omega
    · rw [mem_singleton.mp last]
      refine ⟨slots.uniqueRawIndexes.length, by rw [rowMap, update_self], by simp [unique], ?_, ?_⟩
      · intro _
        rw [unique]
        simp
      · rintro ⟨earlier, inside, less, equal⟩
        rcases mem_append.mp inside with found | itself
        · exact absurd ((collected.unique _).mpr ⟨earlier, found, equal⟩) new
        · rw [mem_singleton.mp itself] at less
          omega

theorem listed {row : Nat} (mem : row ∈ done) : slots.rowMap row = some ((slots.rowMap row).getD 0) := by
  obtain ⟨slot, found, _⟩ := collected.reads row mem
  rw [found, getD_some]

/-- Under a number that is not one of the rows so far there is the first slot, if any. -/
theorem unlisted {number : Nat} (outside : number ∉ done) : (slots.rowMap number).getD 0 = 0 := by
  rcases collected.pending number outside with none | zero
  · rw [none, getD_none]
  · rw [zero, getD_some]

theorem lookup_lt {number : Nat}
    (seen : number ∈ slots.uniqueRawIndexes) : (slots.rowMap number).getD 0 < slots.uniqueRawIndexes.length := by
  by_cases known : number ∈ done
  · obtain ⟨slot, found, bound, _⟩ := collected.reads number known
    rwa [found, getD_some]
  · rw [collected.unlisted known]
    exact length_pos_of_mem seen

/-- A repeated base row is looked up under its own number. -/
theorem add_seen {row : Nat} (later : ∀ earlier ∈ done, earlier < row)
    (seen : index row ∈ slots.uniqueRawIndexes) : Collected index (done ++ [row]) (slots.add index row) := by
  obtain ⟨slot, isSlot⟩ : ∃ slot, slot = (slots.rowMap (index row)).getD 0 := ⟨_, rfl⟩
  have rowMap : (slots.add index row).rowMap =
      update (update slots.rowMap (index row) (some slot)) row (some slot) := by
    simp [add, seen, isSlot]
  have unique : (slots.add index row).uniqueRawIndexes = slots.uniqueRawIndexes := by simp [add, seen]
  have kept : ∀ earlier ∈ done, (slots.add index row).rowMap earlier = slots.rowMap earlier := by
    intro earlier mem
    rw [rowMap, update_of_ne (Nat.ne_of_lt (later earlier mem))]
    by_cases here : earlier = index row
    · rw [here, update_self, isSlot, ← collected.listed (here ▸ mem)]
    · rw [update_of_ne here]
  have inside : slot < slots.uniqueRawIndexes.length := isSlot ▸ collected.lookup_lt seen
  refine ⟨fun i => ?_, ?_, fun other outside => ?_, fun other mem => ?_⟩
  · rw [unique, ← mem_concat_map collected.unique row i]
    exact ⟨.inl, fun cases => cases.elim id (· ▸ seen)⟩
  · rw [unique]
    obtain ⟨earlier, mem, _⟩ := (collected.unique _).mp seen
    rw [collected.first, head?_append_of_ne_nil _ (ne_nil_of_mem mem)]
  · have apart : other ≠ row := fun same => outside (by simp [same])
    have unknown : other ∉ done := fun mem => outside (mem_append_left _ mem)
    rw [rowMap, update_of_ne apart]
    by_cases here : other = index row
    · rw [here, update_self, isSlot, collected.unlisted (here ▸ unknown)]
      exact .inr rfl
    · rw [update_of_ne here]
      exact collected.pending other unknown
  · rcases mem_append.mp mem with old | last
    · obtain ⟨own, found, bound, origin⟩ := collected.reads other old
      exact ⟨own, (kept other old).trans found, by rwa [unique],
        origin.later old later bound kept ⟨[], by rw [unique, append_nil]⟩⟩
    · rw [mem_singleton.mp last]
      refine ⟨slot, by rw [rowMap, update_self], by rwa [unique], fun new => ?_, fun _ => ?_⟩
      · obtain ⟨earlier, found, equal⟩ := (collected.unique _).mp seen
        exact absurd ⟨earlier, mem_append_left _ found, later earlier found, equal⟩ new
      · split
        case isTrue known =>
          have old : index row ∈ done := by
            rcases mem_append.mp known.1 with found | itself
            · exact found
            · rw [mem_singleton.mp itself] at known
              omega
          rw [kept _ old, isSlot]
          exact collected.listed old
        case isFalse unknown =>
          rw [isSlot]
          apply collected.unlisted
          intro old
          exact unknown ⟨mem_append_left _ old, later _ old⟩

/-- Whatever a row is given is the result of some selected row's base row. -/
theorem readFor_mem : ∀ row ∈ done, ∃ source ∈ done, slots.readFor row = some (index source) := by
  intro row mem
  obtain ⟨slot, found, inside, _⟩ := collected.reads row mem
  obtain ⟨source, listed, same⟩ := (collected.unique _).mp (getElem_mem inside)
  refine ⟨source, listed, ?_⟩
  rw [readFor, found, bind_some, getElem?_eq_getElem inside, same]

end Collected

theorem collected_collect (index : Nat → Nat) {selected : List Nat} (ascending : selected.Pairwise (· < ·)) :
    Collected index selected (collect index selected) := by
  -- Induction on the rows seen so far, from the last one.
  induction selected using reverseRecOn with
  | nil => exact collected_nil
  | append_singleton done row ih =>
    obtain ⟨before, _, later⟩ := pairwise_append.mp ascending
    have previous := ih before
    have below : ∀ earlier ∈ done, earlier < row := fun earlier mem => later earlier mem row (mem_singleton_self row)
    unfold collect at previous ⊢
    rw [foldl_append, foldl_cons, foldl_nil]
    by_cases seen : index row ∈ (done.foldl (add index) ⟨fun _ => none, []⟩).uniqueRawIndexes
    · exact previous.add_seen below seen
    · exact previous.add_new below seen

/-- Each selected row that repeats a base row finds its slot: under the number of the base row there is a
row before it that shows just this base row, or else the base row is the first of all. -/
def Resolved (selected : List Nat) (index : Nat → Nat) : Prop :=
  ∀ row ∈ selected, (∃ earlier ∈ selected, earlier < row ∧ index earlier = index row) →
    if index row ∈ selected ∧ index row < row then index (index row) = index row
    else selected.head?.map index = some (index row)

instance (selected : List Nat) (index : Nat → Nat) : Decidable (Resolved selected index) := by
  unfold Resolved
  infer_instance

/-- Every row is given the result of its own base row exactly when the selection is resolved. -/
theorem readFor_iff_resolved {selected : List Nat} (ascending : selected.Pairwise (· < ·)) :
    (∀ row ∈ selected, (collect index selected).readFor row = some (index row)) ↔ Resolved selected index := by
  have collected := collected_collect index ascending
  constructor
  · intro exact row mem again
    obtain ⟨slot, found, _, origin⟩ := collected.reads row mem
    have own := exact row mem
    rw [readFor, found, bind_some] at own
    have source := origin.2 again
    split at source
    case isTrue known =>
      rw [if_pos known]
      have there := exact _ known.1
      rw [readFor, source, bind_some, own] at there
      exact (some.inj there).symm
    case isFalse unknown =>
      rw [if_neg unknown, ← collected.first, ← source]
      exact own
  · intro resolved row
    -- The lookup goes to a smaller row number.
    induction row using Nat.strong_induction_on with
    | _ row ih =>
      intro mem
      obtain ⟨slot, found, _, origin⟩ := collected.reads row mem
      rw [readFor, found, bind_some]
      by_cases again : Repeated index selected row
      · have source := origin.2 again
        have settled := resolved row mem again
        by_cases known : index row ∈ selected ∧ index row < row
        · rw [if_pos known] at source settled
          have there := ih _ known.2 known.1
          rwa [readFor, source, bind_some, settled] at there
        · rw [if_neg known] at source settled
          rw [source, collected.first]
          exact settled
      · exact origin.1 again

end

section

variable {before after : ArrayVector K} {rowMap : Nat → Option Nat} {resultMatrix : List (List K)}

structure Written (rows : List Nat) (result : Nat → List K) (width position : Nat) (before after : ArrayVector K) :
    Prop where
  isNullAt : after.isNullAt = before.isNullAt
  stored : ∀ (j row : Nat), rows[j]? = some row →
    after.spans[row]? = some ⟨position + j * width, width⟩ ∧
      slice after.elements (position + j * width) width = result row
  others : ∀ row, row ∉ rows → after.spans[row]? = before.spans[row]?
  apart : ∀ start count, start + count ≤ position ∨ position + rows.length * width ≤ start →
    slice after.elements start count = slice before.elements start count

theorem Written.nil (result : Nat → List K) (width position : Nat) (before : ArrayVector K) :
    Written [] result width position before before := ⟨rfl, by simp, fun _ _ => rfl, fun _ _ _ => rfl⟩

/-- The row that is stored first is not touched by those that follow. -/
theorem Written.cons {row : Nat} {rest : List Nat} {result : Nat → List K} {position : Nat}
    (room : position + (result row).length ≤ before.elements.length) (bound : row < before.spans.length)
    (new : row ∉ rest) (written : Written rest result (result row).length (position + (result row).length)
      (before.store row position (result row) room) after) :
    Written (row :: rest) result (result row).length position before after where
  isNullAt := written.isNullAt
  stored j other found := by
    cases j with
    | zero =>
      obtain rfl : row = other := by simpa using found
      constructor
      · rw [written.others row new, Nat.zero_mul]
        exact getElem?_set_self bound
      · rw [Nat.zero_mul, Nat.add_zero, written.apart _ _ (.inl (Nat.le_refl _))]
        exact slice_overwrite_self room
    | succ j =>
      have later := written.stored j other (by simpa using found)
      have place : position + (result row).length + j * (result row).length =
          position + (j + 1) * (result row).length := by rw [Nat.succ_mul]; omega
      rwa [place] at later
  others other outside := by
    rw [mem_cons, not_or] at outside
    rw [written.others other outside.2]
    exact getElem?_set_ne (Ne.symm outside.1)
  apart start count far := by
    have far : start + count ≤ position ∨ position + (result row).length + rest.length * (result row).length ≤
      start := by
      rw [length_cons, Nat.succ_mul] at far
      omega
    rw [written.apart start count (by omega)]
    exact slice_overwrite_apart room (by omega)

theorem writeRows_ok (rows : List Nat) (distinct : rows.Nodup) (result : Nat → List K) (width position : Nat)
    (bound : ∀ row ∈ rows, row < before.spans.length)
    (found : ∀ row ∈ rows, (rowMap row).bind (fun slot => resultMatrix[slot]?) = some (result row))
    (sized : ∀ row ∈ rows, (result row).length = width)
    (room : position + rows.length * width ≤ before.elements.length) :
    ∃ after stop, rows.foldlM (writeRow rowMap resultMatrix) (before, position) = .ok (after, stop) ∧
      Written rows result width position before after := by
  induction rows generalizing before position with
  | nil => exact ⟨before, position, rfl, .nil result width position before⟩
  | cons row rest ih =>
    obtain ⟨slot, there, value⟩ := bind_eq_some_iff.mp (found row mem_cons_self)
    have size := sized row mem_cons_self
    rw [length_cons, Nat.succ_mul] at room
    have fits : position + (result row).length ≤ before.elements.length := by omega
    have wrote : writeRow rowMap resultMatrix (before, position) row =
        .ok (before.store row position (result row) fits, position + (result row).length) := by
      simp only [writeRow, there, value, fits, ↓reduceDIte]
    have laterBound : ∀ other ∈ rest, other < (before.store row position (result row) fits).spans.length := by
      intro other member
      have unchanged : (before.store row position (result row) fits).spans.length = before.spans.length :=
        length_set
      exact unchanged ▸ bound other (mem_cons_of_mem row member)
    have elements : (before.store row position (result row) fits).elements.length = before.elements.length :=
      length_overwrite fits
    obtain ⟨after, stop, done, written⟩ := ih
      (nodup_cons.mp distinct).2 (position + (result row).length) laterBound
      (fun other mem => found other (mem_cons_of_mem row mem))
      (fun other mem => sized other (mem_cons_of_mem row mem)) (by rw [elements]; omega)
    refine ⟨after, stop, ?_, ?_⟩
    · rw [foldlM_cons, wrote]
      exact done
    · subst size
      exact written.cons fits (bound row mem_cons_self) (nodup_cons.mp distinct).1

end

def rowEntries (base : ArrayVector K) (width rawIndex : Nat) : List K :=
  slice base.elements (((base.spans[rawIndex]?).map Span.offset).getD 0) width

def Readable (base : ArrayVector K) (width rawIndex : Nat) : Prop :=
  ∃ span, base.spans[rawIndex]? = some span ∧ span.offset + width ≤ base.elements.length

variable {base : ArrayVector K}

theorem readRow_ok {width rawIndex : Nat} (readable : Readable base width rawIndex) :
    readRow base width rawIndex = .ok (rowEntries base width rawIndex) := by
  obtain ⟨span, found, fits⟩ := readable
  simp [readRow, rowEntries, found, fits]

variable {width : Nat}

theorem mapM_readRow_ok {rawIndexes : List Nat} (readable : ∀ rawIndex ∈ rawIndexes, Readable base width rawIndex) :
    rawIndexes.mapM (readRow base width) = .ok (rawIndexes.map (rowEntries base width)) :=
  mapM_eq_pure fun rawIndex mem => readRow_ok (readable rawIndex mem)

def prepared (output : ArrayVector K) (rows : SelectivityVector) : ArrayVector K :=
  ((output.ensureWritable rows.endRow).clearNulls rows).fillZero rows.endRow

theorem length_prepared (output : ArrayVector K) (rows : SelectivityVector) :
    rows.endRow ≤ (prepared output rows).spans.length := by
  simp [prepared, ArrayVector.fillZero]

structure Kernel.Runs (kernel : Kernel K) (rows : SelectivityVector) (input : DecodedArray K) (width : Nat) : Prop where
  isWidth : kernel.inputWidth input.base (collect input.index rows.selected).uniqueRawIndexes = some width
  readable : ∀ row ∈ rows.selected, Readable input.base width (input.index row)
  sized : ∀ row ∈ rows.selected,
    (kernel.computeRow (rowEntries input.base width (input.index row))).length = kernel.outputWidth width
  start : ∀ baseOffset, kernel.firstOffset baseOffset ≤ baseOffset

/-- The row's slot leads to the result of the base row it is read for. -/
theorem result_of_readFor {slots : Slots} {row source : Nat} (read : slots.readFor row = some source)
    (entries : Nat → List K) (compute : List K → List K) :
    (slots.rowMap row).bind (fun slot => ((slots.uniqueRawIndexes.map entries).map compute)[slot]?) =
      some (compute (entries source)) := by
  rw [readFor] at read
  obtain ⟨slot, there, value⟩ := bind_eq_some_iff.mp read
  rw [there, bind_some, getElem?_map, getElem?_map, value, map_some, map_some]

variable {rows : SelectivityVector} {input : DecodedArray K}

variable {kernel : Kernel K} (runs : kernel.Runs rows input width) (unset : K) (output : ArrayVector K)
include runs

/-- There is room for the results of all selected rows, wherever the kernel begins. -/
theorem room_for_results :
    kernel.firstOffset output.elements.length + rows.selected.length * kernel.outputWidth width ≤
      ((prepared output rows).growElements
        (replicate (rows.endRow * kernel.outputWidth width) unset)).elements.length := by
  have fewer := Nat.mul_le_mul_right (kernel.outputWidth width) rows.length_le
  have start := runs.start output.elements.length
  have length : ((prepared output rows).growElements
      (replicate (rows.endRow * kernel.outputWidth width) unset)).elements.length =
      output.elements.length + rows.endRow * kernel.outputWidth width := by
    rw [ArrayVector.growElements, length_append, length_replicate]
    rfl
  omega

/-- The results are written for all selected rows, each the result of the base row it is given. -/
theorem Kernel.Runs.apply_ok :
    ∃ (read : Nat → Nat) (result : ArrayVector K),
      (∀ row ∈ rows.selected, (collect input.index rows.selected).readFor row = some (read row)) ∧
      kernel.apply unset rows input output = .ok result ∧
      Written rows.selected (fun row => kernel.computeRow (rowEntries input.base width (read row)))
        (kernel.outputWidth width) (kernel.firstOffset output.elements.length)
        ((prepared output rows).growElements (replicate (rows.endRow * kernel.outputWidth width) unset)) result := by
  have collected := collected_collect input.index rows.ascending
  have readable : ∀ rawIndex ∈ (collect input.index rows.selected).uniqueRawIndexes,
      Readable input.base width rawIndex := by
    intro rawIndex mem
    obtain ⟨row, listed, rfl⟩ := (collected.unique rawIndex).mp mem
    exact runs.readable row listed
  let read (row : Nat) : Nat := ((collect input.index rows.selected).readFor row).getD 0
  have reads : ∀ row ∈ rows.selected, (collect input.index rows.selected).readFor row = some (read row) := by
    intro row mem
    obtain ⟨source, _, found⟩ := collected.readFor_mem row mem
    simp only [read, found, getD_some]
  have sized : ∀ row ∈ rows.selected,
      (kernel.computeRow (rowEntries input.base width (read row))).length = kernel.outputWidth width := by
    intro row mem
    obtain ⟨source, listed, same⟩ := collected.readFor_mem row mem
    rw [reads row mem, some.injEq] at same
    rw [same]
    exact runs.sized source listed
  have bound : ∀ row ∈ rows.selected, row < ((prepared output rows).growElements
      (replicate (rows.endRow * kernel.outputWidth width) unset)).spans.length := by
    intro row mem
    exact Nat.lt_of_lt_of_le (rows.bound row mem) (length_prepared output rows)
  obtain ⟨result, stop, done, written⟩ := writeRows_ok rows.selected (rows.ascending.imp Nat.ne_of_lt)
    (fun row => kernel.computeRow (rowEntries input.base width (read row))) (kernel.outputWidth width)
    (kernel.firstOffset output.elements.length) bound
    (fun row mem => result_of_readFor (reads row mem) _ kernel.computeRow) sized (room_for_results runs unset output)
  refine ⟨read, result, reads, ?_, written⟩
  unfold Kernel.apply
  simp only [runs.isWidth]
  rw [mapM_readRow_ok readable]
  exact congrArg (fun step => step >>= fun written => .ok written.1) done

end CactusDB.MlFunctions.RowKernels
