import CactusDB.Library.Stateful
import CactusDB.Library.TextScan
import CactusDB.MlFunctions.ArrayVectors
import Mathlib.Data.List.TakeWhile

/-! Encoders turn keys into codes, and an embedding copies the table row of each code. The memory around
the table is part of the model, so that a row outside the table can be read. -/

namespace CactusDB.MlFunctions.Embedding
open Std Library Stateful Buffer TextScan ArrayVectors List

inductive Failure where
  | runtimeError (message : Text)
  /-- A vector is read where it has no row, or a null pointer is followed. -/
  | undefined
  deriving DecidableEq

section

variable {α : Type}

def spansFrom (currentIdx : Nat) : List (List α) → List Span
  | [] => []
  | array :: rest => ⟨currentIdx, array.length⟩ :: spansFrom (currentIdx + array.length) rest

variable (data : List (List α))

theorem spansFrom_inside (currentIdx : Nat) (span : Span)
    (mem : span ∈ spansFrom currentIdx data) : span.offset + span.size ≤ currentIdx + data.flatten.length := by
  induction data generalizing currentIdx with
  | nil => cases mem
  | cons array rest ih =>
    simp only [flatten_cons, length_append]
    cases mem with
    | head => exact Nat.add_le_add_left (Nat.le_add_right _ _) _
    | tail _ behind =>
      have later := ih _ behind
      omega

def arrayVector (data : List (List α)) : ArrayVector α where
  isNullAt _ := false
  spans := spansFrom 0 data
  elements := data.flatten
  inside span mem := by simpa using spansFrom_inside data 0 span mem

@[simp] theorem length_spansFrom (currentIdx : Nat) : (spansFrom currentIdx data).length = data.length := by
  induction data generalizing currentIdx with
  | nil => rfl
  | cons array rest ih => simp [spansFrom, ih]

theorem slice_spansFrom (front : List α) (row : Nat) (span : Span)
    (there : (spansFrom front.length data)[row]? = some span) :
    some (slice (front ++ data.flatten) span.offset span.size) = data[row]? := by
  induction data generalizing front row with
  | nil => cases there
  | cons array rest ih =>
    cases row with
    | zero =>
      cases there
      simp [slice]
    | succ row =>
      have moved := ih (front ++ array) row (by simpa [spansFrom] using there)
      simpa using moved

theorem valuesAt_arrayVector (row : Nat) : (arrayVector data).valuesAt row = data[row]?.getD [] := by
  unfold ArrayVector.valuesAt
  cases there : (arrayVector data).spans[row]? with
  | none =>
    have behind : data.length ≤ row := by simpa [arrayVector] using there
    simp [getElem?_eq_none behind]
  | some span =>
    have values := slice_spansFrom data [] row span there
    simp only [← values, Option.map_some, Option.getD_some]
    rfl

end

section

variable {κ : Type} [Ord κ] [TransOrd κ]

def codeOf (mapping : ExtTreeMap κ Int) (key : κ) : Int := mapping[key]?.getD (-1)

/-- One round of the encoders. `keyAt` has no value where the input has no row. -/
def encodeRow (mapping : ExtTreeMap κ Int) (keyAt : Nat → Option κ) (result : List (List Int)) (row : Nat) :
    Except Failure (List (List Int)) :=
  match keyAt row with
  | some key => .ok (result.set row [codeOf mapping key])
  | none => .error .undefined

def encode (mapping : ExtTreeMap κ Int) (keyAt : Nat → Option κ) (rows : SelectivityVector) :
    Except Failure (ArrayVector Int) := do
  let result ← rows.selected.foldlM (encodeRow mapping keyAt) (List.replicate rows.endRow [])
  return arrayVector result

inductive ArrayColumn where
  | flat (vector : ArrayVector Int)
  | encoded (vector : DecodedArray Int)

/-- The keys are the entries with the numbers of the rows, whatever the arrays of the rows are. A column
that is not flat is cast to a null pointer. -/
def IntEncoder.apply (mapping : ExtTreeMap Int Int) (rows : SelectivityVector) :
    ArrayColumn → Except Failure (ArrayVector Int)
  | .flat vector => encode mapping (fun row => vector.elements[row]?) rows
  | .encoded _ => .error .undefined

structure DecodedStrings where
  base : List Text
  index : Nat → Nat

def StringEncoder.apply (mapping : ExtTreeMap Text Int) (rows : SelectivityVector) (input : DecodedStrings) :
    Except Failure (ArrayVector Int) :=
  encode mapping (fun row => input.base[input.index row]?) rows

def rowCode (mapping : ExtTreeMap κ Int) (keyAt : Nat → Option κ) (rows : SelectivityVector) (row : Nat) :
    Option Int :=
  if row ∈ rows.selected then (keyAt row).map (codeOf mapping) else none

variable (mapping : ExtTreeMap κ Int)

theorem codeOf_nonneg_iff (key : κ) :
    0 ≤ codeOf mapping key ↔ ∃ code : Int, mapping[key]? = some code ∧ 0 ≤ code := by
  unfold codeOf
  cases mapping[key]? <;> simp

variable (keyAt : Nat → Option κ)

theorem encode_loop_ok (selected : List Nat)
    (before : List (List Int)) (inside : ∀ row ∈ selected, row < before.length)
    (keys : ∀ row ∈ selected, (keyAt row).isSome) :
    ∃ after, selected.foldlM (encodeRow mapping keyAt) before = .ok after ∧ after.length = before.length ∧
      ∀ row, after[row]? =
        if row ∈ selected then (keyAt row).map fun key => [codeOf mapping key] else before[row]? := by
  induction selected generalizing before with
  | nil => exact ⟨before, rfl, rfl, fun row => rfl⟩
  | cons first rest ih =>
    obtain ⟨key, found⟩ := Option.isSome_iff_exists.mp (keys first mem_cons_self)
    obtain ⟨after, done, length, entries⟩ := ih (before.set first [codeOf mapping key])
      (fun row mem => by simpa using inside row (mem_cons_of_mem first mem))
      (fun row mem => keys row (mem_cons_of_mem first mem))
    refine ⟨after, ?_, by simpa using length, fun row => ?_⟩
    · rw [foldlM_cons, encodeRow, found]
      exact done
    · have bound := inside first mem_cons_self
      rw [entries row]
      by_cases later : row ∈ rest
      · simp [later]
      · by_cases here : row = first
        · subst here
          simp [later, found, bound]
        · simp [later, here, getElem?_set_ne (Ne.symm here)]

theorem encode_loop_error (selected : List Nat)
    (before : List (List Int)) (missing : ∃ row ∈ selected, keyAt row = none) :
    selected.foldlM (encodeRow mapping keyAt) before = .error .undefined := by
  induction selected generalizing before with
  | nil =>
    obtain ⟨row, mem, _⟩ := missing
    cases mem
  | cons first rest ih =>
    rw [foldlM_cons]
    cases found : keyAt first with
    | none =>
      simp only [encodeRow, found]
      rfl
    | some key =>
      obtain ⟨row, mem, gone⟩ := missing
      have later : row ∈ rest := by
        cases mem with
        | head => exact nomatch found.symm.trans gone
        | tail _ behind => exact behind
      simp only [encodeRow, found]
      exact ih _ ⟨row, later, gone⟩

/-- Each selected row becomes an array with one code, every other row an empty one. -/
theorem encode_spec (rows : SelectivityVector) :
    (∃ row ∈ rows.selected, keyAt row = none) ∧ encode mapping keyAt rows = .error .undefined ∨
      (∀ row ∈ rows.selected, (keyAt row).isSome) ∧ ∃ ids, encode mapping keyAt rows = .ok ids ∧
        ids.spans.length = rows.endRow ∧
        ∀ row, ids.valuesAt row = (rowCode mapping keyAt rows row).toList := by
  by_cases keys : ∀ row ∈ rows.selected, (keyAt row).isSome
  · right
    obtain ⟨result, done, length, entries⟩ := encode_loop_ok mapping keyAt rows.selected
      (List.replicate rows.endRow []) (by simpa using rows.bound) keys
    refine ⟨keys, arrayVector result, ?_, ?_, fun row => ?_⟩
    · unfold encode
      rw [done]
      rfl
    · simpa [arrayVector] using length
    · rw [valuesAt_arrayVector, entries]
      by_cases mem : row ∈ rows.selected
      · cases found : keyAt row <;> simp [rowCode, mem, found]
      · simp only [mem, if_false, rowCode, Option.toList_none, getElem?_replicate]
        split <;> rfl
  · left
    push Not at keys
    obtain ⟨row, mem, gone⟩ := keys
    have missing : ∃ row ∈ rows.selected, keyAt row = none := ⟨row, mem, by simpa using gone⟩
    refine ⟨missing, ?_⟩
    unfold encode
    rw [encode_loop_error mapping keyAt rows.selected _ missing]
    rfl

end

section

variable {K : Type}

structure Copy (K : Type) where
  spans : List Span
  elements : List K
  outputOffset : Nat
  reads : List Int

structure Table (K : Type) where
  memory : Int → K
  numEmbeddings : Nat
  embeddingDims : Nat

namespace Table

section

variable (table : Table K) (embedIndex : Int)

def rowAt : List K :=
  (List.range table.embeddingDims).map fun i => table.memory (embedIndex * table.embeddingDims + i)

def outOfBounds : Text :=
  "[Embedding] Index out of bounds: ".toList ++ (toString embedIndex).toList ++ " >= ".toList ++
    (toString table.numEmbeddings).toList

/-- Only the upper bound of an index is checked. -/
def copyIndex : Procedure Failure (Copy K) Unit :=
  if table.numEmbeddings ≤ embedIndex then throw (.runtimeError (table.outOfBounds embedIndex))
  else modify fun copy =>
    { copy with
      elements := overwrite copy.elements copy.outputOffset (table.rowAt embedIndex)
      outputOffset := copy.outputOffset + table.embeddingDims
      reads := copy.reads ++ [embedIndex] }

end

/-- The array of row `row` of the base is used, also where the column is encoded. -/
def copyRow (table : Table K) (ids : ArrayVector Int) (row : Nat) : Procedure Failure (Copy K) Unit := do
  modify fun copy =>
    { copy with
      spans := copy.spans.set row ⟨copy.outputOffset, (ids.valuesAt row).length * table.embeddingDims⟩ }
  (ids.valuesAt row).forM table.copyIndex

/-- The entries that are added to the output hold whatever `unset` says until they are written. -/
def apply (table : Table K) (unset : K) (rows : SelectivityVector) (input : DecodedArray Int)
    (output : ArrayVector K) : Except Failure Unit × Copy K :=
  let cleared := ((output.ensureWritable rows.endRow).clearNulls rows).fillZero rows.endRow
  let start : Copy K := ⟨cleared.spans, cleared.elements, cleared.elements.length, []⟩
  -- the sizes of all rows are read before the first index is
  if rows.selected.all (· < input.base.spans.length) then
    let numEmbeddingToRetrieve := (rows.selected.map fun row => (input.base.valuesAt row).length).sum
    run (rows.selected.forM (table.copyRow input.base))
      { start with
        elements := start.elements ++ List.replicate (numEmbeddingToRetrieve * table.embeddingDims) unset }
  else (.error .undefined, start)

end Table

section

variable (table : Table K)

def admitted (indices : List Int) : List Int := indices.takeWhile fun index : Int => index < table.numEmbeddings

theorem admitted_append (first rest : List Int) : admitted table (first ++ rest) =
      if admitted table first = first then first ++ admitted table rest else admitted table first := by
  have same : (admitted table first).length = first.length ↔ admitted table first = first :=
    ⟨(List.takeWhile_prefix _).eq_of_length, congrArg List.length⟩
  simp only [← same]
  exact takeWhile_append

/-- What a part of the loop over the indices does: it copies the admitted ones, and it stops exactly when
one is too large, with a message and not in an undefined way. -/
structure Copies (indices : List Int) (action : Procedure Failure (Copy K) Unit) : Prop where
  reads : ∀ copy, (run action copy).2.reads = copy.reads ++ admitted table indices
  finishes : ∀ copy, (run action copy).1 = .ok () ↔ admitted table indices = indices
  defined : ∀ copy, (run action copy).1 ≠ .error .undefined

variable {table}

theorem Copies.nil : Copies table [] (pure ()) where
  reads copy := by simp [admitted]
  finishes copy := by simp [admitted]
  defined copy := by simp

theorem Copies.bind {first rest : List Int} {action next : Procedure Failure (Copy K) Unit}
    (here : Copies table first action) (later : Copies table rest next) :
    Copies table (first ++ rest) (action >>= fun _ => next) := by
  have finished : ∀ copy after, run action copy = (.ok (), after) →
      admitted table first = first ∧ after.reads = copy.reads ++ first := by
    intro copy after outcome
    have whole : admitted table first = first := (here.finishes copy).mp (by rw [outcome])
    have reads := here.reads copy
    rw [outcome, whole] at reads
    exact ⟨whole, reads⟩
  have stopped : ∀ copy error after, run action copy = (.error error, after) →
      admitted table first ≠ first ∧ after.reads = copy.reads ++ admitted table first := by
    intro copy error after outcome
    have reads := here.reads copy
    rw [outcome] at reads
    refine ⟨fun whole => ?_, reads⟩
    have success := (here.finishes copy).mpr whole
    rw [outcome] at success
    exact nomatch success
  have longer : admitted table first ≠ first → admitted table first ≠ first ++ rest := by
    intro part whole
    have long : first.length ≤ (admitted table first).length := by
      rw [whole, length_append]
      exact Nat.le_add_right _ _
    exact part ((List.takeWhile_prefix _).eq_of_length_le long)
  refine ⟨fun copy => ?_, fun copy => ?_, fun copy => ?_⟩
  all_goals
    rw [run_bind]
    rcases outcome : run action copy with ⟨_ | _, after⟩
  · obtain ⟨part, reads⟩ := stopped copy _ after outcome
    rw [admitted_append, if_neg part]
    exact reads
  · obtain ⟨whole, reads⟩ := finished copy after outcome
    rw [admitted_append, if_pos whole, ← append_assoc, ← reads]
    exact later.reads after
  · obtain ⟨part, reads⟩ := stopped copy _ after outcome
    rw [admitted_append, if_neg part]
    exact iff_of_false (fun success => nomatch success) (longer part)
  · obtain ⟨whole, reads⟩ := finished copy after outcome
    rw [admitted_append, if_pos whole, append_cancel_left_eq]
    exact later.finishes after
  · have defined := here.defined copy
    rwa [outcome] at defined
  · exact later.defined after

theorem copyIndex_copies (index : Int) : Copies table [index] (table.copyIndex index) := by
  unfold Table.copyIndex
  split
  · next large =>
      have none : admitted table [index] = [] := by simp [admitted, large]
      exact ⟨fun copy => by simp [none], fun copy => by simp [none], fun copy => by simp⟩
  · next small =>
      have one : admitted table [index] = [index] := by simp [admitted, Int.not_le.mp small]
      exact ⟨fun copy => by simp [one], fun copy => by simp [one], fun copy => by simp⟩

theorem forM_copies {α : Type} {step : α → Procedure Failure (Copy K) Unit} {indices : α → List Int}
    (each : ∀ round, Copies table (indices round) (step round)) (rounds : List α) :
    Copies table (rounds.flatMap indices) (rounds.forM step) := by
  induction rounds with
  | nil => exact .nil
  | cons round rest ih => simpa using (each round).bind ih

theorem copyRow_copies (ids : ArrayVector Int) (row : Nat) :
    Copies table (ids.valuesAt row) (table.copyRow ids row) := by
  have indices : Copies table _ ((ids.valuesAt row).forM table.copyIndex) := forM_copies copyIndex_copies _
  simp only [flatMap_singleton'] at indices
  exact ⟨fun copy => indices.reads _, fun copy => indices.finishes _, fun copy => indices.defined _⟩

end

/-- No vector is read where it has no row, and only rows of the table are copied. -/
def Safe (table : Table K) (outcome : Except Failure Unit × Copy K) : Prop :=
  outcome.1 ≠ .error .undefined ∧ ∀ row ∈ outcome.2.reads, 0 ≤ row ∧ row < table.numEmbeddings

/-- The upper bound is checked, so it is the lower one that decides. -/
theorem safe_apply_iff (table : Table K) (unset : K) (rows : SelectivityVector) (input : DecodedArray Int)
    (output : ArrayVector K) :
    Safe table (table.apply unset rows input output) ↔
      (∀ row ∈ rows.selected, row < input.base.spans.length) ∧
        ∀ index ∈ admitted table (rows.selected.flatMap input.base.valuesAt), 0 ≤ index := by
  unfold Table.apply
  by_cases there : ∀ row ∈ rows.selected, row < input.base.spans.length
  · have all : rows.selected.all (· < input.base.spans.length) = true := by simpa using there
    have copies : Copies table _ (rows.selected.forM (table.copyRow input.base)) :=
      forM_copies (copyRow_copies input.base) rows.selected
    simp only [all, if_true, Safe, copies.reads, nil_append]
    constructor
    · rintro ⟨_, inside⟩
      exact ⟨there, fun index mem => (inside index mem).1⟩
    · rintro ⟨_, nonneg⟩
      refine ⟨copies.defined _, fun index mem => ⟨nonneg index mem, ?_⟩⟩
      simpa using mem_takeWhile_imp mem
  · have missing : rows.selected.all (· < input.base.spans.length) = false := by simpa using there
    simp only [missing]
    exact iff_of_false (fun safe => safe.1 rfl) fun condition => there condition.1

end

variable {K κ : Type} [Ord κ] [TransOrd κ]

def embedCodes (table : Table K) (unset : K) (codes : Except Failure (ArrayVector Int)) (index : Nat → Nat)
    (rows : SelectivityVector) (output : ArrayVector K) : Except Failure Unit × Copy K :=
  match codes with
  | .ok ids => table.apply unset rows ⟨ids, index⟩ output
  | .error failure => (.error failure, ⟨[], [], 0, []⟩)

def lookedUp (keyAt : Nat → Option κ) (encoded rows : SelectivityVector) : List κ :=
  rows.selected.filterMap fun row => if row ∈ encoded.selected then keyAt row else none

/-- The encoder finds all its keys in the column, the rows of the embedding are rows of the encoder, and
up to the first key whose code is too large every key that is looked up has a code that is not negative. -/
structure Covered (mapping : ExtTreeMap κ Int) (keyAt : Nat → Option κ) (encoded rows : SelectivityVector)
    (table : Table K) : Prop where
  keys : ∀ row ∈ encoded.selected, (keyAt row).isSome
  inside : ∀ row ∈ rows.selected, row < encoded.endRow
  codes : ∀ key ∈ (lookedUp keyAt encoded rows).takeWhile fun key => codeOf mapping key < table.numEmbeddings,
    ∃ code : Int, mapping[key]? = some code ∧ 0 ≤ code

variable (mapping : ExtTreeMap κ Int) (keyAt : Nat → Option κ) (encoded rows : SelectivityVector)

/-- The codes that the embedding finds are those of the keys it comes to. -/
theorem flatMap_valuesAt
    {ids : ArrayVector Int} (values : ∀ row, ids.valuesAt row = (rowCode mapping keyAt encoded row).toList) :
    rows.selected.flatMap ids.valuesAt = (lookedUp keyAt encoded rows).map (codeOf mapping) := by
  unfold lookedUp
  induction rows.selected with
  | nil => rfl
  | cons row rest ih =>
    rw [flatMap_cons, ih, values, rowCode, filterMap_cons]
    split
    · cases keyAt row <;> rfl
    · rfl

theorem safe_encode_iff (table : Table K) (unset : K) (index : Nat → Nat) (output : ArrayVector K) :
    Safe table (embedCodes table unset (encode mapping keyAt encoded) index rows output) ↔
      Covered mapping keyAt encoded rows table := by
  rcases encode_spec mapping keyAt encoded with ⟨⟨row, mem, gone⟩, failed⟩ | ⟨keys, ids, done, length, values⟩
  · rw [failed]
    refine iff_of_false (fun safe => safe.1 rfl) fun covered => ?_
    have key := covered.keys row mem
    simp [gone] at key
  · rw [done, embedCodes, safe_apply_iff, flatMap_valuesAt mapping keyAt encoded rows values, admitted,
      takeWhile_map, forall_mem_map, length]
    simp only [codeOf_nonneg_iff]
    exact ⟨fun safe => ⟨keys, safe.1, safe.2⟩, fun covered => ⟨covered.inside, covered.codes⟩⟩

/-- For a table with one row for each encoded key, and for any encoding of the columns. -/
theorem encoded_lookup_safe_iff (memory : Int → K) (embeddingDims : Nat) (encoded rows : SelectivityVector)
    (unset : K) (index : Nat → Nat) (output : ArrayVector K) :
    (∀ (mapping : ExtTreeMap Int Int) (column : ArrayColumn),
      let table : Table K := ⟨memory, mapping.size, embeddingDims⟩
      Safe table (embedCodes table unset (IntEncoder.apply mapping encoded column) index rows output) ↔
        ∃ vector, column = .flat vector ∧
          Covered mapping (fun row => vector.elements[row]?) encoded rows table) ∧
    ∀ (mapping : ExtTreeMap Text Int) (column : DecodedStrings),
      let table : Table K := ⟨memory, mapping.size, embeddingDims⟩
      Safe table (embedCodes table unset (StringEncoder.apply mapping encoded column) index rows output) ↔
        Covered mapping (fun row => column.base[column.index row]?) encoded rows table := by
  refine ⟨fun mapping column => ?_, fun mapping column => safe_encode_iff mapping _ encoded rows _ unset index output⟩
  cases column with
  | encoded vector =>
    refine iff_of_false (fun safe => safe.1 rfl) ?_
    rintro ⟨_, same, _⟩
    cases same
  | flat vector =>
    have flat := safe_encode_iff mapping (fun row => vector.elements[row]?) encoded rows
      ⟨memory, mapping.size, embeddingDims⟩ unset index output
    refine flat.trans ⟨fun covered => ⟨vector, rfl, covered⟩, ?_⟩
    rintro ⟨_, same, covered⟩
    cases same
    exact covered

/-- The key 5 has no code, so the row before the table is copied. -/
theorem unknown_key_reads_before_table :
    let mapping : ExtTreeMap Int Int := (∅ : ExtTreeMap Int Int).insert 7 0
    let table : Table Nat := ⟨fun _ => 0, mapping.size, 2⟩
    let codes := IntEncoder.apply mapping (.all 1) (.flat (arrayVector [[5]]))
    let outcome := embedCodes table 0 codes id (.all 1) (arrayVector [])
    table.numEmbeddings = 1 ∧ outcome.2.reads = [-1] ∧ ¬Safe table outcome := by
  intro mapping table codes outcome
  have reads : outcome.2.reads = [-1] := by decide +kernel
  refine ⟨by decide +kernel, reads, fun safe => ?_⟩
  have inside := safe.2 (-1) (by simp [reads])
  omega

end CactusDB.MlFunctions.Embedding
