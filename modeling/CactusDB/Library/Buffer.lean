import CactusDB.Library.Fallible

/-! Parts of a flat buffer, and copying into it. -/

namespace CactusDB.Library.Buffer

open Fallible List

variable {α : Type}

def slice (buffer : List α) (start count : Nat) : List α := (buffer.drop start).take count

def overwrite (buffer : List α) (position : Nat) (values : List α) : List α :=
  buffer.take position ++ values ++ buffer.drop (position + values.length)

theorem rowMajor_lt {rows width r c : Nat} (row : r < rows) (column : c < width) : r * width + c < rows * width := by
  have next := Nat.mul_le_mul_right width row
  rw [Nat.succ_mul] at next
  omega

theorem rowMajor_div {width r c : Nat} (column : c < width) : (r * width + c) / width = r := by
  rw [Nat.add_comm, Nat.add_mul_div_right _ _ (Nat.zero_lt_of_lt column), Nat.div_eq_of_lt column, Nat.zero_add]

theorem rowMajor_mod {width r c : Nat} (column : c < width) : (r * width + c) % width = c := by
  rw [Nat.mul_add_mod_self_right, Nat.mod_eq_of_lt column]

theorem getElem?_slice (buffer : List α) (start count i : Nat) :
    (slice buffer start count)[i]? = if i < count then buffer[start + i]? else none := by
  unfold slice
  rw [getElem?_take]
  split
  · rw [getElem?_drop]
  · rfl

@[simp] theorem slice_zero (buffer : List α) (start : Nat) : slice buffer start 0 = [] := by
  simp [slice]

variable {buffer values : List α} {position : Nat} {start count : Nat}

theorem length_slice (fits : start + count ≤ buffer.length) : (slice buffer start count).length = count := by
  unfold slice
  rw [length_take, length_drop]
  omega

/-- Longer buffers show the same in the part that is there already. -/
theorem slice_append (fits : start + count ≤ buffer.length) (more : List α) :
    slice (buffer ++ more) start count = slice buffer start count := by
  apply ext_getElem?
  intro i
  rw [getElem?_slice, getElem?_slice]
  split
  · rw [getElem?_append_left (by omega)]
  · rfl

section

variable (fits : position + values.length ≤ buffer.length)
include fits

theorem length_overwrite : (overwrite buffer position values).length = buffer.length := by
  simp only [overwrite, length_append, length_take, length_drop]
  omega

theorem getElem?_overwrite (i : Nat) : (overwrite buffer position values)[i]? =
      if position ≤ i ∧ i < position + values.length then values[i - position]? else buffer[i]? := by
  have front : (buffer.take position).length = position := by
    rw [length_take]
    omega
  unfold overwrite
  rw [append_assoc]
  rcases Nat.lt_or_ge i position with before | after
  · rw [getElem?_append_left (by omega), getElem?_take, if_pos before, if_neg (by omega)]
  · rw [getElem?_append_right (by omega), front]
    rcases Nat.lt_or_ge i (position + values.length) with inside | behind
    · rw [getElem?_append_left (by omega), if_pos ⟨after, inside⟩]
    · rw [getElem?_append_right (by omega), getElem?_drop, if_neg (by omega)]
      congr 1
      omega

theorem slice_overwrite_self : slice (overwrite buffer position values) position values.length = values := by
  apply ext_getElem?
  intro i
  rw [getElem?_slice]
  split
  case isTrue inside =>
    rw [getElem?_overwrite fits, if_pos (by omega)]
    congr 1
    omega
  case isFalse outside => rw [getElem?_eq_none (by omega)]

theorem slice_overwrite_apart (apart : start + count ≤ position ∨ position + values.length ≤ start) :
    slice (overwrite buffer position values) start count = slice buffer start count := by
  apply ext_getElem?
  intro i
  rw [getElem?_slice, getElem?_slice]
  split
  · rw [getElem?_overwrite fits, if_neg (by omega)]
  · rfl

end

def setAll (buffer : List α) (writes : List (Nat × α)) : List α :=
  writes.foldl (fun buffer write => buffer.set write.1 write.2) buffer

variable {writes : List (Nat × α)}

theorem getElem?_setAll_of_untouched {place : Nat} (untouched : ∀ write ∈ writes, write.1 ≠ place) (buffer : List α) :
    (setAll buffer writes)[place]? = buffer[place]? := by
  induction writes generalizing buffer with
  | nil => rfl
  | cons write rest ih =>
    have later := ih (fun other mem => untouched other (mem_cons_of_mem write mem))
      (buffer.set write.1 write.2)
    rwa [getElem?_set_ne (untouched write mem_cons_self)] at later

/-- A place to which every write brings the same value, and some write does, holds it. -/
theorem getElem?_setAll_of_agree {place : Nat} {value : α}
    (written : ∃ write ∈ writes, write.1 = place) (agree : ∀ write ∈ writes, write.1 = place → write.2 = value)
    (inside : place < buffer.length) : (setAll buffer writes)[place]? = some value := by
  induction writes generalizing buffer with
  | nil =>
    obtain ⟨write, mem, _⟩ := written
    cases mem
  | cons write rest ih =>
    change (setAll (buffer.set write.1 write.2) rest)[place]? = some value
    by_cases again : ∃ other ∈ rest, other.1 = place
    · apply ih again (fun other mem => agree other (mem_cons_of_mem write mem))
      rwa [length_set]
    · -- the first write is the last one that goes there
      have here : write.1 = place := by
        obtain ⟨other, mem, same⟩ := written
        cases mem with
        | head => exact same
        | tail _ later => exact absurd ⟨other, later, same⟩ again
      have apart : ∀ other ∈ rest, other.1 ≠ place := by
        intro other mem same
        exact again ⟨other, mem, same⟩
      rw [getElem?_setAll_of_untouched apart, here, getElem?_set_self inside,
        agree write mem_cons_self here]

section

variable {ε γ : Type} (error : ε)

def store (buffer : List α) (write : Nat × α) : Except ε (List α) :=
  if write.1 < buffer.length then .ok (buffer.set write.1 write.2) else .error error

variable {error} in
theorem store_ok {buffer after : List α} {write : Nat × α} (done : store error buffer write = .ok after) :
    write.1 < buffer.length ∧ buffer.set write.1 write.2 = after := by
  unfold store at done
  split at done
  case isTrue inside => exact ⟨inside, Except.ok.inj done⟩
  case isFalse => cases done

/-- A loop of writes goes through where each of them can be computed and lies inside, and it leaves the
buffer with all of them done. -/
theorem foldlM_store_iff (write : γ → Except ε (Nat × α)) (rounds : List γ) (buffer after : List α) :
    rounds.foldlM (fun buffer round => do store error buffer (← write round)) buffer = .ok after ↔
      ∃ writes, rounds.mapM write = .ok writes ∧ (∀ done ∈ writes, done.1 < buffer.length) ∧
        after = setAll buffer writes := by
  induction rounds generalizing buffer with
  | nil =>
    constructor
    · intro finished
      exact ⟨[], rfl, by simp, (Except.ok.inj finished).symm⟩
    · rintro ⟨writes, empty, _, rfl⟩
      cases empty
      rfl
  | cons round rest ih =>
    rw [foldlM_cons]
    constructor
    · intro finished
      obtain ⟨middle, first, later⟩ := exists_of_bind_ok finished
      obtain ⟨done, computed, stored⟩ := exists_of_bind_ok first
      obtain ⟨inside, rfl⟩ := store_ok stored
      obtain ⟨writes, made, each, rfl⟩ := (ih _).mp later
      rw [length_set] at each
      refine ⟨done :: writes, ?_, ?_, rfl⟩
      · rw [mapM_cons, computed, made]
        rfl
      · intro other mem
        cases mem with
        | head => exact inside
        | tail _ behind => exact each other behind
    · rintro ⟨writes, made, each, rfl⟩
      obtain ⟨done, others, computed, later, rfl⟩ := mapM_cons_ok made
      have rest := (ih (buffer.set done.1 done.2)).mpr ⟨others, later, fun other mem => by
        rw [length_set]
        exact each other (mem_cons_of_mem done mem), rfl⟩
      rw [computed]
      change (store error buffer done >>= _) = _
      rw [store, if_pos (each done mem_cons_self)]
      exact rest

end

variable {β : Type}

variable {start : Nat} {count : Nat}

theorem slice_front {part back : List α} (place : start = 0) (size : count = part.length) :
    slice (part ++ back) start count = part := by
  subst place size
  simp [slice]

variable {front rest : List α}

theorem slice_skip (place : front.length ≤ start) :
    slice (front ++ rest) start count = slice rest (start - front.length) count := by
  unfold slice
  rw [drop_append, drop_eq_nil_of_le place, nil_append]

theorem slice_at {front part back : List α} (place : start = front.length) (size : count = part.length) :
    slice (front ++ (part ++ back)) start count = part := by
  rw [slice_skip (Nat.le_of_eq place.symm), slice_front (by omega) size]

variable {encode : β → List α}

variable {width : Nat} {records : List β} (each : ∀ record ∈ records, (encode record).length = width)
include each

theorem length_flatMap_records :
    (records.flatMap encode).length = width * records.length := by
  rw [length_flatMap, map_congr_left each, map_const', sum_replicate_nat, Nat.mul_comm]

/-- Records of one width that lie behind each other are read one by one. -/
theorem map_slice_records {decode : List α → β} (back : ∀ record ∈ records, decode (encode record) = record)
    (place : start = front.length) :
    (List.range records.length).map (fun index =>
      decode (slice (front ++ (records.flatMap encode ++ rest)) (start + width * index) width)) = records := by
  refine ext_getElem (by simp) ?_
  intro index left right
  rw [getElem_map, getElem_range]
  have mem : records[index] ∈ records := getElem_mem right
  have parts : front ++ (records.flatMap encode ++ rest) = (front ++ (records.take index).flatMap encode) ++
      (encode records[index] ++ ((records.drop (index + 1)).flatMap encode ++ rest)) := by
    have split : records = records.take index ++ records[index] :: records.drop (index + 1) := by
      rw [← drop_eq_getElem_cons right, take_append_drop]
    have flat : records.flatMap encode = (records.take index).flatMap encode ++
        (encode records[index] ++ (records.drop (index + 1)).flatMap encode) := by
      rw [← flatMap_cons, ← flatMap_append, ← split]
    rw [flat]
    simp only [append_assoc]
  have before : ((records.take index).flatMap encode).length = width * index := by
    rw [length_flatMap_records fun record taken => each record (mem_of_mem_take taken),
      length_take_of_le (Nat.le_of_lt right)]
  rw [parts, slice_at (by rw [length_append, before, place]) (each _ mem).symm, back _ mem]

end CactusDB.Library.Buffer
