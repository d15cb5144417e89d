import Mathlib.Data.List.Induction

/-! Hash tables with linear probing: a value goes to the first free slot behind its home, and a lookup
walks from the home up to the value or to a free slot. -/

namespace CactusDB.Library.LinearProbing
open List

variable {α : Type} [DecidableEq α] (empty : α)

def slot (table : List α) (position : Nat) : α := table.getD (position % table.length) empty

def insertFrom (value : α) (table : List α) : Nat → Nat → List α
  | _, 0 => table
  | position, rounds + 1 =>
    if slot empty table position = empty then table.set (position % table.length) value
    else insertFrom value table (position + 1) rounds

def findFrom (value : α) (table : List α) : Nat → Nat → Bool
  | _, 0 => false
  | position, rounds + 1 =>
    if slot empty table position = empty then false
    else if slot empty table position = value then true
    else findFrom value table (position + 1) rounds

def insert (home : α → Nat) (table : List α) (value : α) : List α :=
  if value = empty then table else insertFrom empty value table (home value) table.length

def fill (home : α → Nat) (size : Nat) (values : List α) : List α :=
  values.foldl (insert empty home) (List.replicate size empty)

variable {empty} {home : α → Nat} {table : List α} {value : α}

def Reached (empty : α) (table : List α) (value : α) (position rounds : Nat) : Prop :=
  ∃ distance < rounds, slot empty table (position + distance) = value ∧
    ∀ before ≤ distance, slot empty table (position + before) ≠ empty

theorem findFrom_iff (position rounds : Nat) :
    findFrom empty value table position rounds = true ↔ Reached empty table value position rounds := by
  induction rounds generalizing position with
  | zero => simp [findFrom, Reached]
  | succ rounds ih =>
    rw [findFrom]
    split_ifs with free found
    · constructor
      · intro nothing
        cases nothing
      · rintro ⟨distance, _, _, path⟩
        exact absurd free (path 0 (by omega))
    · refine iff_of_true rfl ⟨0, by omega, found, ?_⟩
      intro before near
      have same : before = 0 := by omega
      rwa [same]
    · rw [ih]
      constructor
      · rintro ⟨distance, bound, here, path⟩
        refine ⟨distance + 1, by omega, ?_, ?_⟩
        · rwa [Nat.add_comm distance 1, ← Nat.add_assoc]
        · intro before near
          cases before with
          | zero => exact free
          | succ before =>
            rw [Nat.add_comm before 1, ← Nat.add_assoc]
            exact path before (by omega)
      · rintro ⟨distance, bound, here, path⟩
        cases distance with
        | zero => exact absurd here found
        | succ distance =>
          refine ⟨distance, by omega, ?_, ?_⟩
          · rwa [Nat.add_assoc, Nat.add_comm 1 distance]
          · intro before near
            rw [Nat.add_assoc, Nat.add_comm 1 before]
            exact path (before + 1) (by omega)

/-- A value that is inserted takes the first free slot. -/
theorem insertFrom_eq (value : α) {position rounds : Nat}
    (free : ∃ distance < rounds, slot empty table (position + distance) = empty) :
    ∃ distance < rounds, slot empty table (position + distance) = empty ∧
      (∀ before < distance, slot empty table (position + before) ≠ empty) ∧
      insertFrom empty value table position rounds = table.set ((position + distance) % table.length) value := by
  induction rounds generalizing position with
  | zero =>
    obtain ⟨distance, bound, _⟩ := free
    omega
  | succ rounds ih =>
    rw [insertFrom]
    split_ifs with here
    · exact ⟨0, by omega, here, by omega, rfl⟩
    · have later : ∃ distance < rounds, slot empty table (position + 1 + distance) = empty := by
        obtain ⟨distance, bound, found⟩ := free
        cases distance with
        | zero => exact absurd found here
        | succ distance => exact ⟨distance, by omega, by rwa [Nat.add_assoc, Nat.add_comm 1 distance]⟩
      obtain ⟨distance, bound, found, path, result⟩ := ih later
      have shift (k : Nat) : position + (k + 1) = position + 1 + k := by omega
      refine ⟨distance + 1, by omega, by rwa [shift], ?_, by rw [result, shift distance]⟩
      intro before near
      cases before with
      | zero => exact here
      | succ before =>
        rw [shift]
        exact path before (by omega)

section

omit [DecidableEq α] in
theorem slot_set {place : Nat} (bound : place < table.length) (position : Nat) :
    slot empty (table.set place value) position =
      if position % table.length = place then value else slot empty table position := by
  unfold slot
  rw [length_set]
  split_ifs with same
  · rw [same, getD_eq_getElem?_getD, getElem?_set_self bound, Option.getD_some]
  · rw [getD_eq_getElem?_getD, getElem?_set_ne (Ne.symm same), getD_eq_getElem?_getD]

omit [DecidableEq α] in
/-- Every slot is met on the way around the table. -/
theorem exists_distance {place : Nat} (bound : place < table.length) (position : Nat) :
    ∃ distance < table.length, (position + distance) % table.length = place := by
  have start : position % table.length < table.length := Nat.mod_lt _ (by omega)
  by_cases ahead : position % table.length ≤ place
  · refine ⟨place - position % table.length, by omega, ?_⟩
    rw [Nat.add_mod, Nat.mod_eq_of_lt (by omega : place - position % table.length < table.length)]
    have whole : position % table.length + (place - position % table.length) = place := by omega
    rw [whole, Nat.mod_eq_of_lt bound]
  · refine ⟨place + table.length - position % table.length, by omega, ?_⟩
    rw [Nat.add_mod, Nat.mod_eq_of_lt (by omega : place + table.length - position % table.length < table.length)]
    have whole : position % table.length + (place + table.length - position % table.length) =
        place + table.length := by omega
    rw [whole, Nat.add_mod_right, Nat.mod_eq_of_lt bound]

theorem exists_free_slot (room : table.countP (· ≠ empty) < table.length) (position : Nat) :
    ∃ distance < table.length, slot empty table (position + distance) = empty := by
  have mem : ∃ entry ∈ table, entry = empty := by
    by_contra none
    push Not at none
    have all : table.countP (· ≠ empty) = table.length := by
      rw [countP_eq_length]
      intro entry inTable
      simpa using none entry inTable
    omega
  obtain ⟨entry, inTable, rfl⟩ := mem
  obtain ⟨place, bound, found⟩ := getElem_of_mem inTable
  obtain ⟨distance, near, same⟩ := exists_distance bound position
  refine ⟨distance, near, ?_⟩
  rw [slot, same, getD_eq_getElem?_getD, getElem?_eq_getElem bound, found, Option.getD_some]

end

/-- What is true of a table with these values: they are the entries that are not free, and a lookup
finds each of them. -/
structure Filled (empty : α) (home : α → Nat) (size : Nat) (table values : List α) : Prop where
  length : table.length = size
  taken : table.countP (· ≠ empty) = values.countP (· ≠ empty)
  count : ∀ value, value ≠ empty → table.count value = values.count value
  reached : ∀ value ∈ values, value ≠ empty → Reached empty table value (home value) size

theorem filled_nil (size : Nat) : Filled empty home size (List.replicate size empty) [] where
  length := length_replicate
  taken := by simp [countP_replicate]
  count value other := by simp [count_replicate, Ne.symm other]
  reached value mem := by cases mem

omit [DecidableEq α] in
theorem reached_set {place position rounds : Nat} {other : α} (bound : place < table.length)
    (free : table.getD place empty = empty) (path : Reached empty table other position rounds) :
    Reached empty (table.set place value) other position rounds := by
  obtain ⟨distance, near, here, before⟩ := path
  have untouched : ∀ k ≤ distance, slot empty (table.set place value)
    (position + k) = slot empty table (position + k) := by
    intro k close
    rw [slot_set bound]
    split_ifs with same
    · have taken := before k close
      rw [slot, same] at taken
      exact absurd free taken
    · rfl
  refine ⟨distance, near, by rw [untouched distance (Nat.le_refl _), here], ?_⟩
  intro k close
  rw [untouched k close]
  exact before k close

variable {size : Nat} {values : List α}

theorem filled_insert (filled : Filled empty home size table values)
    (room : (values ++ [value]).countP (· ≠ empty) ≤ size) :
    Filled empty home size (insert empty home table value) (values ++ [value]) := by
  rw [countP_append] at room
  by_cases mark : value = empty
  · rw [insert, if_pos mark]
    have none : [value].countP (· ≠ empty) = 0 := by simp [mark]
    refine ⟨filled.length, by rw [countP_append, none, filled.taken, Nat.add_zero], ?_, ?_⟩
    · intro other different
      rw [filled.count other different]
      simp [count_append, mark, Ne.symm different]
    · intro other mem different
      rcases mem_append.mp mem with old | new
      · exact filled.reached other old different
      · exact absurd ((mem_singleton.mp new).trans mark) different
  · have one : [value].countP (· ≠ empty) = 1 := by simp [mark]
    have space : table.countP (· ≠ empty) < table.length := by
      rw [filled.taken, filled.length]
      omega
    obtain ⟨distance, near, free, path, result⟩ := insertFrom_eq value (exists_free_slot space (home value))
    have bound : (home value + distance) % table.length < table.length := Nat.mod_lt _ (by omega)
    have entry : table.getD ((home value + distance) % table.length) empty = empty := free
    have stored : table[(home value + distance) % table.length] = empty := by
      rwa [getD_eq_getElem?_getD, getElem?_eq_getElem bound, Option.getD_some] at entry
    rw [insert, if_neg mark, result]
    refine ⟨by rw [length_set, filled.length], ?_, ?_, ?_⟩
    · rw [countP_set bound, countP_append, one, filled.taken]
      simp [stored, mark]
    · intro other different
      rw [count_set bound, count_append, filled.count other different, count_singleton]
      simp [stored, Ne.symm different]
    · intro other mem different
      rcases mem_append.mp mem with old | new
      · exact reached_set bound entry (filled.reached other old different)
      · rw [mem_singleton.mp new]
        refine ⟨distance, by rwa [← filled.length], ?_, ?_⟩
        · rw [slot_set bound, if_pos rfl]
        · intro before close
          rw [slot_set bound]
          split_ifs with same
          · exact mark
          · apply path before
            have apart : before ≠ distance := fun equal => same (by rw [equal])
            omega

/-- A table with room for all values is filled with them. -/
theorem filled_fill (room : values.countP (· ≠ empty) ≤ size) :
    Filled empty home size (fill empty home size values) values := by
  induction values using List.reverseRecOn with
  | nil => exact filled_nil size
  | append_singleton values value ih =>
    have before : values.countP (· ≠ empty) ≤ size := by
      rw [countP_append] at room
      omega
    rw [fill, foldl_append]
    exact filled_insert (ih before) room

theorem mem_fill_iff (home : α → Nat) (room : values.countP (· ≠ empty) ≤ size)
    (other : value ≠ empty) : value ∈ fill empty home size values ↔ value ∈ values := by
  rw [← count_pos_iff, ← count_pos_iff, (filled_fill room).count value other]

/-- A lookup finds the values of the table and no others. -/
theorem find_fill_iff (room : values.countP (· ≠ empty) ≤ size) (other : value ≠ empty) :
    findFrom empty value (fill empty home size values) (home value) size = true ↔ value ∈ values := by
  have filled : Filled empty home size (fill empty home size values) values := filled_fill room
  rw [findFrom_iff]
  constructor
  · rintro ⟨distance, near, here, path⟩
    rw [← mem_fill_iff home room other, ← here]
    have bound : (home value + distance) % (fill empty home size values).length <
      (fill empty home size values).length :=
      Nat.mod_lt _ (by rw [filled.length]; omega)
    rw [slot, getD_eq_getElem?_getD, getElem?_eq_getElem bound, Option.getD_some]
    exact getElem_mem bound
  · intro mem
    exact filled.reached value mem other

end CactusDB.Library.LinearProbing
