import Mathlib.Data.List.Nodup
import Mathlib.Tactic.Tauto

/-! Dictionaries that remember the order in which their keys came in. A key keeps its place when its
value changes. -/

namespace CactusDB.Library.OrderedDict
open List

structure Dict (κ ν : Type) where
  entries : List (κ × ν)
  distinct : (entries.map Prod.fst).Nodup

namespace Dict

variable {κ ν : Type}

def empty : Dict κ ν := ⟨[], nodup_nil⟩

def keys (dict : Dict κ ν) : List κ := dict.entries.map Prod.fst

def length (dict : Dict κ ν) : Nat := dict.entries.length

theorem length_eq (dict : Dict κ ν) : dict.length = dict.keys.length := by
  simp [length, keys]

variable {dict : Dict κ ν} {key : κ} {value : ν}

theorem value_unique {first second : ν} (one : (key, first) ∈ dict.entries)
    (two : (key, second) ∈ dict.entries) : first = second := by
  have same := inj_on_of_nodup_map dict.distinct one two rfl
  exact congrArg Prod.snd same

theorem mem_keys_iff : key ∈ dict.keys ↔ ∃ value, (key, value) ∈ dict.entries := by
  unfold keys
  simp

variable [DecidableEq κ]

def get? (dict : Dict κ ν) (key : κ) : Option ν :=
  (dict.entries.find? (·.1 = key)).map Prod.snd

def replaceEntry (key : κ) (value : ν) (entry : κ × ν) : κ × ν :=
  if entry.1 = key then (key, value) else entry

theorem map_fst_replaceEntry (key : κ) (value : ν) (entries : List (κ × ν)) :
    (entries.map (replaceEntry key value)).map Prod.fst = entries.map Prod.fst := by
  rw [map_map]
  apply map_congr_left
  intro entry _
  by_cases same : entry.1 = key <;> simp [replaceEntry, same]

def set (dict : Dict κ ν) (key : κ) (value : ν) : Dict κ ν :=
  if present : key ∈ dict.keys then
    ⟨dict.entries.map (replaceEntry key value), by rw [map_fst_replaceEntry]; exact dict.distinct⟩
  else
    ⟨dict.entries ++ [(key, value)], by
      rw [map_append]
      exact dict.distinct.append (nodup_singleton key) (by simpa [keys] using present)⟩

theorem mem_set {entry : κ × ν} : entry ∈ (dict.set key value).entries ↔
      entry = (key, value) ∨ entry.1 ≠ key ∧ entry ∈ dict.entries := by
  unfold set
  by_cases present : key ∈ dict.keys
  · rw [dif_pos present]
    obtain ⟨old, mem, same⟩ := mem_map.mp present
    constructor
    · intro found
      obtain ⟨before, inEntries, shape⟩ := mem_map.mp found
      by_cases equal : before.1 = key
      · exact .inl (by simpa [replaceEntry, equal] using shape.symm)
      · have unchanged : before = entry := by simpa [replaceEntry, equal] using shape
        exact .inr ⟨unchanged ▸ equal, unchanged ▸ inEntries⟩
    · intro found
      cases found with
      | inl new => exact mem_map.mpr ⟨old, mem, by simp [replaceEntry, same, new]⟩
      | inr kept => exact mem_map.mpr ⟨entry, kept.2, by simp [replaceEntry, kept.1]⟩
  · rw [dif_neg present]
    have absent : entry ∈ dict.entries → entry.1 ≠ key := by
      intro mem same
      exact present (same ▸ mem_map_of_mem mem)
    simp only [mem_append, mem_singleton]
    constructor
    · intro found
      exact found.elim (fun old => .inr ⟨absent old, old⟩) .inl
    · intro found
      exact found.elim .inr fun kept => .inl kept.2

theorem mem_keys_set {other : κ} : other ∈ (dict.set key value).keys ↔ other = key ∨ other ∈ dict.keys := by
  unfold set keys
  by_cases present : key ∈ dict.entries.map Prod.fst
  · simp only [present, dif_pos, map_fst_replaceEntry]
    exact ⟨.inr, fun found => found.elim (fun same => same ▸ present) id⟩
  · simp only [present, dif_neg, not_false_iff, map_append, mem_append, map_singleton,
      mem_singleton]
    exact or_comm

theorem keys_set_of_mem (present : key ∈ dict.keys) (value : ν) : (dict.set key value).keys = dict.keys := by
  unfold set
  rw [dif_pos present]
  exact map_fst_replaceEntry key value dict.entries

/-- The keys after a loop of assignments are the old ones and those assigned. -/
theorem mem_keys_foldl_set (keys : List κ) (dict : Dict κ ν) (value : ν) (other : κ) :
    other ∈ (keys.foldl (fun dict key => dict.set key value) dict).keys ↔ other ∈ dict.keys ∨ other ∈ keys := by
  induction keys generalizing dict with
  | nil => simp
  | cons key rest ih =>
    rw [foldl_cons, ih, mem_keys_set, mem_cons]
    tauto

theorem forall_set (holds : ν → Prop) (each : ∀ entry ∈ dict.entries, holds entry.2) (key : κ) (new : holds value) :
    ∀ entry ∈ (dict.set key value).entries, holds entry.2 := by
  intro entry mem
  cases mem_set.mp mem with
  | inl same => rwa [same]
  | inr old => exact each entry old.2

theorem forall_foldl_set (holds : ν → Prop) (keys : List κ)
    (each : ∀ entry ∈ dict.entries, holds entry.2) (new : holds value) :
    ∀ entry ∈ (keys.foldl (fun dict key => dict.set key value) dict).entries, holds entry.2 := by
  induction keys generalizing dict with
  | nil => exact each
  | cons key rest ih => exact ih (forall_set holds each key new)

theorem get?_eq_some : dict.get? key = some value ↔ (key, value) ∈ dict.entries := by
  unfold get?
  rw [Option.map_eq_some_iff]
  constructor
  · intro found
    obtain ⟨entry, first, same⟩ := found
    have mem := mem_of_find?_eq_some first
    have matched : entry.1 = key := by simpa using find?_some first
    rwa [← matched, ← same]
  · intro mem
    cases first : dict.entries.find? (·.1 = key) with
    | none =>
      have differs := find?_eq_none.mp first _ mem
      simp at differs
    | some entry =>
      have matched : entry.1 = key := by simpa using find?_some first
      have inEntries : (key, entry.2) ∈ dict.entries := matched ▸ mem_of_find?_eq_some first
      exact ⟨entry, rfl, value_unique inEntries mem⟩

end Dict

end CactusDB.Library.OrderedDict
