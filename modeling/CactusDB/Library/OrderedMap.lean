import CactusDB.Library.OrderedDict
import Mathlib.Data.List.Pairwise
import Mathlib.Data.List.Perm.Basic
import Mathlib.Order.Lattice

/-! Maps whose entries stand in the order of their keys. -/

namespace CactusDB.Library
open List

structure OrderedMap (κ ν : Type) [LinearOrder κ] where
  entries : List (κ × ν)
  ordered : entries.Pairwise fun first second => first.1 < second.1

namespace OrderedMap
open OrderedDict.Dict (value_unique get?_eq_some)

variable {κ ν : Type} [LinearOrder κ]

def empty : OrderedMap κ ν := ⟨[], .nil⟩

section

variable (map : OrderedMap κ ν) (key : κ)

def find? : Option ν :=
  (map.entries.find? fun entry => entry.1 = key).map Prod.snd

def erase : OrderedMap κ ν :=
  ⟨map.entries.filter fun entry => entry.1 ≠ key, map.ordered.filter _⟩

theorem ordered_around (value : ν) :
    (map.entries.filter (fun entry => entry.1 < key) ++
      (key, value) :: map.entries.filter fun entry => key < entry.1).Pairwise
        fun first second => first.1 < second.1 := by
  rw [pairwise_append, pairwise_cons]
  refine ⟨map.ordered.filter _, ⟨?_, map.ordered.filter _⟩, ?_⟩
  · intro entry mem
    simpa using (mem_filter.mp mem).2
  · intro first early second mem
    have low : first.1 < key := by simpa using (mem_filter.mp early).2
    rcases mem_cons.mp mem with rfl | late
    · exact low
    · have high : key < second.1 := by simpa using (mem_filter.mp late).2
      exact low.trans high

def set (value : ν) : OrderedMap κ ν :=
  ⟨_, map.ordered_around key value⟩

def emplace (value : ν) : OrderedMap κ ν :=
  if (map.find? key).isSome then map else map.set key value

def lowerBound : Option (κ × ν) := map.entries.find? fun entry => key ≤ entry.1

def prev : Option (κ × ν) := map.entries.reverse.find? fun entry => entry.1 < key

def next : Option (κ × ν) := map.entries.find? fun entry => key < entry.1

end

section

variable {map : OrderedMap κ ν} {key other : κ} {value stored : ν}

theorem distinct (map : OrderedMap κ ν) : (map.entries.map Prod.fst).Nodup :=
  pairwise_map.mpr (map.ordered.imp ne_of_lt)

theorem unique (first : (key, value) ∈ map.entries) (second : (key, stored) ∈ map.entries) : value = stored :=
  @value_unique _ _ ⟨map.entries, map.distinct⟩ _ _ _ first second

theorem find?_eq_some : map.find? key = some value ↔ (key, value) ∈ map.entries :=
  @get?_eq_some _ _ ⟨map.entries, map.distinct⟩ _ _ _

theorem find?_eq_none : map.find? key = none ↔ ∀ value, (key, value) ∉ map.entries := by
  constructor
  · intro missing value mem
    rw [find?_eq_some.mpr mem] at missing
    cases missing
  · intro missing
    cases found : map.find? key with
    | none => rfl
    | some value => exact absurd (find?_eq_some.mp found) (missing value)

@[simp] theorem mem_erase : (other, stored) ∈ (map.erase key).entries ↔ other ≠ key ∧
    (other, stored) ∈ map.entries := by
  simp [erase, and_comm]

@[simp] theorem mem_set : (other, stored) ∈ (map.set key value).entries ↔
    other = key ∧ stored = value ∨ other ≠ key ∧ (other, stored) ∈ map.entries := by
  simp only [set, mem_append, mem_filter, mem_cons, Prod.mk.injEq, decide_eq_true_eq, ne_iff_lt_or_gt]
  tauto

section

variable (map : OrderedMap κ ν)

theorem find?_set (key : κ) (value : ν) (other : κ) :
    (map.set key value).find? other = if other = key then some value else map.find? other := by
  ext stored
  rw [find?_eq_some, mem_set]
  split_ifs with same
  · simp [same, eq_comm]
  · simp [same, find?_eq_some]

theorem find?_erase (key other : κ) :
    (map.erase key).find? other = if other = key then none else map.find? other := by
  ext stored
  rw [find?_eq_some, mem_erase]
  split_ifs with same
  · simp [same]
  · simp [same, find?_eq_some]

theorem nodup : map.entries.Nodup := map.distinct.of_map

theorem nodup_cons_erase (key : κ) (value : ν) :
    ((key, value) :: (map.erase key).entries).Nodup :=
  nodup_cons.mpr ⟨fun present => (mem_erase.mp present).1 rfl, nodup _⟩

end

/-- The entry of a key stands before all others, up to order. -/
theorem perm_erase (mem : (key, value) ∈ map.entries) :
    map.entries.Perm ((key, value) :: (map.erase key).entries) := by
  refine (perm_ext_iff_of_nodup map.nodup (map.nodup_cons_erase key value)).mpr ?_
  intro entry
  obtain ⟨other, stored⟩ := entry
  rw [mem_cons, mem_erase, Prod.mk.injEq]
  by_cases same : other = key
  · subst same
    simp only [true_and, ne_eq, not_true_eq_false, false_and, or_false]
    exact ⟨fun present => unique present mem, fun equal => equal ▸ mem⟩
  · simp [same]

theorem erase_of_absent (absent : ∀ value, (key, value) ∉ map.entries) : (map.erase key).entries = map.entries := by
  refine filter_eq_self.mpr fun entry mem => ?_
  have different : entry.1 ≠ key := fun same => absent entry.2 (same ▸ mem)
  simpa using different

/-- A written entry stands before those of the other keys, up to order. -/
theorem perm_set (map : OrderedMap κ ν) (key : κ) (value : ν) :
    (map.set key value).entries.Perm ((key, value) :: (map.erase key).entries) := by
  refine (perm_ext_iff_of_nodup (nodup _) (map.nodup_cons_erase key value)).mpr ?_
  intro entry
  obtain ⟨other, stored⟩ := entry
  rw [mem_set, mem_cons, mem_erase, Prod.mk.injEq]

theorem perm_erase_set (absent : ∀ value, (key, value) ∉ map.entries) :
    ((map.set key value).erase key).entries.Perm map.entries := by
  have written : (key, value) ∈ (map.set key value).entries := mem_set.mpr (.inl ⟨rfl, rfl⟩)
  have whole := (perm_erase written).symm.trans (perm_set map key value)
  exact erase_of_absent absent ▸ whole.cons_inv

end

variable {map : OrderedMap κ ν} {key : κ} {entry : κ × ν}

/-- The first element of an ordered list with a property is the least one with it. -/
theorem least_of_find? {α : Type} {less : α → α → Prop} {list : List α} (ordered : list.Pairwise less)
    {test : α → Bool} {found : α} (first : list.find? test = some found) :
    found ∈ list ∧ test found = true ∧ ∀ other ∈ list, test other = true → other = found ∨ less found other := by
  obtain ⟨passes, front, rest, rfl, early⟩ := find?_eq_some_iff_append.mp first
  refine ⟨mem_append_right _ (mem_cons_self ..), passes, ?_⟩
  intro other mem passed
  rcases mem_append.mp mem with before | behind
  · exact absurd passed (by simpa using early other before)
  · rcases mem_cons.mp behind with same | later
    · exact .inl same
    · exact .inr ((pairwise_cons.mp (pairwise_append.mp ordered).2.1).1 other later)

theorem least_key {test : κ × ν → Bool} (found : map.entries.find? test = some entry) :
    entry ∈ map.entries ∧ test entry = true ∧ ∀ other ∈ map.entries, test other = true → entry.1 ≤ other.1 := by
  obtain ⟨mem, passes, least⟩ := least_of_find? map.ordered found
  refine ⟨mem, passes, fun other present passed => ?_⟩
  rcases least other present passed with same | less
  · exact le_of_eq (congrArg Prod.fst same).symm
  · exact le_of_lt less

theorem lowerBound_eq_some (found : map.lowerBound key = some entry) :
    entry ∈ map.entries ∧ key ≤ entry.1 ∧ ∀ other ∈ map.entries, key ≤ other.1 → entry.1 ≤ other.1 := by
  simpa using least_key found

theorem lowerBound_eq_none (missing : map.lowerBound key = none) : ∀ other ∈ map.entries, other.1 < key := by
  intro other present
  simpa using List.find?_eq_none.mp missing other present

theorem next_eq_some (found : map.next key = some entry) :
    entry ∈ map.entries ∧ key < entry.1 ∧ ∀ other ∈ map.entries, key < other.1 → entry.1 ≤ other.1 := by
  simpa using least_key found

theorem next_eq_none (missing : map.next key = none) : ∀ other ∈ map.entries, other.1 ≤ key := by
  intro other present
  simpa using List.find?_eq_none.mp missing other present

theorem prev_eq_some (found : map.prev key = some entry) :
    entry ∈ map.entries ∧ entry.1 < key ∧ ∀ other ∈ map.entries, other.1 < key → other.1 ≤ entry.1 := by
  have reversed : map.entries.reverse.Pairwise fun first second => second.1 < first.1 :=
    pairwise_reverse.mpr map.ordered
  obtain ⟨mem, passes, greatest⟩ := least_of_find? reversed found
  refine ⟨mem_reverse.mp mem, by simpa using passes, ?_⟩
  intro other present low
  rcases greatest other (mem_reverse.mpr present) (by simpa using low) with same | less
  · exact le_of_eq (congrArg Prod.fst same)
  · exact le_of_lt less

theorem prev_eq_none (missing : map.prev key = none) : ∀ other ∈ map.entries, key ≤ other.1 := by
  intro other present
  simpa using List.find?_eq_none.mp missing other (List.mem_reverse.mpr present)

end OrderedMap

end CactusDB.Library
