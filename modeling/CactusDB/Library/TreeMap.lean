import Mathlib.Algebra.BigOperators.Group.List.Basic
import Mathlib.Algebra.Order.Ring.Nat
import Mathlib.Data.List.Sort

/-! Key-ordered traversal of tree maps over a lawful order: which list a traversal visits, and
how a sum over the visited entries changes when an entry is inserted. -/

namespace CactusDB.Library.TreeMap
open Std List ExtTreeMap

variable {κ ν : Type*} {cmp : κ → κ → Ordering} [TransCmp cmp] [LawfulEqCmp cmp] (map : ExtTreeMap κ ν cmp)

theorem nodup_toList : map.toList.Nodup := by
  refine (distinct_keys_toList (t := map)).imp ?_
  intro first second different same
  exact different (same ▸ ReflCmp.compare_self)

/-- A list that is sorted by key and holds the entries of the map is what a traversal visits. -/
theorem toList_eq_of_sorted (entries : List (κ × ν))
    (sorted : entries.Pairwise fun first second => cmp first.1 second.1 = .lt)
    (same : ∀ entry, entry ∈ entries ↔ map[entry.1]? = some entry.2) :
    map.toList = entries := by
  have nodup : entries.Nodup := by
    refine sorted.imp fun {first second} less equal => ?_
    have reflexive : cmp second.1 second.1 = .eq := ReflCmp.compare_self
    rw [equal, reflexive] at less
    exact Ordering.noConfusion less
  have perm : map.toList.Perm entries := by
    refine (perm_ext_iff_of_nodup (nodup_toList map) nodup).mpr fun entry => ?_
    rw [same entry]
    exact mem_toList_iff_getElem?_eq_some
  have antisymmetric : ∀ first second : κ × ν, first ∈ map.toList → second ∈ entries →
      cmp first.1 second.1 = .lt → cmp second.1 first.1 = .lt → first = second :=
    fun _ _ _ _ less greater => absurd greater (OrientedCmp.not_lt_of_lt less)
  exact perm.eq_of_pairwise antisymmetric ordered_keys_toList sorted

theorem toList_insert_perm [DecidableEq κ] (key : κ) (value : ν) :
    (map.insert key value).toList.Perm
      ((key, value) :: map.toList.filter fun entry => entry.1 ≠ key) := by
  have fresh : (key, value) ∉ map.toList.filter fun entry => entry.1 ≠ key := by simp
  refine (perm_ext_iff_of_nodup (nodup_toList _)
    (nodup_cons.mpr ⟨fresh, (nodup_toList map).filter _⟩)).mpr ?_
  rintro ⟨other, stored⟩
  simp only [ExtTreeMap.mem_toList_iff_getElem?_eq_some, ExtTreeMap.getElem?_insert,
    LawfulEqCmp.compare_eq_iff_eq, List.mem_cons, List.mem_filter, Prod.mk.injEq]
  by_cases equal : key = other
  · subst equal
    simp [eq_comm]
  · simp [equal, Ne.symm equal]

def total (measure : ν → Nat) (map : ExtTreeMap κ ν cmp) : Nat :=
  (map.toList.map fun entry => measure entry.2).sum

variable (measure : ν → Nat)

omit [LawfulEqCmp cmp] in
theorem total_empty : total measure (∅ : ExtTreeMap κ ν cmp) = 0 := by
  simp [total, toList_eq_nil_iff.mpr rfl]

/-- What an insertion replaces leaves the sum, and what it stores enters the sum. -/
theorem total_insert [DecidableEq κ] (map : ExtTreeMap κ ν cmp) (key : κ) (value : ν) :
    total measure (map.insert key value) + (map[key]?.map measure).getD 0 =
      total measure map + measure value := by
  let rest := (map.toList.filter fun entry => entry.1 ≠ key).map fun entry => measure entry.2
  have inserted : ∀ stored, total measure (map.insert key stored) = measure stored + rest.sum := by
    intro stored
    rw [total, ((toList_insert_perm map key stored).map _).sum_eq, map_cons, sum_cons]
  cases found : map[key]? with
  | none =>
    have absent : ∀ entry ∈ map.toList, decide (entry.1 ≠ key) = true := by
      rintro ⟨other, stored⟩ mem
      rw [mem_toList_iff_getElem?_eq_some] at mem
      have different : other ≠ key := fun equal => by simp [equal, found] at mem
      simpa using different
    have whole : total measure map = rest.sum := by
      simp only [rest, total, filter_eq_self.mpr absent]
    simp only [inserted, whole, Option.map_none, Option.getD_none]
    omega
  | some old =>
    have unchanged : map.insert key old = map := by
      refine ExtTreeMap.ext_getElem? fun other => ?_
      rw [ExtTreeMap.getElem?_insert]
      split
      · next equal => rw [← found, LawfulEqCmp.compare_eq_iff_eq.mp equal]
      · rfl
    have whole : total measure map = measure old + rest.sum := by rw [← inserted old, unchanged]
    simp only [inserted, whole, Option.map_some, Option.getD_some]
    omega

end CactusDB.Library.TreeMap
