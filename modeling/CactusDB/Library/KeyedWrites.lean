import CactusDB.Library.Fallible
import Mathlib.Data.List.Nodup

/-! Writes to places of a memory, one after another. Each place sees the writes that name it, in their
order. -/

namespace CactusDB.Library.KeyedWrites
open List

variable {κ ν ι ε γ : Type} [DecidableEq κ]

def amend (key : ι → κ) (change : ι → ν → ν) (memory : κ → ν) (writes : List ι) : κ → ν :=
  writes.foldl (fun memory write => Function.update memory (key write) (change write (memory (key write)))) memory

variable {key : ι → κ} {change : ι → ν → ν}

theorem amend_apply (memory : κ → ν) (writes : List ι) (place : κ) :
    amend key change memory writes place =
      (writes.filter fun write => key write = place).foldl (fun value write => change write value) (memory place) := by
  induction writes generalizing memory with
  | nil => rfl
  | cons write rest ih =>
    have unfolded : amend key change memory (write :: rest) =
        amend key change (Function.update memory (key write) (change write (memory (key write)))) rest := rfl
    rw [unfolded, ih]
    by_cases own : key write = place
    · subst own
      simp
    · rw [Function.update_of_ne (Ne.symm own), filter_cons_of_neg (by simpa using own)]

theorem foldlM_amend {writes : List ι} (step : (κ → ν) → ι → Except ε (κ → ν)) (each : ∀ write ∈ writes, ∀ memory,
      step memory write = .ok (Function.update memory (key write) (change write (memory (key write)))))
    (memory : κ → ν) : writes.foldlM step memory = .ok (amend key change memory writes) := by
  induction writes generalizing memory with
  | nil => rfl
  | cons write rest ih =>
    rw [foldlM_cons, each write mem_cons_self]
    exact ih (fun other mem => each other (mem_cons_of_mem write mem)) _

theorem amend_append (memory : κ → ν) (first second : List ι) :
    amend key change memory (first ++ second) = amend key change (amend key change memory first) second := by
  rw [amend, foldl_append]
  rfl

/-- Items that carry the key of the owner they come from: those with one key come from one owner. -/
theorem filter_flatMap_key {owners : List γ} {ownerKey : γ → κ} {items : γ → List ι}
    (distinct : (owners.map ownerKey).Nodup) (own : ∀ owner ∈ owners, ∀ item ∈ items owner, key item = ownerKey owner)
    {owner : γ} (mem : owner ∈ owners) :
    ((owners.flatMap items).filter fun item => key item = ownerKey owner) = items owner := by
  induction owners with
  | nil => cases mem
  | cons first rest ih =>
    have inRest : ∀ other ∈ rest, ∀ item ∈ items other, key item = ownerKey other :=
      fun other behind => own other (mem_cons_of_mem first behind)
    rw [map_cons, nodup_cons] at distinct
    rw [flatMap_cons, filter_append]
    cases mem with
    | head =>
      have all : (items owner).filter (fun item => key item = ownerKey owner) = items owner := by
        apply filter_eq_self.mpr
        intro item here
        simpa using own owner mem_cons_self item here
      have none : (rest.flatMap items).filter (fun item => key item = ownerKey owner) = [] := by
        apply filter_eq_nil_iff.mpr
        intro item here
        obtain ⟨other, behind, inside⟩ := mem_flatMap.mp here
        have itemKey := inRest other behind item inside
        simp only [decide_eq_true_eq]
        intro same
        exact distinct.1 (mem_map.mpr ⟨other, behind, itemKey.symm.trans same⟩)
      rw [all, none, append_nil]
    | tail _ behind =>
      have none : (items first).filter (fun item => key item = ownerKey owner) = [] := by
        apply filter_eq_nil_iff.mpr
        intro item here
        have itemKey := own first mem_cons_self item here
        simp only [decide_eq_true_eq]
        intro same
        exact distinct.1 (mem_map.mpr ⟨owner, behind, same.symm.trans itemKey⟩)
      rw [none, nil_append, ih distinct.2 inRest behind]

end CactusDB.Library.KeyedWrites
