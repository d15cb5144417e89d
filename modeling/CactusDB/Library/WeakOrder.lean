import Mathlib.Data.List.Pairwise
import Mathlib.Data.List.Perm.Basic
import Mathlib.Order.Lattice

/-! Strict weak orders given by a comparison, and merging of lists that are in order. -/

namespace CactusDB.Library.WeakOrder
open List

variable {α : Type} {less : α → α → Bool}

section

variable [order : IsStrictWeakOrder α fun one other => less one other = true]

theorem less_irrefl (value : α) : less value value = false := by
  have irreflexive := irrefl_of (fun one other => less one other = true) value
  simpa using irreflexive

theorem less_asymm {one other : α} (lower : less one other = true) : less other one = false := by
  have asymmetric := asymm_of (fun one other => less one other = true) lower
  simpa using asymmetric

/-- What is not below something that is not below a value is not below the value. -/
theorem notLess_trans {one middle other : α} (first : less one middle = false) (second : less middle other = false) :
    less one other = false := by
  by_contra lower
  rw [Bool.not_eq_false] at lower
  have trans {a b c : α} : less a b = true → less b c = true → less a c = true :=
    trans_of (fun one other => less one other = true)
  have middleAbove : less middle one = false := by
    by_contra below
    rw [trans (by simpa using below) lower] at second
    cases second
  have otherAbove : less other middle = false := by
    by_contra below
    rw [trans lower (by simpa using below)] at first
    cases first
  have incomparable := order.incomp_trans one middle other (by simp [first, middleAbove]) (by simp [second, otherAbove])
  exact incomparable.1 lower

end

def mergeFrom (before : α → α → Bool) (item : α) (left : List α) (next : List α → List α) : List α → List α
  | [] => item :: left
  | other :: right =>
    if before item other then item :: next (other :: right) else other :: mergeFrom before item left next right

def mergeBy (before : α → α → Bool) : List α → List α → List α
  | [] => id
  | item :: left => mergeFrom before item left (mergeBy before left)

theorem mergeBy_eq (before : α → α → Bool) (left right : List α) :
    mergeBy before left right = List.merge left right before := by
  induction left generalizing right with
  | nil => exact (nil_merge right).symm
  | cons item left hypLeft =>
    induction right with
    | nil => exact (merge_right _).symm
    | cons other right hypRight =>
      rw [cons_merge_cons, ← hypLeft, ← hypRight]
      rfl

def Ordered (less : α → α → Bool) (items : List α) : Prop := items.Pairwise fun one other => less other one = false

theorem ordered_of_length_le {items : List α} (short : items.length ≤ 1) : Ordered less items := by
  match items, short with
  | [], _ => exact .nil
  | [item], _ => exact pairwise_singleton ..

variable [IsStrictWeakOrder α fun one other => less one other = true] {first second : List α}

/-- A list is merged with another one by a test that never puts an item in front of a lower one. -/
theorem ordered_merge {before : α → α → Bool} (yes : ∀ {one other}, before one other = true → less other one = false)
    (no : ∀ {one other}, before one other = false → less one other = false)
    (firstOrdered : Ordered less first) (secondOrdered : Ordered less second) :
    Ordered less (List.merge first second before) := by
  induction first generalizing second with
  | nil => simpa using secondOrdered
  | cons x first hypFirst =>
    induction second with
    | nil => simpa using firstOrdered
    | cons y second hypSecond =>
      obtain ⟨aboveX, firstRest⟩ := pairwise_cons.mp firstOrdered
      obtain ⟨aboveY, secondRest⟩ := pairwise_cons.mp secondOrdered
      rw [cons_merge_cons]
      split_ifs with taken
      · refine pairwise_cons.mpr ⟨fun item mem => ?_, hypFirst firstRest secondOrdered⟩
        rcases mem_append.mp ((merge_perm_append ..).mem_iff.mp mem) with left | right
        · exact aboveX item left
        · rcases mem_cons.mp right with rfl | later
          · exact yes taken
          · exact notLess_trans (aboveY item later) (yes taken)
      · have other := no (Bool.eq_false_iff.mpr taken)
        refine pairwise_cons.mpr ⟨fun item mem => ?_, hypSecond secondRest⟩
        rcases mem_append.mp ((merge_perm_append ..).mem_iff.mp mem) with left | right
        · rcases mem_cons.mp left with rfl | later
          · exact other
          · exact notLess_trans (aboveX item later) other
        · exact aboveY item right

variable (firstOrdered : Ordered less first) (secondOrdered : Ordered less second)
include firstOrdered secondOrdered

/-- The second list goes first among items of the same rank. -/
theorem ordered_merge_less : Ordered less (List.merge first second less) :=
  ordered_merge less_asymm id firstOrdered secondOrdered

/-- The first list goes first among items of the same rank. -/
theorem ordered_merge_stable :
    Ordered less (List.merge first second fun one other => !less other one) := by
  refine ordered_merge (fun taken => by simpa using taken) (fun refused => ?_) firstOrdered secondOrdered
  exact less_asymm (by simpa using refused)

end CactusDB.Library.WeakOrder
