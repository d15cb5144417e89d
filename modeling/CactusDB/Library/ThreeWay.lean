import Mathlib.Data.List.Lex
import Mathlib.Order.Lattice

/-! Three-way comparison of sequences: the common places decide first, then the lengths. -/

namespace CactusDB.Library.ThreeWay
open List

variable {α : Type} [LinearOrder α]

def memcmp : List α → List α → Int
  | first :: left, second :: right =>
    if first < second then -1 else if second < first then 1 else memcmp left right
  | _, _ => 0

/-- Negative, zero or positive as the first sequence is less than, equal to or greater than the second one. -/
def threeWay (left right : List α) : Int :=
  if memcmp left right = 0 then (left.length : Int) - right.length else memcmp left right

theorem threeWay_cons_eq (first : α) (left right : List α) :
    threeWay (first :: left) (first :: right) = threeWay left right := by
  have places : memcmp (first :: left) (first :: right) = memcmp left right := by
    rw [memcmp, if_neg (lt_irrefl first), if_neg (lt_irrefl first)]
  unfold threeWay
  rw [places, length_cons, length_cons]
  split_ifs
  · omega
  · rfl

theorem threeWay_cases (left right : List α) : (left < right ∧ threeWay left right < 0) ∨
    (left = right ∧ threeWay left right = 0) ∨ (right < left ∧ 0 < threeWay left right) := by
  induction left generalizing right with
  | nil =>
    cases right with
    | nil => exact .inr (.inl ⟨rfl, rfl⟩)
    | cons second right => exact .inl ⟨nil_lt_cons second right, by
        simp only [threeWay, memcmp, if_true, length_nil, length_cons]; omega⟩
  | cons first left ih =>
    cases right with
    | nil => exact .inr (.inr ⟨nil_lt_cons first left, by
        simp only [threeWay, memcmp, if_true, length_nil, length_cons]; omega⟩)
    | cons second right =>
      rcases lt_trichotomy first second with less | rfl | greater
      · exact .inl ⟨cons_lt_cons_iff.mpr (.inl less), by simp [threeWay, memcmp, less]⟩
      · rw [threeWay_cons_eq]
        simpa [cons_lt_cons_iff] using ih right
      · exact .inr (.inr ⟨cons_lt_cons_iff.mpr (.inl greater), by
          simp [threeWay, memcmp, greater, not_lt_of_gt greater]⟩)

theorem threeWay_neg_iff (left right : List α) : threeWay left right < 0 ↔ left < right := by
  rcases threeWay_cases left right with decided | decided | decided
  all_goals grind

theorem threeWay_zero_iff (left right : List α) : threeWay left right = 0 ↔ left = right := by
  rcases threeWay_cases left right with decided | decided | decided
  all_goals grind

end CactusDB.Library.ThreeWay
