import Mathlib.Algebra.BigOperators.Ring.List
import Mathlib.Algebra.Order.Ring.Nat
import Mathlib.Data.List.GetD

/-! Levels of items where an item of the next level counts twice as much, laid out one after the other. -/

namespace CactusDB.Library.Levels
open List

variable {α : Type}

def weight : List (List α) → Nat
  | [] => 0
  | level :: rest => level.length + 2 * weight rest

@[simp] theorem weight_singleton (level : List α) : weight [level] = level.length := by
  simp [weight]

theorem weight_append (lower upper : List (List α)) :
    weight (lower ++ upper) = weight lower + 2 ^ lower.length * weight upper := by
  induction lower with
  | nil => simp [weight]
  | cons level rest ih =>
    rw [cons_append, weight, ih, weight, length_cons, Nat.pow_succ']
    rw [Nat.mul_assoc]
    omega

/-- Two neighbouring levels are replaced by two of the same weight. -/
theorem weight_exchange {lower upper : List (List α)} {first second newFirst newSecond : List α}
    (same : newFirst.length + 2 * newSecond.length = first.length + 2 * second.length) :
    weight (lower ++ newFirst :: newSecond :: upper) = weight (lower ++ first :: second :: upper) := by
  rw [weight_append, weight_append]
  simp only [weight]
  congr 2
  omega

theorem pow_le_weight {lower : List (List α)} {top : List α} (filled : top ≠ []) :
    2 ^ lower.length ≤ weight (lower ++ [top]) := by
  have positive : 1 ≤ weight [top] := by
    rw [weight_singleton]
    exact length_pos_iff.mpr filled
  rw [weight_append]
  exact Nat.le_trans (Nat.le_mul_of_pos_right _ positive) (Nat.le_add_left ..)

theorem weight_eq_sum (levels : List (List α)) :
    weight levels = ((List.range levels.length).map fun index => 2 ^ index * (levels.getD index []).length).sum := by
  induction levels with
  | nil => rfl
  | cons level rest ih =>
    have later : ((List.range rest.length).map fun index => 2 ^ (index + 1) * (rest.getD index []).length).sum =
        2 * ((List.range rest.length).map fun index => 2 ^ index * (rest.getD index []).length).sum := by
      rw [← sum_map_mul_left]
      refine congrArg List.sum (map_congr_left fun index _ => ?_)
      rw [Nat.pow_succ', Nat.mul_assoc]
    rw [weight, ih, ← later, length_cons, range_succ_eq_map, map_cons, map_map, sum_cons,
      getD_cons_zero, Nat.pow_zero, Nat.one_mul]
    rfl

theorem weight_eq_zero {levels : List (List α)} (none : levels.flatten.length = 0) : weight levels = 0 := by
  induction levels with
  | nil => rfl
  | cons level rest ih =>
    rw [flatten_cons, length_append] at none
    rw [weight, ih (by omega)]
    omega

section

variable {one other : List (List α)}

theorem weight_congr (same : one.map List.length = other.map List.length) : weight one = weight other := by
  induction one generalizing other with
  | nil =>
    cases other with
    | nil => rfl
    | cons level rest => cases same
  | cons level rest ih =>
    cases other with
    | nil => cases same
    | cons level' rest' =>
      obtain ⟨first, later⟩ := List.cons.inj same
      rw [weight, weight, first, ih later]

def pileUp : List (List α) → List (List α) → List (List α)
  | [], upper => upper
  | level :: rest, [] => level :: rest
  | level :: rest, level' :: rest' => (level ++ level') :: pileUp rest rest'

variable (one other : List (List α))

theorem weight_pileUp : weight (pileUp one other) = weight one + weight other := by
  fun_induction pileUp one other with
  | case1 | case2 => simp [weight]
  | case3 level rest level' rest' ih =>
    simp only [weight, ih, length_append]
    omega

theorem length_pileUp : (pileUp one other).length = max one.length other.length := by
  fun_induction pileUp one other with
  | case1 | case2 => simp
  | case3 level rest level' rest' ih =>
    simp only [length_cons, ih]
    omega

theorem getD_pileUp (index : Nat) : (pileUp one other).getD index [] = one.getD index [] ++ other.getD index [] := by
  fun_induction pileUp one other generalizing index with
  | case1 | case2 => simp
  | case3 level rest level' rest' ih =>
    cases index with
    | zero => rfl
    | succ index => simpa only [getD_cons_succ] using ih index

variable (first : List (List α)) (others : List (List (List α)))

theorem weight_foldl_pileUp : weight (others.foldl pileUp first) = weight first + (others.map weight).sum := by
  induction others generalizing first with
  | nil => rfl
  | cons other rest ih => rw [foldl_cons, ih, weight_pileUp, map_cons, sum_cons, Nat.add_assoc]

theorem length_flatten_pileUp : (pileUp one other).flatten.length = one.flatten.length + other.flatten.length := by
  fun_induction pileUp one other with
  | case1 | case2 => simp
  | case3 level rest level' rest' ih =>
    rw [flatten_cons, length_append, ih, flatten_cons, flatten_cons]
    simp only [length_append]
    omega

theorem length_flatten_foldl_pileUp :
    (others.foldl pileUp first).flatten.length = first.flatten.length + (others.map (·.flatten.length)).sum := by
  induction others generalizing first with
  | nil => rfl
  | cons other rest ih => rw [foldl_cons, ih, length_flatten_pileUp, map_cons, sum_cons, Nat.add_assoc]

theorem getD_foldl_pileUp (index : Nat) :
    (others.foldl pileUp first).getD index [] = first.getD index [] ++ (others.map (·.getD index [])).flatten := by
  induction others generalizing first with
  | nil => exact (append_nil _).symm
  | cons other rest ih =>
    rw [foldl_cons, ih, getD_pileUp, map_cons, flatten_cons, append_assoc]

theorem length_foldl_pileUp :
    (others.foldl pileUp first).length = others.foldl (fun most other => max most other.length) first.length := by
  induction others generalizing first with
  | nil => rfl
  | cons other rest ih => rw [foldl_cons, ih, length_pileUp, foldl_cons]

theorem length_le_foldl_pileUp : first.length ≤ (others.foldl pileUp first).length := by
  induction others generalizing first with
  | nil => exact Nat.le_refl _
  | cons other rest ih =>
    have wider : first.length ≤ (pileUp first other).length := by
      rw [length_pileUp]
      exact Nat.le_max_left ..
    exact Nat.le_trans wider (ih _)

/-- The highest of the towers is as high as all together. -/
theorem exists_length_foldl_pileUp : ∃ one ∈ first :: others, (others.foldl pileUp first).length = one.length := by
  induction others generalizing first with
  | nil => exact ⟨first, mem_cons_self, rfl⟩
  | cons other rest ih =>
    obtain ⟨one, mem, height⟩ := ih (pileUp first other)
    rw [foldl_cons, height]
    rcases mem_cons.mp mem with rfl | later
    · rw [length_pileUp]
      rcases Nat.le_total first.length other.length with order | order
      · exact ⟨other, by simp, Nat.max_eq_right order⟩
      · exact ⟨first, by simp, Nat.max_eq_left order⟩
    · exact ⟨one, by simp [later], rfl⟩

theorem sum_weights_eq_zero (towers : List (List (List α))) (none : (towers.map (·.flatten.length)).sum = 0) :
    (towers.map weight).sum = 0 := by
  induction towers with
  | nil => rfl
  | cons tower rest ih =>
    rw [map_cons, sum_cons] at none ⊢
    rw [weight_eq_zero (by omega), ih (by omega)]

variable {one other}

/-- Two towers with the same items on each height. -/
theorem map_length_of_perm (height : one.length = other.length)
    (perm : ∀ index < other.length, (one.getD index []).Perm (other.getD index [])) :
    one.map List.length = other.map List.length := by
  refine ext_getElem (by simpa using height) ?_
  intro index left right
  rw [length_map] at left right
  have same := (perm index right).length_eq
  rw [getD_eq_getElem _ _ left, getD_eq_getElem _ _ right] at same
  simpa using same

theorem mem_flatten_iff_getD {item : α} {levels : List (List α)} :
    item ∈ levels.flatten ↔ ∃ index, item ∈ levels.getD index [] := by
  rw [mem_flatten]
  constructor
  · rintro ⟨level, mem, inside⟩
    obtain ⟨index, bound, rfl⟩ := getElem_of_mem mem
    exact ⟨index, by rwa [getD_eq_getElem _ _ bound]⟩
  · rintro ⟨index, inside⟩
    by_cases bound : index < levels.length
    · rw [getD_eq_getElem _ _ bound] at inside
      exact ⟨_, getElem_mem bound, inside⟩
    · rw [getD_eq_default _ _ (Nat.le_of_not_lt bound)] at inside
      cases inside

end

section

def starts (start : Nat) : List (List α) → List Nat
  | [] => []
  | level :: rest => start :: starts (start + level.length) rest

def offsets (start : Nat) (levels : List (List α)) : List Nat :=
  starts start levels ++ [start + levels.flatten.length]

variable (start : Nat) (levels : List (List α))

@[simp] theorem length_starts : (starts start levels).length = levels.length := by
  induction levels generalizing start with
  | nil => rfl
  | cons level rest ih => rw [starts, length_cons, length_cons, ih]

@[simp] theorem length_offsets : (offsets start levels).length = levels.length + 1 := by
  rw [offsets, length_append, length_starts]
  rfl

variable (lower upper : List (List α))

theorem starts_append :
    starts start (lower ++ upper) = starts start lower ++ starts (start + lower.flatten.length) upper := by
  induction lower generalizing start with
  | nil => rfl
  | cons level rest ih =>
    rw [cons_append, starts, ih, starts, flatten_cons, length_append, Nat.add_assoc, cons_append]

theorem offsets_cons (level : List α) (rest : List (List α)) :
    offsets start (level :: rest) = start :: offsets (start + level.length) rest := by
  rw [offsets, starts, flatten_cons, length_append, ← Nat.add_assoc]
  rfl

theorem offsets_append :
    offsets start (lower ++ upper) = starts start lower ++ offsets (start + lower.flatten.length) upper := by
  rw [offsets, starts_append, offsets, flatten_append, length_append, Nat.add_assoc, append_assoc]

theorem starts_shift (start amount : Nat) (levels : List (List α)) :
    starts (start + amount) levels = (starts start levels).map (· + amount) := by
  induction levels generalizing start with
  | nil => rfl
  | cons level rest ih =>
    rw [starts, starts, map_cons, ← ih]
    congr 2
    omega

theorem offsets_shift (start amount : Nat) (levels : List (List α)) :
    offsets (start + amount) levels = (offsets start levels).map (· + amount) := by
  rw [offsets, offsets, map_append, starts_shift, map_singleton]
  congr 2
  omega

variable {levels : List (List α)}

theorem getD_offsets {start index : Nat} (bound : index ≤ levels.length) :
    (offsets start levels).getD index 0 = start + (levels.take index).flatten.length := by
  induction levels generalizing start index with
  | nil =>
    have zero : index = 0 := Nat.le_zero.mp bound
    subst zero
    rfl
  | cons level rest ih =>
    rw [offsets_cons]
    cases index with
    | zero => rfl
    | succ index =>
      rw [getD_cons_succ, ih (Nat.le_of_succ_le_succ bound), take_succ_cons, flatten_cons,
        length_append, Nat.add_assoc]

theorem le_of_mem_offsets {start offset : Nat} (mem : offset ∈ offsets start levels) :
    offset ≤ start + levels.flatten.length := by
  induction levels generalizing start with
  | nil => exact Nat.le_of_eq (mem_singleton.mp mem)
  | cons level rest ih =>
    rw [offsets_cons] at mem
    rw [flatten_cons, length_append]
    rcases mem_cons.mp mem with rfl | later
    · exact Nat.le_add_right ..
    · have bound := ih later
      omega

end

def half (second : Bool) : List α → List α
  | first :: other :: rest => (if second then other else first) :: half second rest
  | _ => []

theorem length_half (second : Bool) (items : List α) : (half second items).length = items.length / 2 := by
  fun_induction half second items with
  | case1 first other rest ih =>
    rw [length_cons, ih, length_cons, length_cons]
    omega
  | case2 items short =>
    match items with
    | [] => simp
    | [_] => simp
    | first :: other :: rest => exact absurd rfl (short first other rest)

theorem half_sublist (second : Bool) (items : List α) : (half second items).Sublist items := by
  fun_induction half second items with
  | case1 first other rest ih =>
    cases second with
    | false => exact (ih.cons other).cons_cons first
    | true => exact (ih.cons_cons other).cons first
  | case2 items short => exact nil_sublist items

theorem half_append {front : List α} (even : front.length % 2 = 0) (second : Bool) (rest : List α) :
    half second (front ++ rest) = half second front ++ half second rest := by
  fun_induction half second front with
  | case1 first other front ih =>
    rw [length_cons, length_cons] at even
    rw [cons_append, cons_append, half, ih (by omega), cons_append]
  | case2 front short =>
    match front with
    | [] => rfl
    | [_] => simp at even
    | first :: other :: rest => exact absurd rfl (short first other rest)

end CactusDB.Library.Levels
