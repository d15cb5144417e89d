import CactusDB.Functions.KllCompress

/-! Merging sketches adds up their weights. -/

namespace CactusDB.Functions.KllSketch

open Library Levels WeakOrder List

variable {α : Type} [Inhabited α] {traits : KllTraits α} {sketch : KllSketch α} {values : List α}

section

omit [Inhabited α]

variable {queue : List (List α)}

variable (lawful : traits.Lawful) (filled : ∀ range ∈ queue, range ≠ [])
  (ordered : ∀ range ∈ queue, Ordered traits.less range)
include lawful filled ordered

/-- The range at the top of the queue begins with an item that is not above any other. -/
theorem top_le {item : α}
    (first : (queue.getD (traits.top queue) []).head? = some item) {other : α} (mem : other ∈ queue.flatten) :
    traits.less other item = false := by
  have order := lawful.order
  obtain ⟨range, inQueue, inside⟩ := mem_flatten.mp mem
  cases range with
  | nil => cases inside
  | cons head rest =>
    have least : traits.less head item = false :=
      lawful.top_least queue filled item head first (mem_map.mpr ⟨_, inQueue, rfl⟩)
    rcases mem_cons.mp inside with rfl | later
    · exact least
    · exact notLess_trans ((pairwise_cons.mp (ordered _ inQueue)).1 other later) least

/-- All items of the ranges, in order. -/
theorem drain_spec {rounds : Nat} (enough : rounds = queue.flatten.length) :
    (drain traits queue rounds).Perm queue.flatten ∧ Ordered traits.less (drain traits queue rounds) := by
  induction rounds generalizing queue with
  | zero =>
    have none : queue.flatten = [] := length_eq_zero_iff.mp enough.symm
    rw [none]
    exact ⟨.refl _, .nil⟩
  | succ rounds ih =>
    have some : queue ≠ [] := by
      rintro rfl
      cases enough
    have place := lawful.top_lt queue some filled
    have read : queue.getD (traits.top queue) [] = queue[traits.top queue] := getD_eq_getElem _ _ place
    obtain ⟨item, rest, range⟩ := exists_cons_of_ne_nil (filled _ (getElem_mem place))
    have split : queue.Perm ((item :: rest) :: queue.eraseIdx (traits.top queue)) := by
      rw [← range]
      exact (getElem_cons_eraseIdx_perm place).symm
    obtain ⟨next, nextEq⟩ : ∃ next, next = if rest.isEmpty then queue.eraseIdx (traits.top queue)
      else rest :: queue.eraseIdx (traits.top queue) := ⟨_, rfl⟩
    have flat : next.flatten = rest ++ (queue.eraseIdx (traits.top queue)).flatten := by
      rw [nextEq]
      cases rest <;> rfl
    have whole : queue.flatten.Perm (item :: next.flatten) := by
      rw [flat]
      exact split.flatten
    have members : ∀ range ∈ next, range ∈ queue ∨ (range = rest ∧ rest ≠ []) := by
      intro range mem
      have erased : ∀ range ∈ queue.eraseIdx (traits.top queue), range ∈ queue := fun range => mem_of_mem_eraseIdx
      rw [nextEq] at mem
      split_ifs at mem with short
      · exact .inl (erased range mem)
      · rcases mem_cons.mp mem with rfl | later
        · exact .inr ⟨rfl, by simpa using short⟩
        · exact .inl (erased range later)
    have restOrdered : Ordered traits.less rest := by
      have inRange := ordered _ (getElem_mem place)
      rw [range] at inRange
      exact (pairwise_cons.mp inRange).2
    have nextFilled : ∀ range ∈ next, range ≠ [] := by
      intro range mem
      rcases members range mem with old | ⟨rfl, present⟩
      · exact filled range old
      · exact present
    have nextOrdered : ∀ range ∈ next, Ordered traits.less range := by
      intro range mem
      rcases members range mem with old | ⟨rfl, _⟩
      · exact ordered range old
      · exact restOrdered
    have nextSize : rounds = next.flatten.length := by
      have size := whole.length_eq
      rw [length_cons] at size
      omega
    obtain ⟨perm, sorted⟩ := ih nextFilled nextOrdered nextSize
    have step : drain traits queue (rounds + 1) = item :: drain traits next rounds := by
      rw [drain, read, range, nextEq]
    rw [step]
    refine ⟨(perm.cons item).trans whole.symm, pairwise_cons.mpr ⟨?_, sorted⟩⟩
    intro other mem
    refine top_le lawful filled ordered (by rw [read, range]; rfl) ?_
    exact whole.mem_iff.mpr (mem_cons_of_mem item (perm.mem_iff.mp mem))

end

section

omit [Inhabited α]

theorem mergeRange_spec (lawful : traits.Lawful) {others : List (KllSketch α)} {lists : List (List α)}
    (each : List.Forall₂ (Sketches traits) others lists) {minValue maxValue : α}
    (extremes : Extremes traits minValue maxValue values) (few : (values ++ lists.flatten).length < 2 ^ 64) :
    ∃ newMin newMax, (others.map toView).foldl (mergeRange traits) (values.length, minValue, maxValue) =
        ((values ++ lists.flatten).length, newMin, newMax) ∧
          Extremes traits newMin newMax (values ++ lists.flatten) := by
  induction each generalizing values minValue maxValue with
  | nil => exact ⟨minValue, maxValue, by simp, by simpa using extremes⟩
  | @cons other list others lists first rest ih =>
    rw [flatten_cons, ← append_assoc] at few ⊢
    have count : (toView other).n = list.length := first.count
    have small : (values.length + list.length) % 2 ^ 64 = (values ++ list).length := by
      rw [length_append]
      rw [length_append, length_append] at few
      exact Nat.mod_eq_of_lt (by omega)
    rw [map_cons, foldl_cons]
    have step : ∃ min max, mergeRange traits (values.length, minValue, maxValue) (toView other) =
        ((values ++ list).length, min, max) ∧ Extremes traits min max (values ++ list) := by
      unfold mergeRange
      simp only [count]
      by_cases zero : list.length = 0
      · rw [if_pos zero, length_eq_zero_iff.mp zero, append_nil]
        exact ⟨minValue, maxValue, rfl, extremes⟩
      have more : list ≠ [] := fun empty => zero (by rw [empty, length_nil])
      rw [if_neg zero, small]
      by_cases fresh : values.length = 0
      · rw [if_pos fresh, length_eq_zero_iff.mp fresh]
        exact ⟨_, _, rfl, first.extremes⟩
      · rw [if_neg fresh]
        have some : values ≠ [] := fun empty => fresh (by rw [empty, length_nil])
        exact ⟨_, _, rfl, extremes.append lawful first.extremes some more⟩
    obtain ⟨min, max, result, extremes'⟩ := step
    rw [result]
    exact ih extremes' few

end

section

omit [Inhabited α]

def levelsOf (sketch : KllSketch α) : List (List α) := (List.range sketch.numLevels).map sketch.level

variable {levels : List (List α)}

theorem Laid.levelsOf {free : List α} (laid : Laid sketch free levels) : sketch.levelsOf = levels := by
  refine ext_getElem ?_ ?_
  · rw [KllSketch.levelsOf, length_map, length_range, laid.numLevels]
  · intro index left right
    simp only [KllSketch.levelsOf, getElem_map, getElem_range]
    rw [laid.level, getD_eq_getElem _ _ right]

def bare (levels : List (List α)) : List (List α) := [] :: levels.tail

theorem weight_bare (filled : levels ≠ []) : (levels.getD 0 []).length + weight (bare levels) = weight levels := by
  obtain ⟨level, rest, rfl⟩ := exists_cons_of_ne_nil filled
  simp [bare, weight]

theorem getD_bare (levels : List (List α)) {index : Nat} (positive : 0 < index) :
    (bare levels).getD index [] = levels.getD index [] := by
  obtain ⟨index, rfl⟩ := Nat.exists_eq_succ_of_ne_zero (Nat.ne_of_gt positive)
  cases levels with
  | nil | cons => rfl

def together (sketch : KllSketch α) (others : List (KllSketch α)) : List (List α) :=
  (others.map fun other => bare other.levelsOf).foldl pileUp sketch.levelsOf

theorem getD_together {others : List (KllSketch α)} {index : Nat} (positive : 0 < index) :
    (together sketch others).getD index [] =
      sketch.levelsOf.getD index [] ++ (others.map fun other => other.levelsOf.getD index []).flatten := by
  rw [together, getD_foldl_pileUp, map_map]
  congr 2
  refine map_congr_left ?_
  intro other _
  exact getD_bare _ positive

theorem getD_together_zero (sketch : KllSketch α) (others : List (KllSketch α)) :
    (together sketch others).getD 0 [] = sketch.levelsOf.getD 0 [] := by
  rw [together, getD_foldl_pileUp, map_map]
  have none : (others.map ((·.getD 0 []) ∘ fun other => bare other.levelsOf)).flatten = [] := by
    rw [flatten_eq_nil_iff]
    intro level mem
    obtain ⟨other, _, rfl⟩ := mem_map.mp mem
    rfl
  rw [none, append_nil]

theorem level_eq_getD (holds : ∃ free levels, Laid sketch free levels) (index : Nat) :
    sketch.level index = sketch.levelsOf.getD index [] := by
  obtain ⟨free, levels, laid⟩ := holds
  rw [laid.levelsOf, laid.level]

end

omit [Inhabited α]

variable {index : Nat}

theorem Pile.ordered_getD {zeroSorted : Bool} {levels : List (List α)} (pile : Pile traits zeroSorted levels values)
    (positive : 0 < index) : Ordered traits.less (levels.getD index []) := by
  obtain ⟨index, rfl⟩ := Nat.exists_eq_succ_of_ne_zero (Nat.ne_of_gt positive)
  cases levels with
  | nil => exact .nil
  | cons level rest =>
    rw [getD_cons_succ]
    by_cases inside : index < rest.length
    · rw [getD_eq_getElem _ _ inside]
      exact pile.ordered _ (getElem_mem inside)
    · rw [getD_eq_default _ _ (Nat.le_of_not_lt inside)]
      exact .nil

variable {others : List (KllSketch α)} {lists : List (List α)} {free : List α} {levels : List (List α)} {base : List α}

theorem exists_sketches (each : List.Forall₂ (Sketches traits) others lists) {other : KllSketch α}
    (mem : other ∈ others) : ∃ list ∈ lists, Sketches traits other list := by
  induction each with
  | nil => cases mem
  | cons first rest ih =>
    rcases mem_cons.mp mem with rfl | later
    · exact ⟨_, mem_cons_self, first⟩
    · obtain ⟨list, inside, sketches⟩ := ih later
      exact ⟨list, mem_cons_of_mem _ inside, sketches⟩

theorem Sketches.tower (sketches : Sketches traits sketch values) :
    Tower traits sketch.isLevelZeroSorted sketch.levelsOf values ∧ ∃ free levels, Laid sketch free levels := by
  obtain ⟨free, levels, holds⟩ := sketches.holds
  refine ⟨?_, free, levels, holds.laid⟩
  rw [holds.laid.levelsOf]
  exact holds.tower

theorem rangesOf_spec (holds : Holds traits sketch free levels base)
    (each : List.Forall₂ (Sketches traits) others lists) (positive : 0 < index) :
    (rangesOf sketch (others.map toView) index).flatten = (together sketch others).getD index [] ∧
      (∀ range ∈ rangesOf sketch (others.map toView) index, range ≠ []) ∧
      ∀ range ∈ rangesOf sketch (others.map toView) index, Ordered traits.less range := by
  have level (other : KllSketch α) (mem : other ∈ others) : other.level index = other.levelsOf.getD index [] ∧
      Ordered traits.less (other.level index) := by
    obtain ⟨list, _, sketches⟩ := exists_sketches each mem
    obtain ⟨tower, laid⟩ := sketches.tower
    rw [level_eq_getD laid]
    exact ⟨rfl, tower.toPile.ordered_getD positive⟩
  have own := level_eq_getD ⟨free, levels, holds.laid⟩ index
  refine ⟨?_, ?_, ?_⟩
  · rw [rangesOf, flatten_filter_not_isEmpty, flatten_cons, own, getD_together positive, map_map]
    congr 2
    exact map_congr_left fun other mem => (level other mem).1
  · intro range mem
    have present := (mem_filter.mp mem).2
    simpa using present
  · intro range mem
    have source := (mem_filter.mp mem).1
    rcases mem_cons.mp source with rfl | fromOther
    · rw [own, holds.laid.levelsOf]
      exact holds.tower.toPile.ordered_getD positive
    · obtain ⟨view, inViews, rfl⟩ := mem_map.mp fromOther
      obtain ⟨other, inside, rfl⟩ := mem_map.mp inViews
      exact (level other inside).2

section

variable (traits : KllTraits α) (sketch : KllSketch α) (others : List (KllSketch α))

def mergedAt (index : Nat) : List α :=
  drain traits (rangesOf sketch (others.map toView) index) (rangesOf sketch (others.map toView) index).flatten.length

def mergedLevels : List (List α) :=
  sketch.level 0 :: (List.range' 1 ((together sketch others).length - 1)).map (mergedAt traits sketch others)

end

theorem mergedAt_spec (lawful : traits.Lawful) (holds : Holds traits sketch free levels base)
    (each : List.Forall₂ (Sketches traits) others lists) (positive : 0 < index) :
    (mergedAt traits sketch others index).Perm ((together sketch others).getD index []) ∧
      Ordered traits.less (mergedAt traits sketch others index) := by
  obtain ⟨flat, filled, ordered⟩ := rangesOf_spec holds each positive
  rw [← flat]
  exact drain_spec lawful filled ordered rfl

theorem length_mergedLevels (traits : KllTraits α) (some : together sketch others ≠ []) :
    (mergedLevels traits sketch others).length = (together sketch others).length := by
  have positive := length_pos_iff.mpr some
  rw [mergedLevels, length_cons, length_map, length_range']
  omega

theorem mergedLevels_perm (lawful : traits.Lawful) (holds : Holds traits sketch free levels base)
    (each : List.Forall₂ (Sketches traits) others lists) (inside : index < (together sketch others).length) :
    ((mergedLevels traits sketch others).getD index []).Perm ((together sketch others).getD index []) := by
  cases index with
  | zero =>
    rw [getD_together_zero, ← level_eq_getD ⟨free, levels, holds.laid⟩]
    exact .refl _
  | succ index =>
    have read : (mergedLevels traits sketch others).getD (index + 1) [] = mergedAt traits sketch others
      (index + 1) := by
      rw [mergedLevels, getD_cons_succ, getD_eq_getElem _ _ (by simp; omega), getElem_map,
        getElem_range']
      congr 1
      omega
    rw [read]
    exact (mergedAt_spec lawful holds each (Nat.succ_pos index)).1

theorem Tower.getD_top {zeroSorted : Bool} (tower : Tower traits zeroSorted levels values) (high : 2 ≤ levels.length) :
    levels.getD (levels.length - 1) [] ≠ [] := by
  refine tower.top _ ?_ high
  rw [getLast?_eq_getElem?, getElem?_eq_getElem (by omega), getD_eq_getElem _ _ (by omega)]

section

variable (holds : Holds traits sketch free levels base)
include holds

theorem together_ne_nil (others : List (KllSketch α)) : together sketch others ≠ [] := by
  have own := length_le_foldl_pileUp sketch.levelsOf (others.map fun other => bare other.levelsOf)
  have positive := length_pos_iff.mpr holds.tower.filled
  rw [holds.laid.levelsOf] at own
  rw [← length_pos_iff, together, holds.laid.levelsOf]
  exact Nat.lt_of_lt_of_le positive own

/-- The highest level of all sketches is not empty. -/
theorem together_top (each : List.Forall₂ (Sketches traits) others lists)
    (high : 2 ≤ (together sketch others).length) :
    (together sketch others).getD ((together sketch others).length - 1) [] ≠ [] := by
  obtain ⟨one, mem, height⟩ := exists_length_foldl_pileUp sketch.levelsOf (others.map fun other => bare other.levelsOf)
  change (together sketch others).length = one.length at height
  rw [getD_together (by omega)]
  rcases mem_cons.mp mem with rfl | fromOther
  · have top := holds.tower.getD_top (by rw [← holds.laid.levelsOf, ← height]; exact high)
    rw [← holds.laid.levelsOf, ← height] at top
    intro none
    exact top (append_eq_nil_iff.mp none).1
  · obtain ⟨other, inside, rfl⟩ := mem_map.mp fromOther
    obtain ⟨list, _, sketches⟩ := exists_sketches each inside
    obtain ⟨tower, _⟩ := sketches.tower
    have length : (bare other.levelsOf).length = other.levelsOf.length := by
      have positive := length_pos_iff.mpr tower.filled
      rw [bare, length_cons, length_tail]
      omega
    rw [length] at height
    have top := tower.getD_top (by omega)
    rw [← height] at top
    intro none
    refine top ?_
    exact flatten_eq_nil_iff.mp (append_eq_nil_iff.mp none).2 _ (mem_map.mpr ⟨other, inside, rfl⟩)

end

/-- A sketch, with the levels zero of the others inserted, and those others make up the values. -/
structure Joined (traits : KllTraits α) (sketch : KllSketch α) (free : List α) (levels : List (List α)) (base : List α)
    (others : List (KllSketch α)) (lists : List (List α)) (values : List α) : Prop where
  holds : Holds traits sketch free levels base
  each : List.Forall₂ (Sketches traits) others lists
  sum : base.length + (others.map fun other => weight (bare other.levelsOf)).sum = values.length
  own : ∀ item ∈ base, item ∈ values
  foreign : ∀ list ∈ lists, ∀ item ∈ list, item ∈ values

variable (joined : Joined traits sketch free levels base others lists values)
include joined

theorem Joined.mem {item : α} (mem : item ∈ (together sketch others).getD index []) : item ∈ values := by
  obtain ⟨holds, each, _, own, foreign⟩ := joined
  have ours (index : Nat) (inside : item ∈ sketch.levelsOf.getD index []) : item ∈ values := by
    rw [holds.laid.levelsOf] at inside
    exact own item (holds.tower.kept item (mem_flatten_iff_getD.mpr ⟨index, inside⟩))
  rcases Nat.eq_zero_or_pos index with rfl | positive
  · rw [getD_together_zero] at mem
    exact ours 0 mem
  · rw [getD_together positive] at mem
    rcases mem_append.mp mem with inside | fromOther
    · exact ours index inside
    · obtain ⟨level, inLevels, inside⟩ := mem_flatten.mp fromOther
      obtain ⟨other, inOthers, rfl⟩ := mem_map.mp inLevels
      obtain ⟨list, inLists, sketches⟩ := exists_sketches each inOthers
      exact foreign list inLists item (sketches.tower.1.kept item (mem_flatten_iff_getD.mpr ⟨index, inside⟩))

/-- The merged levels stand for the values of all sketches. -/
theorem Joined.tower (lawful : traits.Lawful) :
    Tower traits sketch.isLevelZeroSorted (mergedLevels traits sketch others) values := by
  have holds := joined.holds
  have each := joined.each
  have some := together_ne_nil holds others
  have height := length_mergedLevels traits some
  have perm : ∀ index < (together sketch others).length, _ := fun index => mergedLevels_perm lawful holds each
  have zero := level_eq_getD ⟨free, levels, holds.laid⟩ 0
  rw [holds.laid.levelsOf] at zero
  refine ⟨⟨?_, ?_, ?_, ?_⟩, cons_ne_nil _ _, ?_⟩
  · intro sorted
    change Ordered traits.less (sketch.level 0)
    rw [zero, ← headD_eq_getD]
    exact holds.tower.zero sorted
  · intro level mem
    obtain ⟨index, inRange, rfl⟩ := mem_map.mp mem
    exact (mergedAt_spec lawful holds each (by rw [mem_range'] at inRange; omega)).2
  · rw [weight_congr (map_length_of_perm height perm), together, weight_foldl_pileUp, holds.laid.levelsOf,
      holds.tower.weight, map_map]
    exact joined.sum
  · intro item mem
    obtain ⟨index, inside⟩ := mem_flatten_iff_getD.mp mem
    by_cases bound : index < (together sketch others).length
    · exact joined.mem ((perm index bound).mem_iff.mp inside)
    · rw [getD_eq_default _ _ (by omega)] at inside
      cases inside
  · intro top last high
    rw [height] at high
    have same := perm ((together sketch others).length - 1) (by omega)
    have read : (mergedLevels traits sketch others).getD ((together sketch others).length - 1) [] = top := by
      rw [getLast?_eq_getElem?, height] at last
      rw [getD_eq_getElem?_getD, last]
      rfl
    rw [read] at same
    rintro rfl
    exact together_top holds each high same.symm.eq_nil

end CactusDB.Functions.KllSketch
