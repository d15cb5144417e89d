import CactusDB.Functions.KllLayout

/-! The values that the levels of a sketch stand for, and where compacting finds a full level. -/

namespace CactusDB.Functions.KllSketch

open Library Levels WeakOrder List

variable {α : Type} [Inhabited α] {traits : KllTraits α}

section

omit [Inhabited α]

structure Pile (traits : KllTraits α) (zeroSorted : Bool) (levels : List (List α)) (values : List α) : Prop where
  zero : zeroSorted = true → Ordered traits.less (levels.headD [])
  ordered : ∀ level ∈ levels.tail, Ordered traits.less level
  weight : weight levels = values.length
  kept : ∀ item ∈ levels.flatten, item ∈ values

structure Tower (traits : KllTraits α) (zeroSorted : Bool) (levels : List (List α)) (values : List α) : Prop
    extends Pile traits zeroSorted levels values where
  filled : levels ≠ []
  top : ∀ top, levels.getLast? = some top → 2 ≤ levels.length → top ≠ []

variable {zeroSorted : Bool} {levels : List (List α)} {values : List α}

/-- The top level is worth at least a power of two. -/
theorem Tower.length_le (tower : Tower traits zeroSorted levels values) {bits : Nat} (few : values.length < 2 ^ bits)
    (some : 0 < bits) : levels.length ≤ bits := by
  obtain ⟨lower, top, rfl⟩ := (eq_nil_or_concat' levels).resolve_left tower.filled
  rw [length_append, length_singleton]
  cases lower with
  | nil => exact some
  | cons level rest =>
    have present : top ≠ [] := tower.top top getLast?_concat (by simp)
    have worth : 2 ^ (level :: rest).length ≤ weight (level :: rest ++ [top]) := pow_le_weight present
    rw [tower.weight] at worth
    exact (Nat.pow_lt_pow_iff_right (by decide)).mp (Nat.lt_of_le_of_lt worth few)

section

variable {mustSort : Bool} {lower upper odd merged : List α}

theorem Compacted.length_merged (sorts : ∀ items, (traits.sort items).Perm items)
    (compacted : Compacted traits mustSort lower upper odd merged) :
    merged.length = lower.length / 2 + upper.length := by
  obtain ⟨even, second, split, size, rfl⟩ := compacted.parts
  have length : (if mustSort = true then traits.sort even else even).length = even.length := by
    split_ifs
    · exact (sorts even).length_eq
    · rfl
  have whole : lower.length = odd.length + even.length := by rw [split, length_append]
  rw [(merge_perm_append ..).length_eq, length_append, length_half, length]
  omega

theorem Compacted.length_odd (compacted : Compacted traits mustSort lower upper odd merged) :
    odd.length = lower.length % 2 := by
  obtain ⟨even, second, _, size, _⟩ := compacted.parts
  exact size

theorem Compacted.mem (sorts : ∀ items, (traits.sort items).Perm items)
    (compacted : Compacted traits mustSort lower upper odd merged) {item : α} (mem : item ∈ odd ∨ item ∈ merged) :
    item ∈ lower ∨ item ∈ upper := by
  obtain ⟨even, second, rfl, _, rfl⟩ := compacted.parts
  rcases mem with left | right
  · exact .inl (mem_append_left _ left)
  · rcases mem_append.mp ((merge_perm_append ..).mem_iff.mp right) with halved | above
    · have present := (half_sublist ..).mem halved
      split_ifs at present
      · exact .inl (mem_append_right _ ((sorts even).mem_iff.mp present))
      · exact .inl (mem_append_right _ present)
    · exact .inr above

theorem Compacted.ordered (lawful : traits.Lawful) (compacted : Compacted traits mustSort lower upper odd merged)
    (lowerOrdered : mustSort = false → Ordered traits.less lower) (upperOrdered : Ordered traits.less upper) :
    Ordered traits.less odd ∧ Ordered traits.less merged := by
  have order := lawful.order
  obtain ⟨even, second, rfl, size, rfl⟩ := compacted.parts
  refine ⟨ordered_of_length_le (by omega), ordered_merge_less ?_ upperOrdered⟩
  refine List.Pairwise.sublist (half_sublist ..) ?_
  split_ifs with must
  · exact lawful.sort_sorted even
  · exact (pairwise_append.mp (lowerOrdered (Bool.eq_false_iff.mpr must))).2.1

variable {below above : List (List α)}

/-- Compacting keeps the values that levels stand for. -/
theorem Pile.compacted (lawful : traits.Lawful)
    (pile : Pile traits zeroSorted (below ++ lower :: upper :: above) values)
    (compacted : Compacted traits (below.length = 0 && !zeroSorted) lower upper odd merged) :
    Pile traits zeroSorted (below ++ odd :: merged :: above) values := by
  have sizes := compacted.length_merged lawful.sort_perm
  have oddSize := compacted.length_odd
  have upperOrdered : Ordered traits.less upper := by
    refine pile.ordered upper ?_
    cases below <;> simp
  have lowerOrdered : (below.length = 0 && !zeroSorted) = false → Ordered traits.less lower := by
    intro sorted
    cases below with
    | nil => exact pile.zero (by simpa using sorted)
    | cons level below => exact pile.ordered lower (by simp)
  obtain ⟨oddOrdered, mergedOrdered⟩ := compacted.ordered lawful lowerOrdered upperOrdered
  refine ⟨?_, ?_, ?_, ?_⟩
  · intro sorted
    cases below with
    | nil => exact oddOrdered
    | cons level below => exact pile.zero sorted
  · intro level mem
    cases below with
    | nil =>
      rcases mem_cons.mp mem with rfl | mem
      · exact mergedOrdered
      · exact pile.ordered level (by simp [mem])
    | cons first below =>
      rcases mem_append.mp mem with mem | mem
      · exact pile.ordered level (by simp [mem])
      rcases mem_cons.mp mem with rfl | mem
      · exact oddOrdered
      rcases mem_cons.mp mem with rfl | mem
      · exact mergedOrdered
      · exact pile.ordered level (by simp [mem])
  · rw [← pile.weight]
    exact weight_exchange (by omega)
  · intro item mem
    refine pile.kept item ?_
    have sources : item ∈ odd ∨ item ∈ merged → item ∈ lower ∨ item ∈ upper := compacted.mem lawful.sort_perm
    simp only [flatten_append, flatten_cons, mem_append] at mem ⊢
    tauto

theorem Compacted.merged_ne_nil (lawful : traits.Lawful) (compacted : Compacted traits mustSort lower upper odd merged)
    (enough : 2 ≤ lower.length) : merged ≠ [] := by
  have size := compacted.length_merged lawful.sort_perm
  rw [← length_pos_iff]
  omega

theorem Compacted.tower (lawful : traits.Lawful)
    (pile : Pile traits zeroSorted (below ++ lower :: upper :: above) values)
    (compacted : Compacted traits (below.length = 0 && !zeroSorted) lower upper odd merged) (enough : 2 ≤ lower.length)
    (top : ∀ top, above.getLast? = some top → top ≠ []) :
    Tower traits zeroSorted (below ++ odd :: merged :: above) values := by
  refine ⟨pile.compacted lawful compacted, by simp, ?_⟩
  intro last atEnd _
  cases above with
  | nil =>
    have same : merged = last := by simpa using atEnd
    rw [← same]
    exact compacted.merged_ne_nil lawful enough
  | cons level above => exact top last (by simpa using atEnd)

/-- Above two levels the top one is not empty. -/
theorem Tower.top_above (tower : Tower traits zeroSorted (below ++ lower :: upper :: above) values) :
    ∀ top, above.getLast? = some top → top ≠ [] := by
  intro top last
  have place : (below ++ lower :: upper :: above).getLast? = some top := by
    rw [getLast?_append, getLast?_cons_cons, getLast?_cons, last]
    rfl
  exact tower.top top place (by simp; omega)

end

theorem Pile.addTop (pile : Pile traits zeroSorted levels values) (filled : levels ≠ []) :
    Pile traits zeroSorted (levels ++ [[]]) values := by
  obtain ⟨first, rest, rfl⟩ := exists_cons_of_ne_nil filled
  refine ⟨pile.zero, ?_, ?_, ?_⟩
  · intro level mem
    rcases mem_append.mp mem with old | new
    · exact pile.ordered level old
    · rw [mem_singleton.mp new]
      exact .nil
  · rw [← pile.weight, weight_append]
    simp [Library.Levels.weight]
  · intro item mem
    exact pile.kept item (by simpa using mem)

end

omit [Inhabited α]

variable (traits : KllTraits α)

/-- Levels below the top that are not full leave the capacity of the top one. -/
theorem flatten_add_capacity_le (k : Nat) (lower : List (List α))
    (short : ∀ index < lower.length, (lower.getD index []).length ≤ capacity traits k (lower.length - index)) :
    lower.flatten.length + capacity traits k 0 ≤ total traits k (lower.length + 1) := by
  induction lower with
  | nil => exact Nat.le_of_eq (by simp [total])
  | cons level rest ih =>
    have later := ih fun index inside => by
      have bound := short (index + 1) (Nat.succ_lt_succ inside)
      rw [getD_cons_succ, length_cons, Nat.add_sub_add_right] at bound
      exact bound
    have first := short 0 (by simp)
    rw [getD_cons_zero, length_cons, Nat.sub_zero] at first
    rw [flatten_cons, length_append, length_cons, total]
    omega

variable {sketch : KllSketch α} {free : List α} {levels : List (List α)} {values : List α}

theorem findLevelFrom_spec (laid : Laid sketch free levels) (bound : levels.length ≤ kMaxLevel)
    {level rounds : Nat} (inside : level < levels.length) (enough : levels.length ≤ level + rounds) :
    ∃ found, findLevelFrom traits sketch rounds level = .ok found ∧ found < levels.length ∧
      (capacity traits sketch.k (levels.length - found - 1) ≤ (levels.getD found []).length ∨
        found + 1 = levels.length) ∧
      ∀ lower, level ≤ lower → lower < found →
        (levels.getD lower []).length < capacity traits sketch.k (levels.length - lower - 1) := by
  induction rounds generalizing level with
  | zero => omega
  | succ rounds ih =>
    have length : sketch.levels.length = levels.length + 1 := by rw [laid.levels, length_offsets]
    have pop : sketch.levelAt (level + 1) - sketch.levelAt level = (levels.getD level []).length := by
      have size := laid.safeLevelSize level
      rwa [KllSketch.safeLevelSize, laid.numLevels, if_pos inside] at size
    rw [findLevelFrom, if_neg (by omega), laid.numLevels, levelCapacity_eq traits sketch.k bound inside, pop]
    by_cases full : capacity traits sketch.k (levels.length - level - 1) ≤ (levels.getD level []).length ∨
        level + 1 = levels.length
    · refine ⟨level, if_pos full, inside, full, ?_⟩
      intro lower above below
      omega
    · have next : level + 1 < levels.length := by omega
      obtain ⟨found, result, place, full', lower⟩ := ih next (by omega)
      refine ⟨found, (if_neg full).trans result, place, full', ?_⟩
      intro index above below
      rcases Nat.eq_or_lt_of_le above with rfl | later
      · omega
      · exact lower index later below

end CactusDB.Functions.KllSketch
