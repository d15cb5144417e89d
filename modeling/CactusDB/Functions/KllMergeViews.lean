import CactusDB.Functions.KllMerge

/-! The loops of a merge: the levels are merged into one buffer and compressed there. -/

namespace CactusDB.Functions.KllSketch

open Library Buffer Levels List KllSketch

variable {α : Type} [Inhabited α] {traits : KllTraits α} {sketch : KllSketch α} {values base free : List α}
  {others : List (KllSketch α)} {lists levels : List (List α)}

section

omit [Inhabited α]

variable (traits : KllTraits α) (sketch : KllSketch α) (others : List (KllSketch α))

theorem mergeLevel_spec (done : List (List α)) (room : List α) {slack : List Nat} (fits : slack ≠ []) :
    mergeLevel traits sketch (others.map toView) (done.flatten ++ room, offsets 0 done ++ slack) done.length =
      ((done ++ [mergedAt traits sketch others done.length]).flatten ++
          room.drop (mergedAt traits sketch others done.length).length,
        offsets 0 (done ++ [mergedAt traits sketch others done.length]) ++ slack.tail) := by
  unfold mergeLevel
  simp only [getD_offsets_end]
  rw [set_offsets fits]
  change (overwrite _ _ (mergedAt traits sketch others done.length), _) = _
  rw [overwrite, take_left, drop_append, drop_eq_nil_of_le (Nat.le_add_right ..)]
  simp [mergedAt]

theorem mergeLevels_spec (count : Nat)
    (done : List (List α)) (room : List α) (slack : List Nat) (fits : count ≤ slack.length) :
    (range' done.length count).foldl (mergeLevel traits sketch (others.map toView))
        (done.flatten ++ room, offsets 0 done ++ slack) =
      ((done ++ (range' done.length count).map (mergedAt traits sketch others)).flatten ++
          room.drop ((range' done.length count).map (mergedAt traits sketch others)).flatten.length,
        offsets 0 (done ++ (range' done.length count).map (mergedAt traits sketch others)) ++ slack.drop count) := by
  induction count generalizing done room slack with
  | zero => simp
  | succ count ih =>
    have some : slack ≠ [] := by
      rintro rfl
      cases fits
    have later := ih (done ++ [mergedAt traits sketch others done.length])
      (room.drop (mergedAt traits sketch others done.length).length) slack.tail (by rw [length_tail]; omega)
    rw [length_append, length_singleton] at later
    rw [range'_succ, foldl_cons, mergeLevel_spec traits sketch others done room some, later]
    obtain ⟨first, slack, rfl⟩ := exists_cons_of_ne_nil some
    simp [Nat.add_comm]

end

theorem generalCompress_spec (lawful : traits.Lawful) (k : Nat) {zeroSorted : Bool}
    (tower : Tower traits zeroSorted levels values) (few : values.length < 2 ^ kMaxLevel) {slack : List Nat}
      {size : Nat}
    (length : size = (offsets 0 levels ++ slack).length) (wide : values.length < 2 ^ (size - 2)) (long : 2 < size)
    (randomBit : Nat → Bool) :
    ∃ after final gap, generalCompress traits k levels.length levels.flatten (offsets 0 levels ++ slack)
        (replicate size 0) zeroSorted randomBit = .ok after ∧
      Underway traits k zeroSorted after final gap [] values := by
  have height := tower.length_le few (by decide)
  have start : (offsets 0 levels ++ slack).getD 0 0 = 0 := by
    rw [getD_append _ _ _ _ (by simp), getD_offsets (Nat.zero_le _)]
    rfl
  have out : (replicate size 0).set 0 0 = offsets 0 ([] : List (List α)) ++ replicate (size - 1) 0 := by
    obtain ⟨size, rfl⟩ : ∃ less, size = less + 1 := ⟨size - 1, by omega⟩
    rfl
  unfold generalCompress
  rw [computeTotalCapacity_eq traits k height, start, getD_offsets_end, out]
  have begun : Underway traits k zeroSorted
      { items := levels.flatten
        inLevels := offsets 0 levels ++ slack
        outLevels := offsets 0 ([] : List (List α)) ++ replicate (size - 1) 0
        currentNumLevels := levels.length
        currentItemCount := levels.flatten.length - 0
        targetItemCount := total traits k levels.length
        randomBit := randomBit } [] [] levels values := by
    refine ⟨rfl, ⟨[], slack, rfl, rfl⟩, ⟨_, rfl⟩, ?_, (Nat.zero_add _).symm, (Nat.zero_add _).symm, rfl, tower, .inr ?_⟩
    · change ([0] ++ replicate (size - 1) 0).length = (offsets 0 levels ++ slack).length
      rw [← length, length_append, length_replicate, length_singleton]
      omega
    · exact Nat.le_of_eq (Nat.zero_add _)
  rw [length] at wide long
  exact begun.run lawful few wide long (by rw [length_nil, Nat.zero_add]; exact Nat.le_succ _)

/-- The compressed levels go to the end of the buffer. -/
theorem Underway.holds {after : Compression α} {final : List (List α)} {gap : List α}
    (finished : Underway traits sketch.k sketch.isLevelZeroSorted after final gap [] values) :
    after.currentItemCount ≤ after.targetItemCount ∧ ∃ free, Holds traits { sketch with
      items := overwrite ((sketch.items ++ replicate after.targetItemCount default).take after.targetItemCount)
        (after.targetItemCount - after.currentItemCount) (slice after.items 0 after.currentItemCount)
      levels := (after.outLevels.take (after.currentNumLevels + 1)).map
        (· + (after.targetItemCount - after.currentItemCount))
      randomBit := after.randomBit } free final values := by
  obtain ⟨slack, out⟩ := finished.outLevels
  have numLevels : after.currentNumLevels = final.length := finished.numLevels
  have count : after.currentItemCount = final.flatten.length := finished.count
  have target := finished.target
  have small : after.currentItemCount ≤ after.targetItemCount := by
    rcases finished.fits with fits | bound
    · exact Nat.le_of_lt fits
    · rw [count, target]
      exact bound
  have kept : slice after.items 0 after.currentItemCount = final.flatten := by
    rw [finished.items, count]
    simp [slice]
  have tower := finished.tower
  rw [append_nil] at tower
  generalize resized : (sketch.items ++ replicate after.targetItemCount default).take after.targetItemCount = buffer
  have size : buffer.length = after.targetItemCount := by
    rw [← resized, length_take_of_le (by simp)]
  have behind : buffer.drop (after.targetItemCount - after.currentItemCount + final.flatten.length) = [] :=
    drop_eq_nil_of_le (by omega)
  have freeSize : (buffer.take (after.targetItemCount - after.currentItemCount)).length =
      after.targetItemCount - after.currentItemCount := length_take_of_le (by omega)
  rw [kept, overwrite, behind, append_nil, out, numLevels, take_left' (length_offsets ..)]
  refine ⟨small, buffer.take (after.targetItemCount - after.currentItemCount), ⟨rfl, ?_⟩, tower, ?_⟩
  · rw [freeSize, ← offsets_shift, Nat.zero_add]
  · rw [length_append, freeSize, ← numLevels, ← target]
    omega

/-- The buffer with all levels, and where they begin. -/
theorem merged_buffer (traits : KllTraits α) (sketch : KllSketch α) (others : List (KllSketch α)) {tmpNumItems ub : Nat}
    (fits : (together sketch others).length - 1 ≤ ub)
    (size : (mergedLevels traits sketch others).flatten.length = tmpNumItems)
    (zero : sketch.safeLevelSize 0 = (sketch.level 0).length) :
    (range' 1 ((together sketch others).length - 1)).foldl (mergeLevel traits sketch (others.map toView))
        (overwrite (replicate tmpNumItems default) 0 (sketch.level 0),
          (replicate (ub + 2) 0).set 1 (sketch.safeLevelSize 0)) =
      ((mergedLevels traits sketch others).flatten, offsets 0 (mergedLevels traits sketch others) ++
        (replicate ub 0).drop ((together sketch others).length - 1)) := by
  have buffer : overwrite (replicate tmpNumItems default) 0 (sketch.level 0) =
      [sketch.level 0].flatten ++ (replicate tmpNumItems default).drop (sketch.level 0).length := by
    simp [overwrite]
  have levels : (replicate (ub + 2) 0).set 1 (sketch.safeLevelSize 0) =
      offsets 0 [sketch.level 0] ++ replicate ub 0 := by
    rw [zero]
    simp [offsets, starts, replicate_succ]
  have run := mergeLevels_spec traits sketch others ((together sketch others).length - 1) [sketch.level 0]
    ((replicate tmpNumItems default).drop (sketch.level 0).length) (replicate ub 0)
    (by rw [length_replicate]; exact fits)
  rw [buffer, levels]
  refine run.trans ?_
  change ((mergedLevels traits sketch others).flatten ++ _, _) = _
  rw [mergedLevels, flatten_cons, length_append] at size
  rw [drop_drop, drop_eq_nil_of_le (by rw [length_replicate]; exact Nat.le_of_eq size.symm), append_nil]
  rfl

theorem Joined.mergeHigherLevels (lawful : traits.Lawful)
    (joined : Joined traits sketch free levels base others lists values) (few : values.length < 2 ^ kMaxLevel)
    (narrow : (together sketch others).flatten.length < 2 ^ 31) :
    ∃ after, KllSketch.mergeHigherLevels traits sketch (others.map toView) (together sketch others).flatten.length
        (together sketch others).length values.length = .ok after ∧
      Alike sketch after ∧ ∃ free levels, Holds traits after free levels values := by
  have tower := joined.tower lawful
  have holds := joined.holds
  have some := together_ne_nil holds others
  have height := length_mergedLevels traits some
  have perm : ∀ index < (together sketch others).length, _ := fun index =>
    mergedLevels_perm lawful holds joined.each
  have flat : (mergedLevels traits sketch others).flatten.length = (together sketch others).flatten.length := by
    rw [length_flatten, length_flatten, map_length_of_perm height perm]
  have power : 2 ^ kMaxLevel < 2 ^ 63 := by decide
  have log : floorLog2 values.length = .ok values.length.log2 := if_pos (by omega)
  have wide : values.length < 2 ^ (1 + values.length.log2) := by
    rw [Nat.add_comm]
    exact Nat.lt_log2_self
  have low := tower.length_le wide (by omega)
  rw [height] at low
  obtain ⟨ub, ubEq⟩ : ∃ ub, ub = 1 + values.length.log2 := ⟨_, rfl⟩
  rw [← ubEq] at wide low
  have positive := length_pos_iff.mpr some
  have zero : sketch.safeLevelSize 0 = (sketch.level 0).length := by
    rw [holds.laid.safeLevelSize, holds.laid.level]
  have room : (together sketch others).length - 1 ≤ ub := by omega
  have filled := merged_buffer traits sketch others room flat zero
  have short : ∀ offset ∈ offsets 0 (mergedLevels traits sketch others) ++
      (replicate ub 0).drop ((together sketch others).length - 1), offset < 2 ^ 31 := by
    intro offset mem
    rcases mem_append.mp mem with own | slack
    · have bound := le_of_mem_offsets own
      omega
    · rw [eq_of_mem_replicate (mem_of_mem_drop slack)]
      decide
  have counted := any_pastInt short (range' 1 ((together sketch others).length - 1))
  have length : ub + 2 = (offsets 0 (mergedLevels traits sketch others) ++
      (replicate ub 0).drop ((together sketch others).length - 1)).length := by
    simp only [length_append, length_offsets, length_drop, length_replicate, height]
    omega
  obtain ⟨after, final, gap, compressed, finished⟩ := generalCompress_spec lawful sketch.k tower few length wide
    (by omega)
    sketch.randomBit
  obtain ⟨small, places, kept⟩ := finished.holds
  rw [height] at compressed
  refine ⟨_, ?_, ?_, places, final, kept⟩
  · unfold KllSketch.mergeHigherLevels
    rw [log]
    change (if 1 + values.length.log2 + 2 ≤ _ then _ else _) = _
    rw [← ubEq, if_neg (by omega)]
    simp only [filled, counted, Bool.false_eq_true, if_false]
    rw [compressed]
    exact if_neg (Nat.not_lt_of_le small)
  · exact ⟨rfl, rfl, rfl, rfl, rfl⟩

section

/-- The items of all levels zero are inserted. -/
theorem Holds.doInserts (lawful : traits.Lawful) {items : List α} (holds : Holds traits sketch free levels base)
    (few : (base ++ items).length < 2 ^ kMaxLevel) (narrow : total traits sketch.k kMaxLevel < 2 ^ 31) :
    ∃ after free levels, items.foldlM (KllSketch.doInsert traits) sketch = .ok after ∧
      Holds traits after free levels (base ++ items) ∧ after.k = sketch.k ∧ after.minValue = sketch.minValue ∧
      after.maxValue = sketch.maxValue := by
  induction items generalizing sketch free levels base with
  | nil =>
    refine ⟨sketch, free, levels, rfl, ?_, rfl, rfl, rfl⟩
    rw [append_nil]
    exact holds
  | cons item items ih =>
    have less : base.length < 2 ^ kMaxLevel := by
      rw [length_append] at few
      omega
    obtain ⟨middle, free', levels', first, grown, kept⟩ := holds.doInsert lawful less narrow item
    obtain ⟨after, free'', levels'', rest, final, sameK, sameMin, sameMax⟩ := ih kept (by simpa using few)
      (by rwa [grown.k])
    refine ⟨after, free'', levels'', ?_, by simpa using final, sameK.trans grown.k, sameMin.trans grown.minValue,
      sameMax.trans grown.maxValue⟩
    rw [foldlM_cons, first]
    exact rest

omit [Inhabited α]

theorem Holds.widen (holds : Holds traits sketch free levels base) (length : base.length = values.length)
    (sub : ∀ item ∈ base, item ∈ values) : Holds traits sketch free levels values :=
  ⟨holds.laid, ⟨⟨holds.tower.zero, holds.tower.ordered, holds.tower.weight.trans length,
    fun item mem => sub item (holds.tower.kept item mem)⟩, holds.tower.filled, holds.tower.top⟩, holds.size⟩

theorem Sketches.level_zero (sketches : Sketches traits sketch values) : sketch.level 0 = sketch.levelsOf.getD 0 [] :=
  level_eq_getD sketches.tower.2 0

theorem Sketches.level_zero_nil (sketches : Sketches traits sketch values) (none : sketch.n = 0) :
    sketch.level 0 = [] := by
  have tower := sketches.tower.1
  have bound := weight_bare tower.filled
  rw [tower.weight, ← sketches.count, none] at bound
  rw [sketches.level_zero]
  exact length_eq_zero_iff.mp (by omega)

variable (each : List.Forall₂ (Sketches traits) others lists)
include each

theorem bottoms_eq :
    ((others.map toView).filter fun other => other.n ≠ 0).flatMap (fun other => other.level 0) =
      (others.map (·.level 0)).flatten := by
  induction each with
  | nil => rfl
  | @cons other list others lists first rest ih =>
    rw [map_cons, map_cons, flatten_cons, ← ih, filter_cons]
    split_ifs with some
    · rfl
    · have none : (toView other).n = 0 := by simpa using some
      rw [first.level_zero_nil none]
      rfl

/-- The weights of the levels zero and of the levels above. -/
theorem sum_weights :
    (others.map (·.level 0)).flatten.length + (others.map fun other => weight (bare other.levelsOf)).sum =
      lists.flatten.length := by
  induction each with
  | nil => rfl
  | cons first rest ih =>
    have tower := first.tower.1
    have parts := weight_bare tower.filled
    rw [tower.weight, ← first.level_zero] at parts
    simp only [map_cons, flatten_cons, length_append, sum_cons]
    omega

theorem mem_bottoms {item : α} (mem : item ∈ (others.map (·.level 0)).flatten) : item ∈ lists.flatten := by
  obtain ⟨level, inLevels, inside⟩ := mem_flatten.mp mem
  obtain ⟨other, inOthers, rfl⟩ := mem_map.mp inLevels
  obtain ⟨list, inLists, sketches⟩ := exists_sketches each inOthers
  rw [sketches.level_zero] at inside
  exact mem_flatten.mpr ⟨list, inLists, sketches.tower.1.kept item (mem_flatten_iff_getD.mpr ⟨0, inside⟩)⟩

end

section

omit [Inhabited α]

section

variable (laid : Laid sketch free levels)
include laid

theorem Laid.length_bare (filled : levels ≠ []) : (bare sketch.levelsOf).length = sketch.numLevels := by
  rw [laid.levelsOf, laid.numLevels, bare, length_cons, length_tail]
  have positive := length_pos_iff.mpr filled
  omega

theorem Laid.higher (filled : levels ≠ []) :
    sketch.levels.getLastD 0 - sketch.levels.getD 1 0 = (bare sketch.levelsOf).flatten.length := by
  obtain ⟨level, rest, rfl⟩ := exists_cons_of_ne_nil filled
  have first := laid.levelAt (Nat.le_add_left 1 _)
  have last : sketch.levels.getLastD 0 = free.length + (level :: rest).flatten.length := by
    rw [laid.levels, offsets]
    simp
  rw [KllSketch.levelAt] at first
  rw [first, last, laid.levelsOf]
  simp [bare]
  omega

theorem Laid.bare_single (filled : levels ≠ []) (low : ¬2 ≤ (toView sketch).numLevels) :
    bare sketch.levelsOf = [[]] := by
  obtain ⟨level, rest, rfl⟩ := exists_cons_of_ne_nil filled
  have count : (toView sketch).numLevels = rest.length + 1 := laid.numLevels
  have none : rest = [] := length_eq_zero_iff.mp (by omega)
  rw [laid.levelsOf, none]
  rfl

end

theorem sum_higher (each : List.Forall₂ (Sketches traits) others lists) :
    (((others.map toView).filter fun other => 2 ≤ other.numLevels).map fun other =>
      other.levels.getLastD 0 - other.levels.getD 1 0).sum =
        (others.map fun other => (bare other.levelsOf).flatten.length).sum := by
  induction each with
  | nil => rfl
  | @cons other list others lists first rest ih =>
    obtain ⟨free, levels, holds⟩ := first.holds
    rw [map_cons, map_cons, sum_cons, ← ih, filter_cons]
    split_ifs with high
    · rw [map_cons, sum_cons]
      exact congrArg (· + _) (holds.laid.higher holds.tower.filled)
    · rw [holds.laid.bare_single holds.tower.filled (by simpa using high)]
      simp

theorem max_higher (each : List.Forall₂ (Sketches traits) others lists) {most : Nat} (positive : 0 < most) :
    ((others.map toView).filter fun other => 2 ≤ other.numLevels).foldl (fun most other =>
      max most other.numLevels) most =
      (others.map fun other => bare other.levelsOf).foldl (fun most levels => max most levels.length) most := by
  induction each generalizing most with
  | nil => rfl
  | @cons other list others lists first rest ih =>
    obtain ⟨free, levels, holds⟩ := first.holds
    rw [map_cons, map_cons, foldl_cons, filter_cons]
    split_ifs with high
    · rw [foldl_cons, ih (Nat.lt_of_lt_of_le positive (Nat.le_max_left ..)),
        holds.laid.length_bare holds.tower.filled]
      rfl
    · rw [holds.laid.bare_single holds.tower.filled (by simpa using high), length_singleton,
        Nat.max_eq_left positive, ih positive]

theorem sum_bare_le (each : List.Forall₂ (Sketches traits) others lists) :
    (others.map fun other => (bare other.levelsOf).flatten.length).sum ≤ (others.map getNumRetained).sum := by
  induction each with
  | nil => exact Nat.le_refl 0
  | @cons other list others lists first rest ih =>
    obtain ⟨free, levels, holds⟩ := first.holds
    obtain ⟨level, upper, rfl⟩ := exists_cons_of_ne_nil holds.tower.filled
    have fewer : (bare other.levelsOf).flatten.length ≤ other.getNumRetained := by
      rw [holds.laid.getNumRetained, holds.laid.levelsOf]
      simp [bare]
    exact Nat.add_le_add fewer ih

section

variable (joined : Joined traits sketch free levels base others lists values)
include joined

theorem Joined.count : sketch.getNumRetained + (others.map fun other => (bare other.levelsOf).flatten.length).sum =
    (together sketch others).flatten.length := by
  have laid := joined.holds.laid
  rw [laid.getNumRetained, together, length_flatten_foldl_pileUp, laid.levelsOf, map_map]
  rfl

/-- What is merged is no more than the sketch can hold and the other sketches do. -/
theorem Joined.count_lt (few : base.length < 2 ^ kMaxLevel)
    (narrow : total traits sketch.k kMaxLevel + (others.map getNumRetained).sum < 2 ^ 31) :
    (together sketch others).flatten.length < 2 ^ 31 := by
  have holds := joined.holds
  have height := holds.tower.length_le few (by decide)
  have most := total_mono traits sketch.k height
  have size := holds.size
  rw [holds.laid.length_items] at size
  have foreign := sum_bare_le joined.each
  rw [← joined.count, holds.laid.getNumRetained]
  omega

end

end

theorem Joined.mergeHigher (lawful : traits.Lawful)
    (joined : Joined traits sketch free levels base others lists values) (few : values.length < 2 ^ kMaxLevel)
    (narrow : (together sketch others).flatten.length < 2 ^ 31) :
    ∃ after, KllSketch.mergeHigher traits sketch (others.map toView) values.length = .ok after ∧ Alike sketch after ∧
      ∃ free levels, Holds traits after free levels values := by
  have holds := joined.holds
  have positive : 0 < sketch.numLevels := by
    rw [holds.laid.numLevels]
    exact length_pos_iff.mpr holds.tower.filled
  have height : (others.map fun other => bare other.levelsOf).foldl (fun most levels => max most levels.length)
      sketch.numLevels = (together sketch others).length := by
    rw [together, length_foldl_pileUp, holds.laid.levelsOf, holds.laid.numLevels]
  unfold KllSketch.mergeHigher
  simp only [sum_higher joined.each, max_higher joined.each positive, joined.count, height]
  split_ifs with more
  · exact joined.mergeHigherLevels lawful few narrow
  · have none : (others.map fun other => (bare other.levelsOf).flatten.length).sum = 0 := by
      have count := joined.count
      omega
    have weightless : (others.map fun other => weight (bare other.levelsOf)).sum = 0 := by
      have towers := sum_weights_eq_zero (others.map fun other => bare other.levelsOf)
      rw [map_map, map_map] at towers
      exact towers none
    exact ⟨sketch, rfl, Alike.refl sketch, free, levels, holds.widen (by have sum := joined.sum; omega) joined.own⟩

/-- A merged sketch stands for the values of all sketches. -/
theorem Sketches.mergeViews (lawful : traits.Lawful) (sketches : Sketches traits sketch values)
    (each : List.Forall₂ (Sketches traits) others lists) (few : (values ++ lists.flatten).length < 2 ^ kMaxLevel)
    (narrow : total traits sketch.k kMaxLevel + (others.map getNumRetained).sum < 2 ^ 31) :
    ∃ after, mergeViews traits sketch (others.map toView) = .ok after ∧ after.k = sketch.k ∧
      Sketches traits after (values ++ lists.flatten) := by
  have power : 2 ^ kMaxLevel < 2 ^ 64 := by decide
  obtain ⟨newMin, newMax, range, extremes⟩ := mergeRange_spec lawful each sketches.extremes (by omega)
  obtain ⟨free, levels, holds⟩ := sketches.holds
  have start : Holds traits { sketch with minValue := newMin, maxValue := newMax } free levels values :=
    ⟨⟨holds.laid.items, holds.laid.levels⟩, holds.tower, holds.size⟩
  have bottoms := sum_weights each
  have total : (values ++ lists.flatten).length = values.length + lists.flatten.length := length_append
  have few' : (values ++ (others.map (·.level 0)).flatten).length < 2 ^ kMaxLevel := by
    rw [length_append]
    omega
  obtain ⟨inserted, free', levels', inserts, kept, sameK, sameMin, sameMax⟩ :=
    start.doInserts lawful few' (Nat.lt_of_le_of_lt (Nat.le_add_right ..) narrow)
  have own : ∀ item ∈ values ++ (others.map (·.level 0)).flatten, item ∈ values ++ lists.flatten := by
    intro item mem
    rcases mem_append.mp mem with old | new
    · exact mem_append_left _ old
    · exact mem_append_right _ (mem_bottoms each new)
  have foreign : ∀ list ∈ lists, ∀ item ∈ list, item ∈ values ++ lists.flatten := fun list inLists item inside =>
    mem_append_right _ (mem_flatten.mpr ⟨list, inLists, inside⟩)
  have joined : Joined traits inserted free' levels' _ others lists (values ++ lists.flatten) :=
    ⟨kept, each, by rw [length_append]; omega, own, foreign⟩
  obtain ⟨after, merged, alike, final⟩ := joined.mergeHigher lawful few
    (joined.count_lt few' (by rwa [sameK]))
  rw [← sketches.count] at range
  unfold KllSketch.mergeViews
  rw [range]
  by_cases same : (values ++ lists.flatten).length = sketch.n
  · have none : lists.flatten = [] := length_eq_zero_iff.mp (by rw [sketches.count] at same; omega)
    refine ⟨_, if_pos same, rfl, ⟨free, levels, start.widen (by rw [none, append_nil]) ?_⟩, same.symm, extremes⟩
    exact fun item mem => mem_append_left _ mem
  · refine ⟨{ after with n := (values ++ lists.flatten).length }, (if_neg same).trans ?_, alike.k.trans sameK, ?_, rfl,
      ?_⟩
    · simp only [bottoms_eq each, inserts]
      change (mergeHigher traits inserted _ _ >>= _) = _
      rw [merged]
      rfl
    · obtain ⟨free, levels, final⟩ := final
      exact ⟨free, levels, ⟨final.laid.items, final.laid.levels⟩, final.tower, final.size⟩
    · change Extremes traits after.minValue after.maxValue _
      rw [alike.minValue, alike.maxValue, sameMin, sameMax]
      exact extremes

end CactusDB.Functions.KllSketch
