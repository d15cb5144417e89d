import CactusDB.Functions.KllSketch

/-! The levels of a sketch and what the steps of an insertion do to them. -/

namespace CactusDB.Functions

open Library Buffer Levels KllBuffers List

/-- What the code relies on: a strict weak order, a sort that sorts, a queue with a least item at its top, and values
that are the bytes they are stored as. -/
structure KllTraits.Lawful {α : Type} (traits : KllTraits α) : Prop where
  order : IsStrictWeakOrder α fun one other => traits.less one other = true
  sort_perm : ∀ items, (traits.sort items).Perm items
  sort_sorted : ∀ items, (traits.sort items).Pairwise fun one other => traits.less other one = false
  top_lt : ∀ queue : List (List α), queue ≠ [] → (∀ range ∈ queue, range ≠ []) → traits.top queue < queue.length
  top_least : ∀ queue : List (List α), (∀ range ∈ queue, range ≠ []) → ∀ one other,
    (queue.getD (traits.top queue) []).head? = some one → some other ∈ queue.map List.head? →
      traits.less other one = false
  scaled_zero : ∀ k, traits.scaled k 0 = k
  encode_length : ∀ value, (traits.encode value).length = traits.width
  decode_encode : ∀ value, traits.decode (traits.encode value) = value

namespace KllSketch

variable {α : Type} [Inhabited α] {traits : KllTraits α}

section

def capacity (traits : KllTraits α) (k depth : Nat) : Nat := max kMinBufferWidth (traits.scaled k depth)

def total (traits : KllTraits α) (k : Nat) : Nat → Nat
  | 0 => 0
  | numLevels + 1 => total traits k numLevels + capacity traits k numLevels

omit [Inhabited α]

variable (traits : KllTraits α)

theorem eight_le_capacity (k depth : Nat) : 8 ≤ capacity traits k depth := Nat.le_max_left ..

theorem levelCapacity_eq (k : Nat) {numLevels height : Nat} (bound : numLevels ≤ kMaxLevel)
    (inside : height < numLevels) :
    levelCapacity traits k numLevels height = .ok (capacity traits k (numLevels - height - 1)) := by
  unfold levelCapacity
  rw [if_pos (by omega)]
  rfl

theorem sum_capacities (k numLevels : Nat) :
    ((List.range numLevels).map fun height => capacity traits k (numLevels - height - 1)).sum =
      total traits k numLevels := by
  induction numLevels with
  | zero => rfl
  | succ numLevels ih =>
    have later : (fun height => capacity traits k (numLevels + 1 - height - 1)) ∘ Nat.succ =
        fun height => capacity traits k (numLevels - height - 1) := by
      funext height
      have depth : numLevels + 1 - (height + 1) - 1 = numLevels - height - 1 := by omega
      exact congrArg (capacity traits k) depth
    rw [range_succ_eq_map, map_cons, map_map, later, sum_cons, ih, total]
    exact Nat.add_comm ..

theorem foldlM_add (amount : Nat → Nat) {step : Nat → Nat → Except KllFailure Nat} {list : List Nat}
    (each : ∀ item ∈ list, ∀ sum, step sum item = .ok (sum + amount item)) (start : Nat) :
    list.foldlM step start = .ok (start + (list.map amount).sum) := by
  induction list generalizing start with
  | nil => rfl
  | cons item rest ih =>
    have later := ih (fun other mem => each other (mem_cons_of_mem item mem)) (start + amount item)
    rw [foldlM_cons, each item mem_cons_self]
    change rest.foldlM step (start + amount item) = _
    rw [later, map_cons, sum_cons, Nat.add_assoc]

theorem computeTotalCapacity_eq (k : Nat) {numLevels : Nat} (bound : numLevels ≤ kMaxLevel) :
    computeTotalCapacity traits k numLevels = .ok (total traits k numLevels) := by
  unfold computeTotalCapacity
  rw [foldlM_add (fun height => capacity traits k (numLevels - height - 1)) _ 0, sum_capacities, Nat.zero_add]
  intro height mem sum
  rw [levelCapacity_eq traits k bound (mem_range.mp mem)]
  rfl

theorem total_mono (k : Nat) {fewer more : Nat} (order : fewer ≤ more) :
    total traits k fewer ≤ total traits k more := by
  induction order with
  | refl => exact Nat.le_refl _
  | step _ ih => exact Nat.le_trans ih (Nat.le_add_right ..)

variable {traits} in
theorem le_total_one (lawful : traits.Lawful) (k : Nat) : k ≤ total traits k 1 := by
  rw [total, total, Nat.zero_add, capacity, lawful.scaled_zero]
  exact Nat.le_max_right ..

end

section

omit [Inhabited α]

/-- The levels fill the buffer behind some free places. -/
structure Laid (sketch : KllSketch α) (free : List α) (levels : List (List α)) : Prop where
  items : sketch.items = free ++ levels.flatten
  levels : sketch.levels = offsets free.length levels

variable {sketch : KllSketch α} {free : List α} {levels : List (List α)}

namespace Laid

section

variable (laid : Laid sketch free levels)
include laid

theorem numLevels : sketch.numLevels = levels.length := by
  rw [KllSketch.numLevels, laid.levels, length_offsets, Nat.add_sub_cancel]

theorem levelAt {index : Nat} (bound : index ≤ levels.length) :
    sketch.levelAt index = free.length + (levels.take index).flatten.length := by
  rw [KllSketch.levelAt, laid.levels, getD_offsets bound]

theorem safeLevelSize (index : Nat) :
    sketch.safeLevelSize index = (levels.getD index []).length := by
  unfold KllSketch.safeLevelSize
  rw [laid.numLevels]
  split_ifs with inside
  · rw [laid.levelAt inside, laid.levelAt (Nat.le_of_lt inside), take_succ_eq_append_getElem inside,
      flatten_append, length_append, getD_eq_getElem _ _ inside]
    simp
    omega
  · rw [getD_eq_default _ _ (Nat.le_of_not_lt inside)]
    rfl

theorem level (index : Nat) : sketch.level index = levels.getD index [] := by
  unfold KllSketch.level
  rw [laid.safeLevelSize]
  by_cases inside : index < levels.length
  · rw [laid.levelAt (Nat.le_of_lt inside), laid.items]
    have parts : levels = levels.take index ++ levels[index] :: levels.drop (index + 1) := by
      rw [← drop_eq_getElem_cons inside, take_append_drop]
    have flat : levels.flatten = (levels.take index).flatten ++
      (levels[index] ++ (levels.drop (index + 1)).flatten) := by
      rw [← flatten_cons, ← flatten_append, ← parts]
    rw [flat, getD_eq_getElem _ _ inside, ← append_assoc, ← length_append]
    exact slice_at rfl rfl
  · rw [getD_eq_default _ _ (Nat.le_of_not_lt inside)]
    exact slice_zero ..

end

theorem levelZero {level : List α} {rest : List (List α)} (laid : Laid sketch free (level :: rest)) :
    slice sketch.items (sketch.levelAt 0) (sketch.levelAt 1 - sketch.levelAt 0) = level := by
  have items := laid.level 0
  rw [KllSketch.level, KllSketch.safeLevelSize, laid.numLevels, if_pos (by simp)] at items
  exact items

theorem getNumRetained (laid : Laid sketch free levels) : sketch.getNumRetained = levels.flatten.length := by
  unfold KllSketch.getNumRetained
  rw [laid.levelAt (Nat.zero_le _), laid.levels, offsets]
  simp

theorem length_items (laid : Laid sketch free levels) : sketch.items.length = free.length + levels.flatten.length := by
  rw [laid.items, length_append]

end Laid

end

variable {sketch : KllSketch α} {free : List α} {levels : List (List α)}

theorem Laid.shift (laid : Laid sketch free levels) (delta : Nat) :
    ∃ more, more.length = free.length + delta ∧ Laid (sketch.shiftItems delta) more levels := by
  let room := sketch.items ++ List.replicate delta default
  have long : delta ≤ room.length := by simp [room]
  have moved : (sketch.shiftItems delta).items = room.take delta ++ sketch.items := by
    change overwrite room delta sketch.items = _
    have rest : room.drop (delta + sketch.items.length) = [] := drop_eq_nil_of_le (by simp [room]; omega)
    rw [overwrite, rest, append_nil]
  refine ⟨room.take delta ++ free, ?_, ?_, ?_⟩
  · rw [length_append, length_take_of_le long, Nat.add_comm]
  · rw [moved, laid.items, append_assoc]
  · change sketch.levels.map (· + delta) = _
    rw [laid.levels, ← offsets_shift, length_append, length_take_of_le long, Nat.add_comm]

omit [Inhabited α] in
theorem Laid.addTop (laid : Laid sketch free levels) :
    Laid { sketch with levels := sketch.levels ++ [sketch.levels.getLastD 0] } free (levels ++ [[]]) := by
  refine ⟨?_, ?_⟩
  · rw [flatten_append]
    simpa using laid.items
  · change sketch.levels ++ [sketch.levels.getLastD 0] = _
    rw [laid.levels, offsets, offsets, starts_append, flatten_append]
    simp [starts]

omit [Inhabited α] in
/-- A level is an odd item, where there is one, and an even number of others. -/
theorem exists_odd_even (items : List α) : ∃ odd even count, items = odd ++ even ∧ odd.length = items.length % 2 ∧
    even.length = 2 * count ∧ count = items.length / 2 := by
  refine ⟨items.take (items.length % 2), items.drop (items.length % 2), items.length / 2, ?_, ?_, ?_, rfl⟩
  · exact (take_append_drop ..).symm
  · exact length_take_of_le (Nat.mod_le ..)
  · rw [length_drop]
    omega

theorem set_odd (pre odd junk post : List α) {start place : Nat} (atStart : start = pre.length + junk.length)
    (atPlace : place = pre.length) (single : odd.length ≤ 1) :
    ∃ gap, gap.length = junk.length ∧
      (if odd.length = 1 ∧ start ≠ place then
        (pre ++ (odd ++ (junk ++ post))).set start ((pre ++ (odd ++ (junk ++ post))).getD place default)
      else pre ++ (odd ++ (junk ++ post))) = pre ++ (gap ++ (odd ++ post)) := by
  match odd, single with
  | [], _ => exact ⟨junk, rfl, by simp⟩
  | [item], _ =>
    rcases eq_nil_or_concat junk with rfl | ⟨front, last, rfl⟩
    · refine ⟨[], rfl, ?_⟩
      rw [if_neg (by simp [atStart, atPlace])]
      rfl
    · refine ⟨item :: front, by simp, ?_⟩
      rw [concat_eq_append] at atStart ⊢
      have read : (pre ++ ([item] ++ ((front ++ [last]) ++ post))).getD place default = item := getD_at atPlace
      have parts : pre ++ ([item] ++ ((front ++ [last]) ++ post)) = (pre ++ item :: front) ++ last :: post := by simp
      rw [if_pos ⟨rfl, by simp [atStart, atPlace]⟩, read, parts, set_at (by simp [atStart])]
      simp

omit [Inhabited α] in
/-- The levels below move up into the places that are left. -/
theorem move_up (free lower gap post : List α) {bottom : Nat} (atBottom : bottom = free.length) :
    ∃ more, more.length = gap.length ∧
      overwrite (free ++ (lower ++ (gap ++ post))) (bottom + gap.length)
        (slice (free ++ (lower ++ (gap ++ post))) bottom lower.length) = free ++ (more ++ (lower ++ post)) := by
  subst atBottom
  refine ⟨(lower ++ gap).take gap.length, length_take_of_le (by simp), ?_⟩
  rw [slice_at rfl rfl]
  have parts : free ++ (lower ++ (gap ++ post)) =
      (free ++ (lower ++ gap).take gap.length) ++ ((lower ++ gap).drop gap.length ++ post) := by
    rw [append_assoc, ← append_assoc (List.take ..), take_append_drop, append_assoc]
  have place : free.length + gap.length = (free ++ (lower ++ gap).take gap.length).length := by
    rw [length_append, length_take_of_le (by simp)]
  rw [parts, place, overwrite_middle (by simp), append_assoc]

/-- What compacting makes of two neighbouring levels: of the lower one only an odd item stays, and half of the others
are merged into the upper one. -/
structure Compacted (traits : KllTraits α) (mustSort : Bool) (lower upper odd merged : List α) : Prop where
  intro ::
  parts : ∃ even second, lower = odd ++ even ∧ odd.length = lower.length % 2 ∧
    merged = List.merge (half second (if mustSort then traits.sort even else even)) upper traits.less

theorem Laid.compactLevel (traits : KllTraits α) (sorts : ∀ items, (traits.sort items).Perm items)
    {below above : List (List α)} {lower upper : List α} (laid : Laid sketch free (below ++ lower :: upper :: above)) :
    ∃ more odd merged, Compacted traits (below.length = 0 && !sketch.isLevelZeroSorted) lower upper odd merged ∧
      more.length = free.length + lower.length / 2 ∧
      Laid (KllSketch.compactLevel traits sketch below.length) more (below ++ odd :: merged :: above) := by
  obtain ⟨odd, even, count, split, oddSize, evenSize, halves⟩ := exists_odd_even lower
  have size : lower.length = odd.length + 2 * count := by omega
  have single : odd.length ≤ 1 := by omega
  -- The places the code computes.
  obtain ⟨raw, atStart⟩ : ∃ raw, raw = free.length + below.flatten.length := ⟨_, rfl⟩
  have atRaw : sketch.levelAt below.length = raw := by rw [laid.levelAt (by simp), take_left, atStart]
  have atLim : sketch.levelAt (below.length + 1) = raw + lower.length := by
    rw [laid.levelAt (by simp), take_length_add_append, flatten_append, length_append, atStart, Nat.add_assoc]
    simp
  have atAbove : sketch.levelAt (below.length + 2) = raw + lower.length + upper.length := by
    rw [laid.levelAt (by simp), take_length_add_append, flatten_append, length_append]
    simp only [take_succ_cons, take_zero, flatten_cons, flatten_nil, append_nil, length_append]
    omega
  obtain ⟨pre, preEq⟩ : ∃ pre, pre = free ++ below.flatten := ⟨_, rfl⟩
  have preSize : pre.length = raw := by rw [preEq, length_append, atStart]
  have items : sketch.items = (pre ++ odd) ++ (even ++ (upper ++ above.flatten)) := by
    rw [laid.items, split, preEq]
    simp
  obtain ⟨junk, second, junkSize, halfSize, compacted⟩ := compactRange_spec traits.less sorts (pre ++ odd) upper
    above.flatten evenSize (below.length = 0 && !sketch.isLevelZeroSorted) (sketch.randomBit 0)
  obtain ⟨merged, mergedEq⟩ : ∃ merged, merged = List.merge (half second
    (if (below.length = 0 && !sketch.isLevelZeroSorted) = true then traits.sort even else even)) upper traits.less :=
      ⟨_, rfl⟩
  rw [← items, ← mergedEq, append_assoc pre] at compacted
  have mergedSize : merged.length = count + upper.length := by
    rw [mergedEq, (merge_perm_append ..).length_eq, length_append, halfSize]
  have oddStart : raw + lower.length - count - odd.length = pre.length + junk.length := by omega
  obtain ⟨gap, gapSize, placed⟩ := set_odd pre odd junk (merged ++ above.flatten) oddStart preSize.symm single
  have whole : raw + lower.length - raw = lower.length := by omega
  have wholeAbove : raw + lower.length + upper.length - (raw + lower.length) = upper.length := by omega
  have rest : lower.length - odd.length = even.length := by omega
  have halved : even.length / 2 = count := by omega
  have begins : raw + odd.length = (pre ++ odd).length := by rw [length_append, preSize]
  have levels : sketch.levels = starts free.length below ++ raw :: (raw + lower.length) ::
      offsets (raw + lower.length + upper.length) above := by
    rw [laid.levels, offsets_append, offsets_cons, offsets_cons, atStart]
  have written : (sketch.levels.set (below.length + 1) (raw + lower.length - count)).set below.length
      (raw + lower.length - count - odd.length) = starts free.length below ++
        (raw + lower.length - count - odd.length) :: (raw + lower.length - count) ::
          offsets (raw + lower.length + upper.length) above := by
    rw [levels, ← length_starts free.length below]
    simp
  generalize result : KllSketch.compactLevel traits sketch below.length = after
  simp only [KllSketch.compactLevel, atRaw, atLim, atAbove, whole, wholeAbove, ← oddSize, rest, halved, begins,
    compacted, placed, written] at result
  have changed : after.levels = offsets (free.length + count) (below ++ odd :: merged :: above) := by
    rw [← result]
    dsimp only
    rw [take_left' (length_starts ..), drop_left' (length_starts ..), offsets_append, offsets_cons, offsets_cons,
      starts_shift]
    congr 3
    · omega
    · omega
    · congr 1
      omega
  have moved : ∃ more, more.length = free.length + count ∧
      after.items = more ++ (below.flatten ++ (odd ++ (merged ++ above.flatten))) := by
    rw [← result]
    dsimp only
    cases below with
    | nil =>
      refine ⟨free ++ gap, by rw [length_append, gapSize, junkSize], ?_⟩
      rw [if_neg (by simp), preEq]
      simp
    | cons level below =>
      obtain ⟨more, moreSize, moved⟩ := move_up free (level :: below).flatten gap (odd ++ (merged ++ above.flatten)) rfl
      refine ⟨free ++ more, by rw [length_append, moreSize, gapSize, junkSize], ?_⟩
      rw [if_pos (by simp), starts, cons_append, getD_cons_zero, atStart, Nat.add_sub_cancel_left, preEq, append_assoc,
        ← junkSize, ← gapSize, moved, append_assoc]
  obtain ⟨more, moreSize, items⟩ := moved
  refine ⟨more, odd, merged, ⟨even, second, split, oddSize, mergedEq⟩, by omega, ?_, ?_⟩
  · rw [items, flatten_append, flatten_cons, flatten_cons]
  · rw [changed, moreSize]

end KllSketch

end CactusDB.Functions
