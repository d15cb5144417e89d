import CactusDB.Functions.KllTower

/-! Insertions and sorting keep the weight of a sketch. -/

namespace CactusDB.Functions.KllSketch

open Library Buffer Levels Fallible WeakOrder KllBuffers List KllSketch

variable {α : Type} [Inhabited α] {traits : KllTraits α} {sketch : KllSketch α} {free : List α}
  {levels : List (List α)} {values : List α}

section

omit [Inhabited α]

structure Holds (traits : KllTraits α) (sketch : KllSketch α) (free : List α) (levels : List (List α))
    (values : List α) : Prop where
  laid : Laid sketch free levels
  tower : Tower traits sketch.isLevelZeroSorted levels values
  size : sketch.items.length ≤ total traits sketch.k levels.length

structure Alike (before after : KllSketch α) : Prop where
  k : after.k = before.k
  n : after.n = before.n
  minValue : after.minValue = before.minValue
  maxValue : after.maxValue = before.maxValue
  isLevelZeroSorted : after.isLevelZeroSorted = before.isLevelZeroSorted

theorem Alike.refl (sketch : KllSketch α) : Alike sketch sketch := ⟨rfl, rfl, rfl, rfl, rfl⟩

end

section

omit [Inhabited α] in
theorem Compacted.flatten_length (lawful : traits.Lawful) {mustSort : Bool} {lower upper odd merged : List α}
    (compacted : Compacted traits mustSort lower upper odd merged) (below above : List (List α)) :
    lower.length / 2 + (below ++ odd :: merged :: above).flatten.length =
      (below ++ lower :: upper :: above).flatten.length := by
  have sizes := compacted.length_merged lawful.sort_perm
  have oddSize := compacted.length_odd
  simp only [flatten_append, flatten_cons, length_append]
  omega

theorem Holds.compactLevel (lawful : traits.Lawful) {below above : List (List α)} {lower upper : List α}
    (holds : Holds traits sketch free (below ++ lower :: upper :: above) values) (enough : 2 ≤ lower.length) :
    ∃ more levels, more ≠ [] ∧ Holds traits (compactLevel traits sketch below.length) more levels values := by
  obtain ⟨more, odd, merged, compacted, moreSize, laid⟩ := holds.laid.compactLevel traits lawful.sort_perm
  refine ⟨more, _, ?_, laid, compacted.tower lawful holds.tower.toPile enough holds.tower.top_above, ?_⟩
  · rw [← length_pos_iff]
    omega
  · have before := holds.size
    have same := compacted.flatten_length lawful below above
    rw [holds.laid.length_items] at before
    rw [laid.length_items, moreSize]
    have length : (below ++ odd :: merged :: above).length = (below ++ lower :: upper :: above).length := by simp
    rw [length]
    change _ ≤ total traits sketch.k _
    omega

theorem Laid.addEmptyTop (traits : KllTraits α) (laid : Laid sketch free levels) (few : levels.length < kMaxLevel) :
    ∃ after room, addEmptyTopLevelToCompletelyFullSketch traits sketch = .ok after ∧ Alike sketch after ∧
      room.length = free.length + capacity traits sketch.k levels.length ∧ Laid after room (levels ++ [[]]) := by
  have delta : levelCapacity traits sketch.k (levels.length + 1) 0 = .ok (capacity traits sketch.k levels.length) :=
    levelCapacity_eq traits sketch.k few (Nat.succ_pos _)
  obtain ⟨room, roomSize, shifted⟩ := laid.shift (capacity traits sketch.k levels.length)
  refine ⟨_, room, ?_, ?_, roomSize, shifted.addTop⟩
  · rw [addEmptyTopLevelToCompletelyFullSketch, laid.numLevels, delta]
    rfl
  · exact ⟨rfl, rfl, rfl, rfl, rfl⟩

/-- A completely full sketch gets a new level, and its top level is compacted into it. -/
theorem Holds.addTop (lawful : traits.Lawful) {lower : List (List α)} {top : List α}
    (holds : Holds traits sketch free (lower ++ [top]) values) (few : values.length < 2 ^ kMaxLevel)
    (enough : 2 ≤ top.length) :
    ∃ added more levels, addEmptyTopLevelToCompletelyFullSketch traits sketch = .ok added ∧ more ≠ [] ∧
      Alike sketch (KllSketch.compactLevel traits added lower.length) ∧
      Holds traits (KllSketch.compactLevel traits added lower.length) more levels values := by
  have height : lower.length + 1 < kMaxLevel := by
    have worth := holds.tower.weight
    have double := Nat.mul_le_mul_left (2 ^ lower.length) enough
    rw [weight_append, weight_singleton] at worth
    have power : 2 ^ (lower.length + 1) < 2 ^ kMaxLevel := by
      rw [Nat.pow_succ]
      omega
    exact (Nat.pow_lt_pow_iff_right (by decide)).mp power
  obtain ⟨added, room, result, alike, roomSize, laid⟩ := holds.laid.addEmptyTop traits (by simpa using height)
  rw [append_assoc, singleton_append] at laid
  obtain ⟨more, odd, merged, compacted, moreSize, laid'⟩ := laid.compactLevel traits lawful.sort_perm
  have pile := holds.tower.toPile.addTop holds.tower.filled
  rw [append_assoc, singleton_append, ← alike.isLevelZeroSorted] at pile
  have tower := compacted.tower lawful pile enough (by simp)
  refine ⟨added, more, _, result, ?_, ?_, laid', tower, ?_⟩
  · rw [← length_pos_iff]
    omega
  · exact ⟨alike.k, alike.n, alike.minValue, alike.maxValue, alike.isLevelZeroSorted⟩
  · have before := holds.size
    have same := compacted.flatten_length lawful lower []
    have length : (lower ++ [odd, merged]).length = (lower ++ [top]).length + 1 := by simp
    rw [holds.laid.length_items] at before
    rw [laid'.length_items, moreSize, roomSize, length, total]
    have flat : (lower ++ [top, []]).flatten.length = (lower ++ [top]).flatten.length := by simp
    change _ ≤ total traits added.k _ + capacity traits added.k _
    rw [alike.k]
    omega

omit [Inhabited α] in
/-- The room that is missing is a signed number of 32 bits. -/
theorem Holds.delta (holds : Holds traits sketch free levels values) (height : levels.length ≤ kMaxLevel)
    (narrow : total traits sketch.k kMaxLevel < 2 ^ 31) :
    FixedWidth.signed 32 ((total traits sketch.k levels.length : Int) - sketch.items.length) =
      ((total traits sketch.k levels.length - sketch.items.length : Nat) : Int) := by
  have most := total_mono traits sketch.k height
  rw [← Int.natCast_sub holds.size]
  exact FixedWidth.signed_natCast (by decide) (by omega)

theorem Holds.makeRoom (lawful : traits.Lawful) (holds : Holds traits sketch [] levels values)
    (few : values.length < 2 ^ kMaxLevel) (narrow : total traits sketch.k kMaxLevel < 2 ^ 31) :
    ∃ after more levels', makeRoom traits sketch = .ok after ∧ Alike sketch after ∧ more ≠ [] ∧
      Holds traits after more levels' values := by
  have height := holds.tower.length_le few (by decide)
  have filled : 0 < levels.length := length_pos_iff.mpr holds.tower.filled
  have rounds : levels.length ≤ 0 + sketch.levels.length := by
    rw [holds.laid.levels, length_offsets]
    omega
  obtain ⟨found, result, inside, full, lower⟩ := findLevelFrom_spec traits holds.laid height filled rounds
  have parts : levels = levels.take found ++ levels[found] :: levels.drop (found + 1) := by
    rw [← drop_eq_getElem_cons inside, take_append_drop]
  have place : (levels.take found).length = found := length_take_of_le (Nat.le_of_lt inside)
  have eight (depth : Nat) := eight_le_capacity traits sketch.k depth
  rw [getD_eq_getElem _ _ inside] at full
  unfold KllSketch.makeRoom findLevelToCompact
  rw [result, holds.laid.numLevels, computeTotalCapacity_eq traits sketch.k height]
  simp only [ok_bind, holds.delta height narrow, Int.toNat_natCast]
  by_cases last : found = levels.length - 1
  · have none : levels.drop (found + 1) = [] := drop_eq_nil_of_le (by omega)
    by_cases short : (0 : Int) < ((total traits sketch.k levels.length - sketch.items.length : Nat) : Int)
    · obtain ⟨room, roomSize, laid⟩ := holds.laid.shift (total traits sketch.k levels.length - sketch.items.length)
      refine ⟨_, room, levels, (if_pos last).trans (if_pos short), ⟨rfl, rfl, rfl, rfl, rfl⟩, ?_, laid, holds.tower, ?_⟩
      · rw [← length_pos_iff]
        omega
      · have before := holds.laid.length_items
        rw [laid.length_items, roomSize]
        change _ ≤ total traits sketch.k _
        omega
    · rw [none] at parts
      have enough : 2 ≤ levels[found].length := by
        have retained := holds.laid.length_items
        have below := flatten_add_capacity_le traits sketch.k (levels.take found) fun index under => by
          rw [place] at under ⊢
          have bound := lower index (Nat.zero_le _) under
          rw [getD_eq_getElem _ _ (by omega), getElem_take, ← getD_eq_getElem levels [] (by omega)]
          have depth : levels.length - index - 1 = found - index := by omega
          rw [← depth]
          omega
        have whole := congrArg (fun list => list.flatten.length) parts
        have count : found + 1 = levels.length := by omega
        simp only [flatten_append, length_append, flatten_cons, flatten_nil, append_nil] at whole
        rw [place, count] at below
        have least := eight 0
        rw [length_nil] at retained
        omega
      have holds' := holds
      rw [parts] at holds'
      obtain ⟨added, more, after, top, room, alike, kept⟩ := holds'.addTop lawful few enough
      rw [place] at alike kept
      refine ⟨_, more, after, (if_pos last).trans ((if_neg short).trans ?_), alike, room, kept⟩
      rw [top]
      rfl
  · obtain ⟨upper, above, rest⟩ := exists_cons_of_ne_nil (l := levels.drop (found + 1)) (by simp; omega)
    rw [rest] at parts
    have holds' := holds
    rw [parts] at holds'
    have enough : 2 ≤ levels[found].length := by
      have least := eight (levels.length - found - 1)
      omega
    obtain ⟨more, after, room, kept⟩ := holds'.compactLevel lawful enough
    rw [place] at kept
    exact ⟨_, more, after, if_neg last, ⟨rfl, rfl, rfl, rfl, rfl⟩, room, kept⟩

end

section

omit [Inhabited α] in
theorem Tower.insert {zeroSorted : Bool} {level : List α} {rest : List (List α)} {value : α} {wider : List α}
    (tower : Tower traits zeroSorted (level :: rest) values) (longer : wider.length = level.length + 1)
    (items : ∀ item ∈ wider, item ∈ level ∨ item = value) :
    Tower traits false (wider :: rest) (values ++ [value]) := by
  refine ⟨⟨fun sorted => (by cases sorted), tower.ordered, ?_, ?_⟩, cons_ne_nil _ _, ?_⟩
  · have before := tower.weight
    rw [weight] at before ⊢
    rw [length_append, length_singleton]
    omega
  · intro item mem
    rw [flatten_cons, mem_append] at mem
    rw [mem_append, mem_singleton]
    rcases mem with inWider | above
    · rcases items item inWider with old | new
      · exact .inl (tower.kept item (by simp [old]))
      · exact .inr new
    · exact .inl (tower.kept item (by rw [flatten_cons, mem_append]; exact .inr above))
  · intro top last two
    cases rest with
    | nil => simp at two
    | cons next rest => exact tower.top top (by simpa using last) two

omit [Inhabited α] in
theorem Holds.append (lawful : traits.Lawful) {level : List α} (holds : Holds traits sketch free [level] values)
    (room : sketch.items.length < sketch.k) (value : α) :
    Holds traits { sketch with
        items := sketch.items ++ [value]
        levels := sketch.levels.set 1 (sketch.levelAt 1 + 1)
        n := (sketch.n + 1) % 2 ^ 64
        isLevelZeroSorted := false } free [level ++ [value]] (values ++ [value]) := by
  refine ⟨⟨?_, ?_⟩, ?_, ?_⟩
  · simp [holds.laid.items]
  · have stop : sketch.levelAt 1 = free.length + ([level].take 1).flatten.length := holds.laid.levelAt (by simp)
    change sketch.levels.set 1 (sketch.levelAt 1 + 1) = _
    rw [stop, holds.laid.levels]
    simp [offsets, starts]
    omega
  · refine holds.tower.insert (by simp) ?_
    intro item mem
    simpa using mem
  · change (sketch.items ++ [value]).length ≤ total traits sketch.k 1
    rw [length_append, length_singleton]
    exact Nat.le_trans room (le_total_one lawful sketch.k)

omit [Inhabited α] in
theorem Holds.place (holds : Holds traits sketch free levels values) (room : free ≠ []) (value : α) :
    ∃ less wider, Holds traits { sketch with
        items := sketch.items.set (sketch.levelAt 0 - 1) value
        levels := sketch.levels.set 0 (sketch.levelAt 0 - 1)
        n := (sketch.n + 1) % 2 ^ 64
        isLevelZeroSorted := false } less wider (values ++ [value]) := by
  obtain ⟨front, last, rfl⟩ := (eq_nil_or_concat' free).resolve_left room
  obtain ⟨level, rest, rfl⟩ := exists_cons_of_ne_nil holds.tower.filled
  have start : sketch.levelAt 0 - 1 = front.length := by
    rw [holds.laid.levelAt (Nat.zero_le _)]
    simp
  refine ⟨front, (value :: level) :: rest, ⟨?_, ?_⟩, ?_, ?_⟩
  · change sketch.items.set (sketch.levelAt 0 - 1) value = _
    rw [start, holds.laid.items]
    simp
  · change sketch.levels.set 0 (sketch.levelAt 0 - 1) = _
    rw [start, holds.laid.levels, offsets_cons, offsets_cons, set_cons_zero]
    congr 2
    simp only [length_append, length_cons, length_nil]
    omega
  · refine holds.tower.insert (length_cons ..) ?_
    intro item mem
    rcases mem_cons.mp mem with new | old
    · exact .inr new
    · exact .inl old
  · change (sketch.items.set _ value).length ≤ total traits sketch.k _
    rw [length_set]
    exact holds.size

structure Grown (before after : KllSketch α) : Prop where
  k : after.k = before.k
  n : after.n = (before.n + 1) % 2 ^ 64
  minValue : after.minValue = before.minValue
  maxValue : after.maxValue = before.maxValue

theorem Holds.doInsert (lawful : traits.Lawful) (holds : Holds traits sketch free levels values)
    (few : values.length < 2 ^ kMaxLevel) (narrow : total traits sketch.k kMaxLevel < 2 ^ 31) (value : α) :
    ∃ after free' levels', doInsert traits sketch value = .ok after ∧ Grown sketch after ∧
      Holds traits after free' levels' (values ++ [value]) := by
  unfold KllSketch.doInsert
  by_cases fresh : sketch.items.length < sketch.k ∧ sketch.numLevels = 1
  · rw [if_pos fresh]
    have single : levels.length = 1 := by rw [← holds.laid.numLevels, fresh.2]
    obtain ⟨level, rfl⟩ := length_eq_one_iff.mp single
    exact ⟨_, _, _, rfl, ⟨rfl, rfl, rfl, rfl⟩, holds.append lawful fresh.1 value⟩
  · rw [if_neg fresh]
    unfold insertPosition
    have start := holds.laid.levelAt (Nat.zero_le _)
    by_cases none : free = []
    · subst none
      obtain ⟨roomy, more, levels', made, alike, room, kept⟩ := holds.makeRoom lawful few narrow
      obtain ⟨less, wider, placed⟩ := kept.place room value
      rw [if_pos (by simpa using start), made]
      refine ⟨_, less, wider, rfl, ⟨alike.k, ?_, alike.minValue, alike.maxValue⟩, placed⟩
      exact congrArg (fun n => (n + 1) % 2 ^ 64) alike.n
    · obtain ⟨less, wider, placed⟩ := holds.place none value
      have some : sketch.levelAt 0 ≠ 0 := by
        have positive := length_pos_iff.mpr none
        omega
      rw [if_neg some]
      exact ⟨_, less, wider, rfl, ⟨rfl, rfl, rfl, rfl⟩, placed⟩

end

section

omit [Inhabited α]

structure Extremes (traits : KllTraits α) (minValue maxValue : α) (values : List α) : Prop where
  min_mem : values ≠ [] → minValue ∈ values
  max_mem : values ≠ [] → maxValue ∈ values
  min_le : ∀ value ∈ values, traits.less value minValue = false
  le_max : ∀ value ∈ values, traits.less maxValue value = false

variable {minValue maxValue otherMin otherMax : α} {others : List α}

theorem extremes_nil (traits : KllTraits α) (minValue maxValue : α) : Extremes traits minValue maxValue [] := by
  constructor <;> simp

theorem extremes_singleton (lawful : traits.Lawful) (value : α) : Extremes traits value value [value] := by
  have order := lawful.order
  have self : traits.less value value = false := less_irrefl value
  constructor <;> simp [self]

theorem least_le (lawful : traits.Lawful) (left right : α) :
    traits.less left (least traits left right) = false ∧ traits.less right (least traits left right) = false := by
  have order := lawful.order
  unfold least
  split_ifs with lower
  · exact ⟨less_asymm lower, less_irrefl right⟩
  · exact ⟨less_irrefl left, Bool.eq_false_iff.mpr lower⟩

theorem le_greatest (lawful : traits.Lawful) (left right : α) :
    traits.less (greatest traits left right) left = false ∧ traits.less (greatest traits left right) right = false := by
  have order := lawful.order
  unfold greatest
  split_ifs with higher
  · exact ⟨less_asymm higher, less_irrefl right⟩
  · exact ⟨less_irrefl left, Bool.eq_false_iff.mpr higher⟩

theorem Extremes.append (lawful : traits.Lawful) (first : Extremes traits minValue maxValue values)
    (second : Extremes traits otherMin otherMax others) (some : values ≠ []) (more : others ≠ []) :
    Extremes traits (least traits minValue otherMin) (greatest traits maxValue otherMax) (values ++ others) := by
  have order := lawful.order
  obtain ⟨minLeft, minRight⟩ := least_le lawful minValue otherMin
  obtain ⟨maxLeft, maxRight⟩ := le_greatest lawful maxValue otherMax
  refine ⟨fun _ => ?_, fun _ => ?_, ?_, ?_⟩
  · rw [mem_append, least]
    split
    · exact .inr (second.min_mem more)
    · exact .inl (first.min_mem some)
  · rw [mem_append, greatest]
    split
    · exact .inr (second.max_mem more)
    · exact .inl (first.max_mem some)
  · intro value mem
    rcases mem_append.mp mem with left | right
    · exact notLess_trans (first.min_le value left) minLeft
    · exact notLess_trans (second.min_le value right) minRight
  · intro value mem
    rcases mem_append.mp mem with left | right
    · exact notLess_trans maxLeft (first.le_max value left)
    · exact notLess_trans maxRight (second.le_max value right)

end

structure Sketches (traits : KllTraits α) (sketch : KllSketch α) (values : List α) : Prop where
  holds : ∃ free levels, Holds traits sketch free levels values
  count : sketch.n = values.length
  extremes : Extremes traits sketch.minValue sketch.maxValue values

omit [Inhabited α] in
theorem sketches_create (traits : KllTraits α) (k : Nat) (seed : Nat → Bool) (minValue maxValue : α) :
    Sketches traits (create k seed minValue maxValue) [] := by
  refine ⟨⟨[], [[]], ⟨rfl, rfl⟩, ⟨⟨fun _ => .nil, ?_, rfl, ?_⟩, cons_ne_nil _ _, ?_⟩, Nat.zero_le _⟩, rfl,
    extremes_nil ..⟩
  · intro level mem
    cases mem
  · intro item mem
    cases mem
  · intro top last two
    simp at two

theorem Sketches.insert (lawful : traits.Lawful) (sketches : Sketches traits sketch values)
    (few : values.length < 2 ^ kMaxLevel) (narrow : total traits sketch.k kMaxLevel < 2 ^ 31) (value : α) :
    ∃ after, insert traits sketch value = .ok after ∧ after.k = sketch.k ∧
      Sketches traits after (values ++ [value]) := by
  obtain ⟨free, levels, holds⟩ := sketches.holds
  have count := sketches.count
  have bound : kMaxLevel = 60 := rfl
  unfold KllSketch.insert
  have small : (sketch.n + 1) % 2 ^ 64 = (values ++ [value]).length := by
    have powers : 2 ^ kMaxLevel < 2 ^ 64 - 1 := by decide
    rw [length_append, length_singleton, count]
    exact Nat.mod_eq_of_lt (by omega)
  have inserted (minValue maxValue : α) (extremes : Extremes traits minValue maxValue (values ++ [value])) :
      ∃ after, doInsert traits { sketch with minValue, maxValue } value = .ok after ∧ after.k = sketch.k ∧
        Sketches traits after (values ++ [value]) := by
    have holds' : Holds traits { sketch with minValue, maxValue } free levels values :=
      ⟨⟨holds.laid.items, holds.laid.levels⟩, holds.tower, holds.size⟩
    obtain ⟨after, free', levels', done, grown, kept⟩ := holds'.doInsert lawful few narrow value
    refine ⟨after, done, grown.k, ⟨free', levels', kept⟩, grown.n.trans small, ?_⟩
    rwa [grown.minValue, grown.maxValue]
  have single := extremes_singleton lawful value
  split_ifs with zero
  · have none : values = [] := length_eq_zero_iff.mp (by omega)
    exact inserted _ _ (by rwa [none])
  · have some : values ≠ [] := fun none => zero (by rw [count, none, length_nil])
    exact inserted _ _ (sketches.extremes.append lawful single some (cons_ne_nil _ _))

omit [Inhabited α] in
theorem Holds.finish (lawful : traits.Lawful) (holds : Holds traits sketch free levels values) :
    ∃ levels', Holds traits (KllSketch.finish traits sketch) free levels' values := by
  unfold KllSketch.finish
  split_ifs with sorted
  · exact ⟨levels, holds⟩
  · obtain ⟨level, rest, rfl⟩ := exists_cons_of_ne_nil holds.tower.filled
    have perm := lawful.sort_perm level
    have zero := holds.laid.levelZero
    have start : sketch.levelAt 0 = free.length := holds.laid.levelAt (Nat.zero_le _)
    have written : overwrite sketch.items (sketch.levelAt 0) (traits.sort level) =
        free ++ (traits.sort level :: rest).flatten := by
      rw [start, holds.laid.items, flatten_cons, flatten_cons]
      exact overwrite_middle perm.length_eq
    refine ⟨traits.sort level :: rest, ⟨?_, ?_⟩, ⟨⟨?_, holds.tower.ordered, ?_, ?_⟩, cons_ne_nil _ _, ?_⟩, ?_⟩
    · change overwrite sketch.items (sketch.levelAt 0) (traits.sort (slice ..)) = _
      rw [zero, written]
    · change sketch.levels = _
      rw [holds.laid.levels, offsets_cons, offsets_cons, perm.length_eq]
    · intro _
      exact lawful.sort_sorted level
    · have before := holds.tower.weight
      rw [weight] at before ⊢
      rw [perm.length_eq, before]
    · intro item mem
      refine holds.tower.kept item ?_
      rw [flatten_cons, mem_append] at mem ⊢
      exact mem.imp_left perm.mem_iff.mp
    · intro top last two
      cases rest with
      | nil => simp at two
      | cons next rest => exact holds.tower.top top (by simpa using last) two
    · change (overwrite sketch.items (sketch.levelAt 0) (traits.sort (slice ..))).length ≤ total traits sketch.k _
      have size := holds.size
      rw [holds.laid.length_items] at size
      rw [zero, written, length_append]
      simp only [flatten_cons, length_append, length_cons, perm.length_eq] at size ⊢
      exact size

omit [Inhabited α] in
theorem finish_k (traits : KllTraits α) (sketch : KllSketch α) : (finish traits sketch).k = sketch.k := by
  unfold finish
  split_ifs <;> rfl

omit [Inhabited α] in
theorem Sketches.finish (lawful : traits.Lawful) (sketches : Sketches traits sketch values) :
    Sketches traits (finish traits sketch) values ∧ (finish traits sketch).isLevelZeroSorted = true := by
  obtain ⟨free, levels, holds⟩ := sketches.holds
  obtain ⟨levels', kept⟩ := holds.finish lawful
  have count := sketches.count
  have extremes := sketches.extremes
  refine ⟨⟨⟨free, levels', kept⟩, ?_, ?_⟩, ?_⟩
  all_goals
    unfold KllSketch.finish
    split_ifs with sorted
    all_goals first | exact count | exact extremes | exact sorted | rfl

end CactusDB.Functions.KllSketch
