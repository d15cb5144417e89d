import CactusDB.Functions.KllMergeViews

/-! Sketches as bytes, sketches of one repeated value, and the frequencies of the values. -/

namespace CactusDB.Functions.KllSketch

open Library Buffer Levels FixedWidth WeakOrder List KllSketch

variable {α : Type} {traits : KllTraits α} {sketch : KllSketch α} {values : List α}

theorem ofBytes_of_lt {count value : Nat} (fits : value < 256 ^ count) : ofBytes (toBytes count value) = value := by
  rw [ofBytes_toBytes, Nat.mod_eq_of_lt fits]

/-- The bytes in the order they are written. -/
theorem serialize_parts (traits : KllTraits α) (sketch : KllSketch α) :
    serialize traits sketch = toBytes 2 kVersion ++ (toBytes 4 sketch.k ++ (toBytes 8 sketch.n ++
      (traits.encode sketch.minValue ++ (traits.encode sketch.maxValue ++ (toBytes 8 sketch.items.length ++
        (sketch.items.flatMap traits.encode ++ (toBytes 8 sketch.levels.length ++
          (sketch.levels.flatMap (toBytes 4) ++ [])))))))) := by
  simp only [serialize, append_assoc, append_nil]

/-- The fields of a sketch are read as they were written. -/
theorem deserializeView_serialize (lawful : traits.Lawful) (k : sketch.k < 2 ^ 32) (n : sketch.n < 2 ^ 64)
    (items : sketch.items.length < 2 ^ 64) (levels : sketch.levels.length < 2 ^ 64)
    (offsets : ∀ offset ∈ sketch.levels, offset < 2 ^ 32) :
    deserializeView traits (serialize traits sketch) = .ok (toView sketch) := by
  have width := lawful.encode_length
  have itemsWidth : (sketch.items.flatMap traits.encode).length = traits.width * sketch.items.length :=
    length_flatMap_records fun item _ => width item
  have parts := serialize_parts traits sketch
  generalize serialize traits sketch = data at parts ⊢
  have versionRead : readNumber data 0 2 = kVersion := by
    rw [readNumber, parts, slice_front rfl (by simp), ofBytes_of_lt (by decide)]
  have kRead : readNumber data 2 4 = sketch.k := by
    rw [readNumber, parts, slice_skip (by simp), slice_front (by simp) (by simp), ofBytes_of_lt k]
  have nRead : readNumber data 6 8 = sketch.n := by
    rw [readNumber, parts, slice_skip (by simp), slice_skip (by simp), slice_front (by simp) (by simp),
      ofBytes_of_lt n]
  have minRead : slice data 14 traits.width = traits.encode sketch.minValue := by
    rw [parts, slice_skip (by simp), slice_skip (by simp), slice_skip (by simp),
      slice_front (by simp) (width _).symm]
  have maxRead : slice data (14 + traits.width) traits.width = traits.encode sketch.maxValue := by
    rw [parts, slice_skip (by simp; omega), slice_skip (by simp; omega), slice_skip (by simp; omega),
      slice_skip (by simp [width]; omega), slice_front (by simp [width]; omega) (width _).symm]
  have sizeRead : readNumber data (14 + 2 * traits.width) 8 = sketch.items.length := by
    rw [readNumber, parts, slice_skip (by simp; omega), slice_skip (by simp; omega), slice_skip (by simp; omega),
      slice_skip (by simp [width]; omega), slice_skip (by simp [width]; omega), slice_front (by simp [width]; omega)
        (by simp), ofBytes_of_lt items]
  obtain ⟨front, frontSize, whole⟩ : ∃ front, front.length = 14 + 2 * traits.width + 8 ∧ data = front ++
      (sketch.items.flatMap traits.encode ++ (toBytes 8 sketch.levels.length ++
        (sketch.levels.flatMap (toBytes 4) ++ []))) := by
    refine ⟨toBytes 2 kVersion ++ toBytes 4 sketch.k ++ toBytes 8 sketch.n ++ traits.encode sketch.minValue ++
      traits.encode sketch.maxValue ++ toBytes 8 sketch.items.length, ?_, by rw [parts]; simp only [append_assoc]⟩
    simp only [length_append, length_toBytes, width]
    omega
  have levelsSizeRead : readNumber data (14 + 2 * traits.width + 8 + traits.width * sketch.items.length) 8 =
      sketch.levels.length := by
    rw [readNumber, whole, slice_skip (by omega), slice_skip (by omega), slice_front (by omega) (by simp),
      ofBytes_of_lt levels]
  have itemsRead : (range sketch.items.length).map (fun index => traits.decode
      (slice data (14 + 2 * traits.width + 8 + traits.width * index) traits.width)) = sketch.items := by
    rw [whole]
    exact map_slice_records (fun item _ => width item) (fun item _ => lawful.decode_encode item) frontSize.symm
  have levelsRead : (range sketch.levels.length).map (fun index => readNumber data
      (14 + 2 * traits.width + 8 + traits.width * sketch.items.length + 8 + 4 * index) 4) = sketch.levels := by
    rw [whole, ← append_assoc, ← append_assoc]
    refine map_slice_records (fun offset _ => length_toBytes 4 offset)
      (fun offset mem => ofBytes_of_lt (offsets offset mem)) ?_
    simp only [length_append, length_toBytes, frontSize, itemsWidth]
  unfold deserializeView
  simp only [versionRead, kRead, nRead, minRead, maxRead, sizeRead, levelsSizeRead, itemsRead, levelsRead,
    lawful.decode_encode, if_true]
  rfl

theorem ordered_of_isSorted (lawful : traits.Lawful) {items : List α} (sorted : isSorted traits items = true) :
    Ordered traits.less items := by
  have order := lawful.order
  induction items with
  | nil => exact .nil
  | cons first rest ih =>
    cases rest with
    | nil => exact ordered_of_length_le (Nat.le_refl _)
    | cons second rest =>
      rw [isSorted, Bool.and_eq_true, Bool.not_eq_true'] at sorted
      obtain ⟨low, later⟩ := sorted
      have ordered := ih later
      refine pairwise_cons.mpr ⟨?_, ordered⟩
      intro item mem
      rcases mem_cons.mp mem with rfl | behind
      · exact low
      · exact notLess_trans ((pairwise_cons.mp ordered).1 item behind) low

/-- A sketch that is read back stands for the same values. -/
theorem Sketches.fromView (lawful : traits.Lawful) (sketches : Sketches traits sketch values) (seed : Nat → Bool) :
    Sketches traits (fromView traits (toView sketch) seed) values := by
  obtain ⟨free, levels, holds⟩ := sketches.holds
  refine ⟨⟨free, levels, ⟨holds.laid.items, holds.laid.levels⟩, ⟨⟨?_, holds.tower.ordered, holds.tower.weight,
    holds.tower.kept⟩, holds.tower.filled, holds.tower.top⟩, holds.size⟩, sketches.count, sketches.extremes⟩
  intro sorted
  obtain ⟨level, rest, rfl⟩ := exists_cons_of_ne_nil holds.tower.filled
  refine ordered_of_isSorted lawful ?_
  change isSorted traits (slice sketch.items (sketch.levelAt 0) (sketch.levelAt 1 - sketch.levelAt 0)) = true at sorted
  rw [holds.laid.levelZero] at sorted
  exact sorted

section

variable {levels : List (List α)}

theorem Laid.sumSampleWeights {free : List α} (laid : Laid sketch free levels) :
    KllSketch.sumSampleWeights sketch.numLevels sketch.levels = weight levels := by
  rw [weight_eq_sum, KllSketch.sumSampleWeights, laid.numLevels]
  refine congrArg List.sum (map_congr_left ?_)
  intro index mem
  have size := laid.safeLevelSize index
  rw [KllSketch.safeLevelSize, laid.numLevels, if_pos (mem_range.mp mem)] at size
  exact congrArg (2 ^ index * ·) size

variable (traits : KllTraits α)

/-- Adding up the weights of equal neighbours keeps their sum. -/
theorem sum_gather (value : α) (weight : Nat) (entries : List (α × Nat)) :
    ((gather traits value weight entries).map Prod.snd).sum = weight + (entries.map Prod.snd).sum := by
  induction entries generalizing value weight with
  | nil => rfl
  | cons entry rest ih =>
    rw [gather]
    split_ifs
    · rw [ih, map_cons, sum_cons, Nat.add_assoc]
    · rw [map_cons, sum_cons, ih, map_cons, sum_cons]

theorem sum_mergeBy (before : α × Nat → α × Nat → Bool) (entries more : List (α × Nat)) :
    ((mergeBy before entries more).map Prod.snd).sum = (entries.map Prod.snd).sum + (more.map Prod.snd).sum := by
  rw [mergeBy_eq, ((merge_perm_append ..).map Prod.snd).sum_eq, map_append, sum_append]

/-- The frequencies of a finished sketch add up to its weight. -/
theorem Laid.getFrequencies {free : List α} (laid : Laid sketch free levels) (narrow : sketch.items.length < 2 ^ 31)
    (sorted : sketch.isLevelZeroSorted = true) :
    ∃ frequencies, getFrequencies traits sketch = .ok frequencies ∧
      (frequencies.map Prod.snd).sum = weight levels := by
  have small (offset : Nat) (mem : offset ∈ sketch.levels) : offset < 2 ^ 31 := by
    rw [laid.levels] at mem
    have bound := le_of_mem_offsets mem
    rw [← laid.length_items] at bound
    omega
  have counted := any_pastInt small (range sketch.numLevels)
  unfold KllSketch.getFrequencies
  rw [if_pos sorted, counted]
  refine ⟨_, rfl, ?_⟩
  have entries (indices : List Nat) (start : List (α × Nat)) : ((indices.foldl (fun entries index =>
      mergeBy (fun one other => !traits.less other.1 one.1) entries
        ((sketch.level index).map fun item => (item, 2 ^ index))) start).map Prod.snd).sum =
          (start.map Prod.snd).sum + (indices.map fun index => 2 ^ index * (levels.getD index []).length).sum := by
    induction indices generalizing start with
    | nil => rfl
    | cons index rest ih =>
      rw [foldl_cons, ih, sum_mergeBy, map_cons, sum_cons, laid.level, map_map, Nat.add_assoc]
      congr 2
      simp [Function.comp_def, Nat.mul_comm]
  have whole := entries (range sketch.numLevels) []
  rw [laid.numLevels, map_nil, sum_nil, Nat.zero_add, ← weight_eq_sum] at whole
  rw [laid.numLevels]
  generalize foldl _ _ _ = merged at whole ⊢
  cases merged with
  | nil => exact whole
  | cons entry rest =>
    rw [← whole]
    exact sum_gather traits entry.1 entry.2 rest

end

def repeated (value : α) (count : Nat) : Nat → List (List α)
  | 0 => []
  | height + 1 => replicate (count % 2) value :: repeated value (count / 2) height

variable (value : α)

theorem length_repeated (count height : Nat) : (repeated value count height).length = height := by
  induction height generalizing count with
  | zero => rfl
  | succ height ih => rw [repeated, length_cons, ih]

theorem offsets_repeated (start count height : Nat) :
    repeatedLevels start count height = offsets start (repeated value count height) := by
  induction height generalizing start count with
  | zero => rfl
  | succ height ih => rw [repeatedLevels, ih, repeated, offsets_cons, length_replicate]

variable {count height : Nat}

theorem weight_repeated (fits : count < 2 ^ height) : weight (repeated value count height) = count := by
  induction height generalizing count with
  | zero =>
    rw [Nat.pow_zero] at fits
    exact (Nat.lt_one_iff.mp fits).symm
  | succ height ih =>
    rw [Nat.pow_succ] at fits
    rw [repeated, weight, ih (by omega), length_replicate]
    omega

theorem exists_replicate_of_mem_repeated {value : α} {level : List α}
    (mem : level ∈ repeated value count height) : ∃ size ≤ 1, level = replicate size value := by
  induction height generalizing count with
  | zero => cases mem
  | succ height ih =>
    rcases mem_cons.mp mem with rfl | later
    · exact ⟨count % 2, by omega, rfl⟩
    · exact ih later

theorem getLast?_repeated (low : 2 ^ height ≤ count) (high : count < 2 ^ (height + 1)) :
    (repeated value count (height + 1)).getLast? = some [value] := by
  induction height generalizing count with
  | zero =>
    have one : count = 1 := by omega
    subst one
    rfl
  | succ height ih =>
    rw [Nat.pow_succ] at low high
    have later : (repeated value (count / 2) (height + 1)).getLast? = some [value] := ih (by omega) (by omega)
    rw [repeated, getLast?_cons, later]
    rfl

theorem length_flatten_repeated_le (traits : KllTraits α) (k : Nat) (value : α) (count height : Nat) :
    (repeated value count height).flatten.length ≤ total traits k height := by
  induction height generalizing count with
  | zero => exact Nat.le_refl 0
  | succ height ih =>
    have eight := eight_le_capacity traits k height
    have later := ih (count / 2)
    rw [repeated, flatten_cons, length_append, length_replicate, total]
    omega

theorem sketches_repeated (lawful : traits.Lawful) {value : α} {count k : Nat} {seed : Nat → Bool} (some : 0 < count)
    (made : fromRepeatedValue value count k seed = .ok sketch) :
    sketch.k = k ∧ Sketches traits sketch (replicate count value) := by
  obtain ⟨height, heightEq⟩ : ∃ height, height = count.log2 := ⟨_, rfl⟩
  have bits : bitLength count = height + 1 := by rw [bitLength, if_neg (by omega), heightEq]
  have low : 2 ^ height ≤ count := by
    rw [heightEq]
    exact Nat.log2_self_le (by omega)
  have high : count < 2 ^ (height + 1) := by
    rw [heightEq]
    exact Nat.lt_log2_self
  unfold fromRepeatedValue at made
  simp only [bits] at made
  split_ifs at made
  cases made
  have last : (repeatedLevels 0 count (height + 1)).getLastD 0 =
    (repeated value count (height + 1)).flatten.length := by
    rw [offsets_repeated value, offsets]
    simp
  have same : ∀ item ∈ (repeated value count (height + 1)).flatten, item = value := by
    intro item mem
    obtain ⟨level, inside, inLevel⟩ := mem_flatten.mp mem
    obtain ⟨size, -, rfl⟩ := exists_replicate_of_mem_repeated inside
    exact eq_of_mem_replicate inLevel
  have ordered : ∀ level ∈ repeated value count (height + 1), Ordered traits.less level := by
    intro level mem
    obtain ⟨size, small, rfl⟩ := exists_replicate_of_mem_repeated mem
    exact ordered_of_length_le (by rwa [length_replicate])
  have mem : value ∈ replicate count value := mem_replicate.mpr ⟨by omega, rfl⟩
  have order := lawful.order
  refine ⟨rfl, ⟨[], repeated value count (height + 1), ⟨?_, ?_⟩, ⟨⟨?_, ?_, ?_, ?_⟩, ?_, ?_⟩, ?_⟩, ?_, ?_⟩
  · change replicate ((repeatedLevels 0 count (height + 1)).getLastD 0) value = _
    rw [last]
    exact (eq_replicate_of_mem same).symm
  · exact offsets_repeated value 0 count (height + 1)
  · intro _
    exact ordered _ mem_cons_self
  · intro level later
    exact ordered level (mem_of_mem_tail later)
  · rw [weight_repeated value high, length_replicate]
  · intro item kept
    rw [same item kept]
    exact mem
  · exact cons_ne_nil _ _
  · intro top atEnd _
    rw [getLast?_repeated value low high] at atEnd
    cases atEnd
    exact cons_ne_nil _ _
  · change (replicate ((repeatedLevels 0 count (height + 1)).getLastD 0) value).length ≤ _
    rw [last, length_replicate, length_repeated]
    exact length_flatten_repeated_le traits k value count (height + 1)
  · exact (length_replicate ..).symm
  · have self : ∀ item ∈ replicate count value, traits.less item value = false ∧ traits.less value item = false := by
      intro item inside
      rw [eq_of_mem_replicate inside]
      exact ⟨less_irrefl value, less_irrefl value⟩
    exact ⟨fun _ => mem, fun _ => mem, fun item inside => (self item inside).1, fun item inside => (self item inside).2⟩

end CactusDB.Functions.KllSketch
