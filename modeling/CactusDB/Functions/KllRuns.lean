import CactusDB.Functions.KllStorage
import Mathlib.Data.List.Sort

/-! Runs of operations on sketches, and what holds in all of them. -/

namespace CactusDB.Functions.KllSketch

open Library Levels Fallible WeakOrder List

variable {α : Type} [Inhabited α] {traits : KllTraits α} {sketch : KllSketch α} {values : List α}

section

/-- The sketches that operations lead to, with the values inserted into them. Every sketch has fewer than `2 ^ 60`
values, and its offsets are below the largest signed number of 32 bits. -/
inductive Reachable (traits : KllTraits α) : KllSketch α → List α → Prop where
  | created (k : Nat) (seed : Nat → Bool) (minValue maxValue : α) (narrow : total traits k kMaxLevel < 2 ^ 31) :
      Reachable traits (create k seed minValue maxValue) []
  | repeated {sketch : KllSketch α} {value : α} {count k : Nat} {seed : Nat → Bool}
      (narrow : total traits k kMaxLevel < 2 ^ 31) (some : 0 < count) (few : count < 2 ^ kMaxLevel)
      (made : fromRepeatedValue value count k seed = .ok sketch) : Reachable traits sketch (List.replicate count value)
  | inserted {sketch after : KllSketch α} {values : List α} {value : α} (before : Reachable traits sketch values)
      (few : (values ++ [value]).length < 2 ^ kMaxLevel) (done : insert traits sketch value = .ok after) :
      Reachable traits after (values ++ [value])
  | merged {sketch after : KllSketch α} {values : List α} {others : List (KllSketch α × List α)}
      (before : Reachable traits sketch values) (each : ∀ other ∈ others, Reachable traits other.1 other.2)
      (few : (values ++ (others.map Prod.snd).flatten).length < 2 ^ kMaxLevel)
      (narrow : total traits sketch.k kMaxLevel + (others.map fun other => other.1.getNumRetained).sum < 2 ^ 31)
      (done : merge traits sketch (others.map Prod.fst) = .ok after) :
      Reachable traits after (values ++ (others.map Prod.snd).flatten)
  | mergedDeserialized {sketch after : KllSketch α} {values : List α} {others : List (KllSketch α × List α)}
      (before : Reachable traits sketch values) (each : ∀ other ∈ others, Reachable traits other.1 other.2)
      (few : (values ++ (others.map Prod.snd).flatten).length < 2 ^ kMaxLevel)
      (narrow : total traits sketch.k kMaxLevel + (others.map fun other => other.1.getNumRetained).sum < 2 ^ 31)
      (done : mergeDeserialized traits sketch (others.map fun other => serialize traits other.1) = .ok after) :
      Reachable traits after (values ++ (others.map Prod.snd).flatten)
  | finished {sketch : KllSketch α} {values : List α} (before : Reachable traits sketch values) :
      Reachable traits (finish traits sketch) values
  | compacted {sketch after : KllSketch α} {values : List α} (before : Reachable traits sketch values)
      (done : compact traits sketch = .ok after) : Reachable traits after values
  | restored {sketch after : KllSketch α} {values : List α} {seed : Nat → Bool}
      (before : Reachable traits sketch values)
      (done : deserialize traits (serialize traits sketch) seed = .ok after) : Reachable traits after values

structure Fits (traits : KllTraits α) (sketch : KllSketch α) (values : List α) : Prop where
  sketches : Sketches traits sketch values
  few : values.length < 2 ^ kMaxLevel
  narrow : total traits sketch.k kMaxLevel < 2 ^ 31

omit [Inhabited α] in
theorem Fits.length_items (fits : Fits traits sketch values) : sketch.items.length < 2 ^ 31 := by
  obtain ⟨free, levels, holds⟩ := fits.sketches.holds
  have height := holds.tower.length_le fits.few (by decide)
  exact Nat.lt_of_le_of_lt (Nat.le_trans holds.size (total_mono traits sketch.k height)) fits.narrow

omit [Inhabited α] in
theorem Fits.deserializeView (lawful : traits.Lawful) (fits : Fits traits sketch values) :
    KllSketch.deserializeView traits (serialize traits sketch) = .ok (toView sketch) := by
  obtain ⟨free, levels, holds⟩ := fits.sketches.holds
  have narrow := fits.narrow
  have few := fits.few
  have height := holds.tower.length_le few (by decide)
  have bits : kMaxLevel = 60 := rfl
  have items := fits.length_items
  have k : sketch.k ≤ total traits sketch.k kMaxLevel :=
    Nat.le_trans (le_total_one lawful sketch.k) (total_mono traits sketch.k (by decide))
  have count : sketch.n < 2 ^ 64 := by
    rw [fits.sketches.count]
    exact Nat.lt_trans few (by decide)
  have length : sketch.levels.length = levels.length + 1 := by rw [holds.laid.levels, length_offsets]
  refine deserializeView_serialize lawful (by omega) count (by omega) (by omega) ?_
  intro offset mem
  rw [holds.laid.levels] at mem
  have bound := le_of_mem_offsets mem
  rw [← holds.laid.length_items] at bound
  omega

omit [Inhabited α] in
theorem forall₂_of_fits {others : List (KllSketch α × List α)} (each : ∀ other ∈ others, Fits traits other.1 other.2) :
    List.Forall₂ (Sketches traits) (others.map Prod.fst) (others.map Prod.snd) := by
  rw [forall₂_map_left_iff, forall₂_map_right_iff, forall₂_same]
  exact fun other mem => (each other mem).sketches

theorem Fits.merge (lawful : traits.Lawful) (fits : Fits traits sketch values) {others : List (KllSketch α × List α)}
    (each : ∀ other ∈ others, Fits traits other.1 other.2)
    (few : (values ++ (others.map Prod.snd).flatten).length < 2 ^ kMaxLevel)
    (narrow : total traits sketch.k kMaxLevel + (others.map fun other => other.1.getNumRetained).sum < 2 ^ 31) :
    ∃ after, KllSketch.merge traits sketch (others.map Prod.fst) = .ok after ∧
      mergeDeserialized traits sketch (others.map fun other => serialize traits other.1) = .ok after ∧
      Fits traits after (values ++ (others.map Prod.snd).flatten) := by
  obtain ⟨after, done, sameK, sketches⟩ := fits.sketches.mergeViews lawful (forall₂_of_fits each) few
    (by rwa [map_map])
  have views : (others.map fun other => serialize traits other.1).mapM (KllSketch.deserializeView traits) =
      .ok ((others.map Prod.fst).map toView) := by
    rw [mapM_map, map_map]
    exact mapM_eq_pure fun other mem => (each other mem).deserializeView lawful
  refine ⟨after, done, ?_, sketches, few, by rw [sameK]; exact fits.narrow⟩
  unfold mergeDeserialized
  rw [views]
  exact done

/-- Every sketch of a run stands for the values inserted into it. -/
theorem Reachable.fits (lawful : traits.Lawful) (reachable : Reachable traits sketch values) :
    Fits traits sketch values := by
  induction reachable with
  | created k seed minValue maxValue narrow => exact ⟨sketches_create .., Nat.two_pow_pos _, narrow⟩
  | repeated narrow some few made =>
    obtain ⟨sameK, sketches⟩ := sketches_repeated lawful some made
    exact ⟨sketches, by rw [length_replicate]; exact few, by rw [sameK]; exact narrow⟩
  | inserted before few done fits =>
    obtain ⟨after, result, sameK, sketches⟩ := fits.sketches.insert lawful fits.few fits.narrow _
    rw [done] at result
    cases result
    exact ⟨sketches, few, by rw [sameK]; exact fits.narrow⟩
  | merged before each few narrow done fits eachFits =>
    obtain ⟨after, result, _, merged⟩ := fits.merge lawful eachFits few narrow
    rw [done] at result
    cases result
    exact merged
  | mergedDeserialized before each few narrow done fits eachFits =>
    obtain ⟨after, _, result, merged⟩ := fits.merge lawful eachFits few narrow
    rw [done] at result
    cases result
    exact merged
  | finished before fits =>
    exact ⟨(fits.sketches.finish lawful).1, fits.few, by rw [finish_k]; exact fits.narrow⟩
  | compacted before done fits =>
    obtain ⟨after, result, sameK, sketches⟩ := fits.sketches.compact lawful
    rw [done] at result
    cases result
    exact ⟨sketches, fits.few, by rw [sameK]; exact fits.narrow⟩
  | @restored sketch after values seed before done fits =>
    unfold deserialize at done
    rw [fits.deserializeView lawful] at done
    cases done
    exact ⟨fits.sketches.fromView lawful seed, fits.few, fits.narrow⟩

end

section

/-- A sketch keeps the weight, the order and the extremes of the values inserted into it. -/
structure Conserved (traits : KllTraits α) (sketch : KllSketch α) (values : List α) : Prop where
  weight : sumSampleWeights sketch.numLevels sketch.levels = values.length
  count : sketch.n = values.length
  ordered : ∀ index, 0 < index → Ordered traits.less (sketch.level index)
  kept : ∀ index, ∀ item ∈ sketch.level index, item ∈ values
  extremes : Extremes traits sketch.minValue sketch.maxValue values
  frequencies : ∃ frequencies, getFrequencies traits (finish traits sketch) = .ok frequencies ∧
    (frequencies.map Prod.snd).sum = values.length

structure Serves (traits : KllTraits α) (sketch : KllSketch α) (values : List α) : Prop where
  insert : ∀ value, (values ++ [value]).length < 2 ^ kMaxLevel → ∃ after, insert traits sketch value = .ok after
  merge : ∀ others : List (KllSketch α × List α), (∀ other ∈ others, Reachable traits other.1 other.2) →
    (values ++ (others.map Prod.snd).flatten).length < 2 ^ kMaxLevel →
    total traits sketch.k kMaxLevel + (others.map fun other => other.1.getNumRetained).sum < 2 ^ 31 →
      ∃ after, merge traits sketch (others.map Prod.fst) = .ok after ∧
        mergeDeserialized traits sketch (others.map fun other => serialize traits other.1) = .ok after
  compact : ∃ after, compact traits sketch = .ok after
  restore : ∀ seed, ∃ after, deserialize traits (serialize traits sketch) seed = .ok after

omit [Inhabited α] in
theorem Fits.conserved (lawful : traits.Lawful) (fits : Fits traits sketch values) :
    Conserved traits sketch values := by
  have sketches := fits.sketches
  obtain ⟨free, levels, holds⟩ := sketches.holds
  obtain ⟨finished, sorted⟩ := sketches.finish lawful
  obtain ⟨free', levels', kept⟩ := finished.holds
  have finishedFits : Fits traits (finish traits sketch) values :=
    ⟨finished, fits.few, by rw [finish_k]; exact fits.narrow⟩
  refine ⟨?_, sketches.count, ?_, ?_, sketches.extremes, ?_⟩
  · rw [holds.laid.sumSampleWeights, holds.tower.weight]
  · intro index positive
    rw [holds.laid.level]
    exact holds.tower.toPile.ordered_getD positive
  · intro index item mem
    rw [holds.laid.level] at mem
    exact holds.tower.kept item (mem_flatten_iff_getD.mpr ⟨index, mem⟩)
  · rw [← kept.tower.weight]
    exact kept.laid.getFrequencies traits finishedFits.length_items sorted

/-- In every run the weight of a sketch is the number of values inserted into it. -/
theorem weight_conserved (lawful : traits.Lawful) (reachable : Reachable traits sketch values) :
    Conserved traits sketch values ∧ Serves traits sketch values := by
  have fits := reachable.fits lawful
  refine ⟨fits.conserved lawful, ?_, ?_, ?_, ?_⟩
  · intro value _
    obtain ⟨after, done, _⟩ := fits.sketches.insert lawful fits.few fits.narrow value
    exact ⟨after, done⟩
  · intro others each few narrow
    obtain ⟨after, merged, deserialized, _⟩ :=
      fits.merge lawful (fun other mem => (each other mem).fits lawful) few narrow
    exact ⟨after, merged, deserialized⟩
  · obtain ⟨after, done, _⟩ := fits.sketches.compact lawful
    exact ⟨after, done⟩
  · intro seed
    refine ⟨KllSketch.fromView traits (toView sketch) seed, ?_⟩
    unfold deserialize
    rw [fits.deserializeView lawful]
    rfl

end

def leastRange : List (List Nat) → Nat
  | [] => 0
  | range :: rest =>
    match range.head?, (rest.getD (leastRange rest) []).head? with
    | some _, none => 0
    | some one, some other => if one ≤ other then 0 else leastRange rest + 1
    | none, _ => leastRange rest + 1

def natTraits : KllTraits Nat where
  less one other := one < other
  equal one other := one == other
  sort := List.insertionSort (· ≤ ·)
  top := leastRange
  scaled k depth := k * 2 ^ depth / 3 ^ depth
  encode value := [value]
  decode bytes := bytes.headD 0
  width := 1

theorem leastRange_spec {queue : List (List Nat)} (some : queue ≠ []) (filled : ∀ range ∈ queue, range ≠ []) :
    leastRange queue < queue.length ∧ ∃ one, (queue.getD (leastRange queue) []).head? = .some one ∧
      ∀ other, .some other ∈ queue.map List.head? → one ≤ other := by
  induction queue with
  | nil => exact absurd rfl some
  | cons range rest ih =>
    obtain ⟨item, items, rfl⟩ := exists_cons_of_ne_nil (filled range mem_cons_self)
    cases rest with
    | nil => exact ⟨Nat.one_pos, item, rfl, fun other mem => by simp_all⟩
    | cons next rest =>
      obtain ⟨inside, one, first, least⟩ := ih (cons_ne_nil _ _)
        fun range mem => filled range (mem_cons_of_mem _ mem)
      have step : leastRange ((item :: items) :: next :: rest) =
          if item ≤ one then 0 else leastRange (next :: rest) + 1 := by
        rw [leastRange, first]
        rfl
      rw [step]
      split_ifs with lower
      · refine ⟨Nat.succ_pos _, item, rfl, ?_⟩
        intro other mem
        rcases mem_cons.mp mem with same | later
        · exact Nat.le_of_eq (Option.some.inj same).symm
        · exact Nat.le_trans lower (least other later)
      · refine ⟨Nat.succ_lt_succ inside, one, first, ?_⟩
        intro other mem
        rcases mem_cons.mp mem with same | later
        · rw [Option.some.inj same]
          exact Nat.le_of_not_le lower
        · exact least other later

theorem natTraits_lawful : natTraits.Lawful where
  order :=
    { irrefl := fun value => by simp [natTraits]
      trans := fun one middle other => by simpa [natTraits] using Nat.lt_trans
      incomp_trans := fun one middle other => by
        simp only [natTraits, decide_eq_true_eq, Nat.not_lt]
        omega }
  sort_perm := fun items => perm_insertionSort (· ≤ ·) items
  sort_sorted := fun items => by
    have sorted := pairwise_insertionSort (· ≤ ·) items
    simpa [natTraits] using sorted
  top_lt := fun queue some filled => (leastRange_spec some filled).1
  top_least := fun queue filled one other first mem => by
    have some : queue ≠ [] := by
      rintro rfl
      cases mem
    obtain ⟨_, least, head, lower⟩ := leastRange_spec some filled
    have same : Option.some least = .some one := head.symm.trans first
    rw [← Option.some.inj same]
    simpa [natTraits] using lower other mem
  scaled_zero := fun k => by simp [natTraits]
  encode_length := fun _ => rfl
  decode_encode := fun _ => rfl

def threeFives : KllSketch Nat := ⟨8, 3, 5, 5, [5, 5], [0, 1, 2], true, fun _ => false⟩

theorem threeFives_conserved : Conserved natTraits threeFives [5, 5, 5] ∧ Serves natTraits threeFives [5, 5, 5] := by
  have made : fromRepeatedValue 5 3 8 (fun _ => false) = .ok threeFives := rfl
  exact weight_conserved natTraits_lawful (.repeated (by decide +kernel) (by decide) (by decide) made)

def failure : Except KllFailure (KllSketch Nat) → Option KllFailure
  | .ok _ => none
  | .error problem => some problem

/-- Two sketches of `2 ^ 59` equal values are merged and compacted to one item on level 60. The next insertion reads the
capacity of the lowest of 61 levels, which is behind the end of the array of powers. -/
theorem insert_after_compact_outOfBounds : failure (do
    let one ← fromRepeatedValue 5 (2 ^ 59) 8 fun _ => false
    let both ← merge natTraits one [one]
    insert natTraits (← compact natTraits both) 5) = some .outOfBounds := by
  decide +kernel

end CactusDB.Functions.KllSketch
