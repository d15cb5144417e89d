import CactusDB.Library.Binary32
import CactusDB.Library.PartialAggregation
import CactusDB.Library.TreeMap

/-! The `array_cat` aggregate. An accumulator keeps one array per block index, in two maps keyed
by the index, and concatenates the arrays in key order at the end. Block indices arrive as
single-precision numbers and leave as such in intermediate results. -/

namespace CactusDB.Aggregates.CatArray
open Std Library Library.PartialAggregation List
open Binary32 hiding round

abbrev Row (R : Type*) := List R × ℚ

structure ValueVector (R : Type*) where
  insertedValue : ExtTreeMap ℤ (List R)
  insertedSize : ExtTreeMap ℤ ℕ
  blockSize : ℕ
  size : ℕ

variable {R : Type*}

namespace ValueVector

def empty : ValueVector R := ⟨∅, ∅, 0, 0⟩

variable (vector : ValueVector R)

/-- The length is added also when the index was there before. -/
def insertValue (newValues : List R) (newIndexes : ℚ) : ValueVector R :=
  let index := toInt newIndexes
  { insertedValue := vector.insertedValue.insert index newValues
    insertedSize := vector.insertedSize.insert index newValues.length
    blockSize := if vector.blockSize < newValues.length then newValues.length else vector.blockSize
    size := vector.size + newValues.length }

def numBlocks : ℕ := vector.insertedSize.size

def blockValues (index : ℤ) (size : ℕ) : List R :=
  (vector.insertedValue[index]?.getD []).take size

def extractIntermediate : List (ℚ × List R) :=
  vector.insertedSize.toList.map fun entry =>
    (Binary32.round entry.1, vector.blockValues entry.1 entry.2)

def extractAndConcatValue : List R :=
  vector.insertedSize.toList.flatMap fun entry => vector.blockValues entry.1 entry.2

end ValueVector

section

variable (vector : ValueVector R)

def addRawInput (row : Row R) : ValueVector R :=
  vector.insertValue row.1 row.2

def extractAccumulators : List (ℚ × List R) :=
  if vector.size = 0 then [] else vector.extractIntermediate

def addIntermediateResults (map : List (ℚ × List R)) : ValueVector R :=
  map.foldl (fun current entry => current.insertValue entry.2 entry.1) vector

/-- The array handed out has `size` places. A place that no value was written to is `none`, and
an empty accumulator gives a null. -/
def extractValues : Option (List (Option R)) :=
  if vector.size = 0 then none
  else
    let written := vector.extractAndConcatValue
    some (written.map some ++ List.replicate (vector.size - written.length) none)

end

def catArray : Aggregate (Row R) (ValueVector R) (List (ℚ × List R)) where
  fresh := .empty
  addRawInput := addRawInput
  extractAccumulator := extractAccumulators
  addIntermediateResult := addIntermediateResults

/-- Indices that single precision represents, no two of them equal. -/
structure Legal (rows : Multiset (Row R)) : Prop where
  nodup : (rows.map Prod.snd).Nodup
  exact : ∀ row ∈ rows, ∃ index : ℕ, index ≤ 2 ^ 24 ∧ row.2 = index

/-- The accumulator holds the rows; an empty array may be missing. -/
structure Denotes (vector : ValueVector R) (rows : Multiset (Row R)) : Prop where
  stored : ∀ index values, vector.insertedValue[index]? = some values →
    ∃ row ∈ rows, toInt row.2 = index ∧ row.1 = values
  kept : ∀ row ∈ rows, row.1 ≠ [] → vector.insertedValue[toInt row.2]? = some row.1
  sizes : vector.insertedSize = vector.insertedValue.map fun _ values => values.length
  size : vector.size = (rows.map fun row => row.1.length).sum

theorem toInt_natCast (index : ℕ) : toInt (index : ℚ) = index := by
  simp [toInt]

theorem Legal.part {some all : Multiset (Row R)} (part : some ≤ all) (legal : Legal all) :
    Legal some where
  nodup := Multiset.nodup_of_le (Multiset.map_le_map part) legal.nodup
  exact := fun row mem => legal.exact row (Multiset.mem_of_le part mem)

variable {rows : Multiset (Row R)} {vector : ValueVector R} {first second : Row R}

theorem Legal.eq_of_index (legal : Legal rows) (left : first ∈ rows) (right : second ∈ rows)
    (same : toInt first.2 = toInt second.2) : first = second := by
  obtain ⟨i, _, first_index⟩ := legal.exact first left
  obtain ⟨j, _, second_index⟩ := legal.exact second right
  rw [first_index, second_index, toInt_natCast, toInt_natCast] at same
  apply Multiset.inj_on_of_nodup_map legal.nodup first left second right
  rw [first_index, second_index]
  exact_mod_cast same

open ValueVector

theorem sizes_addRawInput (row : Row R)
    (sizes : vector.insertedSize = vector.insertedValue.map fun _ values => values.length) :
    (addRawInput vector row).insertedSize =
      (addRawInput vector row).insertedValue.map fun _ values => values.length := by
  apply ExtTreeMap.ext_getElem?
  intro index
  simp only [addRawInput, insertValue, sizes, ExtTreeMap.getElem?_insert,
    ExtTreeMap.getElem?_map]
  split <;> simp

theorem denotes_empty : Denotes (empty : ValueVector R) 0 where
  stored := by simp [empty]
  kept := by simp
  sizes := by
    apply ExtTreeMap.ext_getElem?
    simp [empty]
  size := by simp [empty]

variable {row : Row R}

theorem denotes_addRawInput (denotes : Denotes vector rows) (legal : Legal (row ::ₘ rows)) :
    Denotes (addRawInput vector row) (row ::ₘ rows) where
  stored := by
    intro index values found
    simp only [addRawInput, insertValue, ExtTreeMap.getElem?_insert,
      LawfulEqCmp.compare_eq_iff_eq] at found
    split at found
    · next same => exact ⟨row, Multiset.mem_cons_self _ _, same, Option.some.inj found⟩
    · obtain ⟨old, mem, facts⟩ := denotes.stored index values found
      exact ⟨old, Multiset.mem_cons_of_mem mem, facts⟩
  kept := by
    intro other mem nonempty
    simp only [addRawInput, insertValue, ExtTreeMap.getElem?_insert,
      LawfulEqCmp.compare_eq_iff_eq]
    by_cases same : toInt row.2 = toInt other.2
    · rw [if_pos same, legal.eq_of_index (Multiset.mem_cons_self _ _) mem same]
    · rw [if_neg same]
      have old : other ∈ rows := by
        rcases Multiset.mem_cons.mp mem with equal | old
        · exact absurd (by rw [equal]) same
        · exact old
      exact denotes.kept other old nonempty
  sizes := sizes_addRawInput row denotes.sizes
  size := by
    simp only [addRawInput, insertValue, denotes.size, Multiset.map_cons,
      Multiset.sum_cons]
    omega

theorem denotes_foldl (new : List (Row R)) (denotes : Denotes vector rows)
    (legal : Legal (rows + (new : Multiset (Row R)))) :
    Denotes (new.foldl addRawInput vector) (rows + (new : Multiset (Row R))) := by
  induction new generalizing vector rows with
  | nil => simpa using denotes
  | cons row rest ih =>
    have shift : rows + ↑(row :: rest) = (row ::ₘ rows) + ↑rest := by
      rw [← Multiset.cons_coe, Multiset.add_cons, Multiset.cons_add]
    rw [shift] at legal ⊢
    have head : Legal (row ::ₘ rows) := legal.part (Multiset.le_add_right _ _)
    exact ih (denotes_addRawInput denotes head) legal

section

variable {vector : ValueVector R}
  (sizes : vector.insertedSize = vector.insertedValue.map fun _ values => values.length)

theorem blockValues_of_found {index : ℤ} {values : List R} (found : vector.insertedValue[index]? = some values) :
    vector.blockValues index values.length = values := by
  simp [blockValues, found]

include sizes

theorem insertedSize_toList : vector.insertedSize.toList =
      vector.insertedValue.toList.map fun entry => (entry.1, entry.2.length) := by
  rw [sizes, ExtTreeMap.toList_map]

theorem extractIntermediate_eq : vector.extractIntermediate =
      vector.insertedValue.toList.map fun entry => (Binary32.round entry.1, entry.2) := by
  rw [extractIntermediate, insertedSize_toList sizes, map_map]
  apply map_congr_left
  rintro ⟨index, values⟩ mem
  rw [ExtTreeMap.mem_toList_iff_getElem?_eq_some] at mem
  simp only [Function.comp_apply, blockValues_of_found mem]

theorem extractAndConcatValue_eq : vector.extractAndConcatValue = vector.insertedValue.toList.flatMap Prod.snd := by
  rw [extractAndConcatValue, insertedSize_toList sizes, flatMap_map]
  apply flatMap_congr
  rintro ⟨index, values⟩ mem
  rw [ExtTreeMap.mem_toList_iff_getElem?_eq_some] at mem
  exact blockValues_of_found mem

theorem length_extractAndConcatValue :
    vector.extractAndConcatValue.length = TreeMap.total id vector.insertedSize := by
  rw [extractAndConcatValue_eq sizes, length_flatMap, TreeMap.total, insertedSize_toList sizes,
    map_map]
  rfl

end

def intermediateRows (vector : ValueVector R) : List (Row R) :=
  (extractAccumulators vector).map fun entry => (entry.2, entry.1)

theorem addIntermediateResults_eq (vector other : ValueVector R) :
    addIntermediateResults vector (extractAccumulators other) =
      (intermediateRows other).foldl addRawInput vector := by
  rw [addIntermediateResults, intermediateRows, foldl_map]
  rfl

section

variable {vector : ValueVector R} {rows : Multiset (Row R)}

variable (denotes : Denotes vector rows)
include denotes

variable (legal : Legal rows)
include legal

/-- An entry that is stored under an index is a row, and its index survives as a float. -/
theorem Denotes.row_of_found {index : ℤ} {values : List R} (found : vector.insertedValue[index]? = some values) :
    Binary32.round index = index ∧ (values, (index : ℚ)) ∈ rows := by
  obtain ⟨row, mem, same, rfl⟩ := denotes.stored index values found
  obtain ⟨i, bound, exact⟩ := legal.exact row mem
  rw [exact, toInt_natCast] at same
  subst same
  refine ⟨by exact_mod_cast round_natCast bound, ?_⟩
  rw [show ((i : ℤ) : ℚ) = row.2 by rw [exact]; norm_cast]
  exact mem

theorem Denotes.intermediateRows_eq :
    intermediateRows vector = if vector.size = 0 then [] else
      vector.insertedValue.toList.map fun entry => (entry.2, (entry.1 : ℚ)) := by
  unfold intermediateRows extractAccumulators
  split
  · rfl
  · rw [extractIntermediate_eq denotes.sizes, map_map]
    apply map_congr_left
    rintro ⟨index, values⟩ mem
    rw [ExtTreeMap.mem_toList_iff_getElem?_eq_some] at mem
    simp only [Function.comp_apply, (denotes.row_of_found legal mem).1]

theorem Denotes.nodup_intermediateRows : (intermediateRows vector).Nodup := by
  rw [denotes.intermediateRows_eq legal]
  split
  · exact nodup_nil
  · apply (TreeMap.nodup_toList _).map
    rintro ⟨i, first⟩ ⟨j, second⟩ same
    simpa [and_comm] using same

theorem Denotes.mem_of_mem_intermediateRows (mem : row ∈ intermediateRows vector) : row ∈ rows := by
  rw [denotes.intermediateRows_eq legal] at mem
  split at mem
  · exact absurd mem not_mem_nil
  · obtain ⟨⟨index, values⟩, visited, rfl⟩ := mem_map.mp mem
    rw [ExtTreeMap.mem_toList_iff_getElem?_eq_some] at visited
    exact (denotes.row_of_found legal visited).2

/-- Only empty arrays can be missing from an intermediate result. -/
theorem Denotes.mem_intermediateRows (mem : row ∈ rows) (nonempty : row.1 ≠ []) : row ∈ intermediateRows vector := by
  have positive : vector.size ≠ 0 := by
    rw [denotes.size]
    have part := Multiset.single_le_sum (fun _ _ => Nat.zero_le _) _
      (Multiset.mem_map_of_mem (fun row : Row R => row.1.length) mem)
    have := length_pos_of_ne_nil nonempty
    omega
  rw [denotes.intermediateRows_eq legal, if_neg positive]
  obtain ⟨i, _, exact⟩ := legal.exact row mem
  have found := denotes.kept row mem nonempty
  rw [exact, toInt_natCast] at found
  apply mem_map.mpr
  refine ⟨((i : ℤ), row.1), ExtTreeMap.mem_toList_iff_getElem?_eq_some.mpr found, ?_⟩
  rw [show (((i : ℤ) : ℚ)) = row.2 by rw [exact]; norm_cast]

end

theorem Denotes.sum_intermediateRows (denotes : Denotes vector rows) (legal : Legal rows)
    (part : (intermediateRows vector : Multiset (Row R)) ≤ rows) :
    ((intermediateRows vector : Multiset (Row R)).map fun row => row.1.length).sum =
      (rows.map fun row => row.1.length).sum := by
  obtain ⟨missing, parts⟩ := Multiset.le_iff_exists_add.mp part
  have nodup : rows.Nodup := Multiset.Nodup.of_map _ legal.nodup
  rw [parts] at nodup
  have empty : ∀ row ∈ missing, row.1.length = 0 := by
    intro row mem
    by_contra nonempty
    have extracted : row ∈ (intermediateRows vector : Multiset (Row R)) := by
      apply denotes.mem_intermediateRows legal
      · rw [parts]
        exact Multiset.mem_add.mpr (Or.inr mem)
      · intro nil
        exact nonempty (by rw [nil, length_nil])
    exact Multiset.disjoint_left.mp (Multiset.nodup_add.mp nodup).2.2 extracted mem
  have none : (missing.map fun row => row.1.length).sum = 0 := by
    rw [Multiset.map_congr rfl empty]
    simp
  conv_rhs => rw [parts, Multiset.map_add, Multiset.sum_add, none, add_zero]

theorem denotes_merge {other : ValueVector R} {others : Multiset (Row R)}
    (denotes : Denotes vector rows) (denoted : Denotes other others) (legal : Legal (rows + others)) :
    Denotes (addIntermediateResults vector (extractAccumulators other)) (rows + others) := by
  have otherLegal : Legal others := legal.part (Multiset.le_add_left _ _)
  have part : (intermediateRows other : Multiset (Row R)) ≤ others := by
    apply (Multiset.le_iff_subset (Multiset.coe_nodup.mpr
      (denoted.nodup_intermediateRows otherLegal))).mpr
    intro row mem
    exact denoted.mem_of_mem_intermediateRows otherLegal mem
  have merged := denotes_foldl (intermediateRows other) denotes
    (legal.part (Multiset.add_le_add_left part))
  rw [addIntermediateResults_eq]
  exact
    { stored := by
        intro index values found
        obtain ⟨row, mem, facts⟩ := merged.stored index values found
        exact ⟨row, Multiset.mem_of_le (Multiset.add_le_add_left part) mem, facts⟩
      kept := by
        intro row mem nonempty
        apply merged.kept row _ nonempty
        rcases Multiset.mem_add.mp mem with old | new
        · exact Multiset.mem_add.mpr (Or.inl old)
        · exact Multiset.mem_add.mpr
            (Or.inr (denoted.mem_intermediateRows otherLegal new nonempty))
      sizes := merged.sizes
      size := by
        rw [merged.size, Multiset.map_add, Multiset.map_add, Multiset.sum_add, Multiset.sum_add]
        rw [denoted.sum_intermediateRows otherLegal part] }

/-- However the rows are routed, the accumulator at the end holds them all. -/
theorem run_denotes (history : History (Row R)) (legal : Legal history.inputs) :
    Denotes (catArray.run history) history.inputs :=
  catArray.run_denotes Denotes Legal Legal.part denotes_empty denotes_addRawInput denotes_merge
    history legal

section

variable {vector : ValueVector R}

theorem Denotes.found_iff {rows : Multiset (Row R)} (denotes : Denotes vector rows) {index : ℤ} {values : List R}
    (nonempty : values ≠ []) :
    vector.insertedValue[index]? = some values ↔ ∃ row ∈ rows, toInt row.2 = index ∧ row.1 = values := by
  constructor
  · exact denotes.stored index values
  · rintro ⟨row, mem, rfl, rfl⟩
    exact denotes.kept row mem nonempty

/-- The arrays come out in the order of their indices, whatever order the rows came in. -/
theorem Denotes.extractAndConcatValue_ordered {ordered : List (Row R)}
    (denotes : Denotes vector (ordered : Multiset (Row R)))
    (sorted : ordered.Pairwise fun first second => toInt first.2 < toInt second.2) :
    vector.extractAndConcatValue = ordered.flatMap Prod.fst := by
  let entries : List (ℤ × List R) := ordered.map fun row => (toInt row.2, row.1)
  have visited : (vector.insertedValue.filter fun _ values => !values.isEmpty).toList =
      entries.filter fun entry => !entry.2.isEmpty := by
    apply TreeMap.toList_eq_of_sorted
    · apply List.Pairwise.filter
      simp only [entries, pairwise_map, Int.compare_eq_lt]
      exact sorted
    · rintro ⟨index, values⟩
      rw [ExtTreeMap.getElem?_filter, Option.pfilter_eq_filter, Option.filter_eq_some_iff,
        mem_filter, and_congr_left_iff]
      intro nonempty
      rw [denotes.found_iff (by simpa using nonempty)]
      simp [entries, and_comm]
  have dropEmpty : ∀ list : List (ℤ × List R), list.flatMap Prod.snd =
      (list.filter fun entry => !entry.2.isEmpty).flatMap Prod.snd := by
    intro list
    induction list with
    | nil => rfl
    | cons entry rest ih => cases values : entry.2 <;> simp [values, ih]
  rw [ExtTreeMap.toList_filter] at visited
  rw [extractAndConcatValue_eq denotes.sizes, dropEmpty, visited, ← dropEmpty]
  simp [entries, flatMap_map]

end

section

variable (count : ℕ) (block : ℕ → List R)

def numberedRows : List (Row R) := (List.range count).map fun i => (block i, (i : ℚ))

theorem legal_numberedRows (bound : count ≤ 2 ^ 24 + 1) :
    Legal (numberedRows count block : Multiset (Row R)) where
  nodup := by
    simp only [numberedRows, Multiset.map_coe, map_map, Multiset.coe_nodup]
    apply nodup_range.map
    intro i j same
    exact Nat.cast_injective (R := ℚ) same
  exact := by
    intro row mem
    obtain ⟨i, small, rfl⟩ := mem_map.mp mem
    rw [mem_range] at small
    exact ⟨i, by omega, rfl⟩

variable {count block} {vector : ValueVector R}

/-- Key order is block order: the concatenation is that of the blocks. -/
theorem Denotes.extractAndConcatValue_numberedRows
    (denotes : Denotes vector (numberedRows count block : Multiset (Row R))) :
    vector.extractAndConcatValue = (List.range count).flatMap block := by
  have sorted : (numberedRows count block).Pairwise fun first second =>
      toInt first.2 < toInt second.2 := by
    simp only [numberedRows, pairwise_map, toInt_natCast]
    exact pairwise_lt_range.imp fun less => by exact_mod_cast less
  rw [denotes.extractAndConcatValue_ordered sorted, numberedRows, flatMap_map]

end

/-! What happens when two rows carry one index: the older array is lost but still counted. -/

/-- At least `lost` of the counted places are never written. -/
structure Lost (vector : ValueVector R) (lost : ℕ) : Prop where
  sizes : vector.insertedSize = vector.insertedValue.map fun _ values => values.length
  unwritten : TreeMap.total id vector.insertedSize + lost ≤ vector.size

theorem lost_empty : Lost (empty : ValueVector R) 0 where
  sizes := denotes_empty.sizes
  unwritten := by simp [empty, TreeMap.total_empty]

theorem Lost.addRawInput {lost : ℕ} (before : Lost vector lost) (row : Row R) :
    Lost (addRawInput vector row)
      (lost + (vector.insertedSize[toInt row.2]?).getD 0) where
  sizes := sizes_addRawInput row before.sizes
  unwritten := by
    have sum := TreeMap.total_insert id vector.insertedSize (toInt row.2) row.1.length
    have bound := before.unwritten
    simp only [Option.map_id_fun, id_eq] at sum
    simp only [CatArray.addRawInput, insertValue]
    omega

variable {lost : ℕ}

theorem Lost.foldl (before : Lost vector lost)
    (rows : List (Row R)) : Lost (rows.foldl CatArray.addRawInput vector) lost := by
  induction rows generalizing vector with
  | nil => exact before
  | cons row rest ih =>
    have step := before.addRawInput row
    exact ih ⟨step.sizes, by have := step.unwritten; omega⟩

theorem Lost.extractValues_ne (some_lost : Lost vector lost)
    (positive : 0 < lost) (values : List R) : extractValues vector ≠ some (values.map some) := by
  intro same
  unfold extractValues at same
  split at same
  · exact absurd same (by simp)
  · have gap : vector.size - vector.extractAndConcatValue.length ≠ 0 := by
      rw [length_extractAndConcatValue some_lost.sizes]
      have := some_lost.unwritten
      omega
    have unwritten : none ∈ values.map some := by
      rw [← Option.some.inj same]
      exact mem_append_right _ (mem_replicate.mpr ⟨gap, rfl⟩)
    simp at unwritten

theorem Lost.length_extractValues (before : Lost vector lost)
    {array : List (Option R)} (found : extractValues vector = some array) :
    array.length = vector.size := by
  unfold extractValues at found
  split at found
  · exact absurd found (by simp)
  · rw [← Option.some.inj found]
    have := length_extractAndConcatValue before.sizes
    have := before.unwritten
    simp only [length_append, length_map, length_replicate]
    omega

theorem lost_run_ofList (rows : List (Row R)) : Lost (catArray.run (History.ofList rows)) 0 := by
  rw [Aggregate.run_ofList]
  exact lost_empty.foldl rows

theorem lost_of_collision (same : toInt first.2 = toInt second.2) (rest : List (Row R)) :
    Lost (catArray.run (History.ofList (first :: second :: rest))) first.1.length := by
  rw [Aggregate.run_ofList]
  have step := (lost_empty.foldl [first]).addRawInput second
  have stored : (addRawInput .empty first).insertedSize[toInt second.2]? =
      some first.1.length := by
    simp [addRawInput, insertValue, same]
  rw [foldl_cons, foldl_nil, stored, Option.getD_some, Nat.zero_add] at step
  exact step.foldl rest

theorem size_run_ofList (rows : List (Row R)) :
    (catArray.run (History.ofList rows)).size = (rows.map fun row => row.1.length).sum := by
  have foldl : ∀ vector : ValueVector R,
      (rows.foldl addRawInput vector).size = vector.size + (rows.map fun row => row.1.length).sum := by
    induction rows with
    | nil => simp
    | cons row rest ih =>
      intro vector
      rw [foldl_cons, ih]
      simp only [addRawInput, insertValue, map_cons, sum_cons]
      omega
  rw [Aggregate.run_ofList]
  exact (foldl .empty).trans (Nat.zero_add _)

end CactusDB.Aggregates.CatArray
