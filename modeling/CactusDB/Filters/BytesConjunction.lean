import CactusDB.Filters.BytesPieces

/-! Merging two string filters is their conjunction, but for the empty string. -/

namespace CactusDB.Filters.BytesConjunction
open BytesFilter BytesMerge BytesPieces List Filter

section

mutual

def leaves : Filter → List Filter
  | .alwaysFalse => []
  | .isNull => []
  | .negatedBytesRange nonNegated _ => accepted nonNegated
  | .multiRange filters _ _ => leavesOf filters
  | leaf => [leaf]

def leavesOf : List Filter → List Filter
  | [] => []
  | filter :: rest => leaves filter ++ leavesOf rest

end

theorem mem_leavesOf {leaf : Filter} {filters : List Filter} :
    leaf ∈ leavesOf filters ↔ ∃ filter ∈ filters, leaf ∈ leaves filter := by
  induction filters with
  | nil => simp [leavesOf]
  | cons filter rest ih => rw [leavesOf, mem_append, exists_mem_cons_iff, ih]

mutual

theorem testBytes_iff_leaves (value : Bytes) :
    ∀ filter : Filter, filter.testBytes value = true ↔ ∃ leaf ∈ leaves filter, leaf.testBytes value = true
  | .alwaysFalse => by simp [testBytes, leaves]
  | .alwaysTrue => by simp [testBytes, leaves]
  | .isNull => by simp [testBytes, leaves]
  | .isNotNull => by simp [testBytes, leaves]
  | .bytesRange _ _ => by simp [leaves]
  | .negatedBytesRange nonNegated _ => by
    rw [leaves, accepted_iff, testBytes, Bool.not_eq_true']
  | .bytesValues _ _ => by simp [leaves]
  | .negatedBytesValues _ _ => by simp [leaves]
  | .multiRange filters _ _ => by
    rw [testBytes, leaves]
    exact testSome_iff_leaves value filters

theorem testSome_iff_leaves (value : Bytes) :
    ∀ filters : List Filter, testSome filters value = true ↔
      ∃ leaf ∈ leavesOf filters, leaf.testBytes value = true
  | [] => by simp [testSome, leavesOf]
  | filter :: rest => by
    have first := testBytes_iff_leaves value filter
    have others := testSome_iff_leaves value rest
    simp only [leavesOf, mem_append, or_and_right, exists_or]
    rw [← first, ← others, testSome]
    cases filter.testBytes value <;> simp

end

/-- Two ranges lose the empty string if one of them accepts only that, by its lower end. -/
def clash : Filter → Filter → Bool
  | .bytesRange range _, .bytesRange other _ => range.beforeEmpty || other.beforeEmpty
  | _, _ => false

def Meets (this other : Filter) (value : Bytes) : Prop :=
  ∃ leaf ∈ leaves this, ∃ otherLeaf ∈ leaves other, leaf.testBytes value = true ∧ otherLeaf.testBytes value = true ∧
    (value = .empty → clash leaf otherLeaf = false)

theorem clash_comm (leaf otherLeaf : Filter) : clash leaf otherLeaf = clash otherLeaf leaf := by
  cases leaf <;> cases otherLeaf <;> simp [clash, Bool.or_comm]

theorem meets_comm (this other : Filter) (value : Bytes) : Meets this other value ↔ Meets other this value := by
  have exchange (this other : Filter) (meets : Meets this other value) : Meets other this value := by
    obtain ⟨leaf, mem, otherLeaf, otherMember, test, otherTest, kept⟩ := meets
    exact ⟨otherLeaf, otherMember, leaf, mem, otherTest, test, fun empty => clash_comm otherLeaf leaf ▸ kept empty⟩
  exact ⟨exchange this other, exchange other this⟩

theorem meets_union (filters : List Filter) (null nan : Bool) (other : Filter) (value : Bytes) :
    Meets (.multiRange filters null nan) other value ↔ ∃ filter ∈ filters, Meets filter other value := by
  unfold Meets
  simp only [leaves, mem_leavesOf]
  constructor
  · rintro ⟨leaf, ⟨filter, mem, inside⟩, rest⟩
    exact ⟨filter, mem, leaf, inside, rest⟩
  · rintro ⟨filter, mem, leaf, inside, rest⟩
    exact ⟨leaf, ⟨filter, mem, inside⟩, rest⟩

variable {this other : Filter}

/-- Both filters accept what their leaves accept in common. -/
theorem both_of_meets {value : Bytes} (meets : Meets this other value) :
    this.testBytes value = true ∧ other.testBytes value = true := by
  obtain ⟨leaf, mem, otherLeaf, otherMember, test, otherTest, _⟩ := meets
  exact ⟨(testBytes_iff_leaves value this).mpr ⟨leaf, mem, test⟩,
    (testBytes_iff_leaves value other).mpr ⟨otherLeaf, otherMember, otherTest⟩⟩

theorem meets_of_both {value : Bytes} (present : value ≠ .empty)
    (test : this.testBytes value = true) (otherTest : other.testBytes value = true) : Meets this other value := by
  obtain ⟨leaf, mem, accepts⟩ := (testBytes_iff_leaves value this).mp test
  obtain ⟨otherLeaf, otherMember, otherAccepts⟩ := (testBytes_iff_leaves value other).mp otherTest
  exact ⟨leaf, mem, otherLeaf, otherMember, accepts, otherAccepts, fun empty => absurd empty present⟩

theorem meets_free (own : leaves this = [this]) (free : ∀ leaf, clash this leaf = false)
    (value : Bytes) : Meets this other value ↔ this.testBytes value = true ∧ other.testBytes value = true := by
  refine ⟨both_of_meets, fun both => ?_⟩
  obtain ⟨leaf, mem, accepts⟩ := (testBytes_iff_leaves value other).mp both.2
  refine ⟨this, ?_, leaf, mem, both.1, accepts, fun _ => free leaf⟩
  rw [own]
  exact mem_singleton_self this

end

section

def accepting : Filter → Bool
  | .alwaysTrue | .isNotNull => true
  | _ => false

def IsMerge (this other : Filter) (result : Option Filter) : Prop :=
  ∃ merged, result = some merged ∧ (∀ value, merged.testBytes value = true ↔ Meets this other value) ∧
    merged.testNull = (this.testNull && other.testNull) ∧
    (accepting this = false → accepting other = false → Settled merged)

theorem IsMerge.symm {this other : Filter} {result : Option Filter} (known : IsMerge this other result) :
    IsMerge other this result := by
  obtain ⟨merged, done, tests, nulls, settled⟩ := known
  exact ⟨merged, done, fun value => (tests value).trans (meets_comm this other value), nulls.trans (Bool.and_comm _ _),
    fun first second => settled second first⟩

theorem Result.isMerge {this other merged : Filter} {accepts : Bytes → Prop}
    (known : Result merged accepts (this.testNull && other.testNull))
    (same : ∀ value, accepts value ↔ Meets this other value) : IsMerge this other (some merged) :=
  ⟨merged, rfl, fun value => (known.tests value).trans (same value), known.nulls, fun _ _ => known.settled⟩

mutual

def InDomain : Filter → Prop
  | .multiRange filters _ _ => AllInDomain filters
  | _ => True

def AllInDomain : List Filter → Prop
  | [] => True
  | filter :: rest => accepting filter = false ∧ InDomain filter ∧ AllInDomain rest

end

variable {filters : List Filter}

theorem member_inDomain (domain : AllInDomain filters) {filter : Filter} (mem : filter ∈ filters) :
    accepting filter = false ∧ InDomain filter := by
  induction filters with
  | nil => cases mem
  | cons first rest ih =>
    rw [AllInDomain] at domain
    cases mem with
    | head => exact ⟨domain.1, domain.2.1⟩
    | tail _ later => exact ih domain.2.2 later

mutual

def depth : Filter → Nat
  | .negatedBytesRange _ _ => 2
  | .multiRange filters _ _ => depthOf filters + 1
  | _ => 0

def depthOf : List Filter → Nat
  | [] => 0
  | filter :: rest => max (depth filter) (depthOf rest)

end

theorem depth_le_of_mem {filter : Filter} (mem : filter ∈ filters) : depth filter ≤ depthOf filters := by
  induction filters with
  | nil => cases mem
  | cons first rest ih =>
    rw [depthOf]
    cases mem with
    | head => omega
    | tail _ later =>
      have bound := ih later
      omega

end

section

def Holds (state : Collected) (value : Bytes) : Prop :=
  value ∈ state.byteValues ∨ ∃ filter ∈ state.merged, filter.testBytes value = true

theorem collect_iff {inner : Filter} (settled : Settled inner) (state : Collected) (value : Bytes) :
    Holds (collect state inner) value ↔ Holds state value ∨ inner.testBytes value = true := by
  unfold Holds
  cases inner with
  | alwaysFalse => simp [collect, testBytes]
  | alwaysTrue => exact settled.elim
  | isNull => simp [collect, testBytes]
  | isNotNull => exact settled.elim
  | bytesValues values null =>
    simp only [collect, Finset.mem_union, testBytes, testValues_eq, decide_eq_true_iff]
    exact or_right_comm
  | multiRange filters null nan =>
    simp only [collect, mem_append, or_and_right, exists_or, testBytes, testSome_iff, or_assoc]
  | _ => simp only [collect, mem_append, mem_singleton, or_and_right, exists_or, exists_eq_left, or_assoc]

variable {state : Collected}

theorem collect_simple {inner : Filter} (settled : Settled inner)
    (known : ∀ filter ∈ state.merged, simple filter = true) :
    ∀ filter ∈ (collect state inner).merged, simple filter = true := by
  cases inner with
  | alwaysFalse => exact known
  | alwaysTrue => exact settled.elim
  | isNull => exact known
  | isNotNull => exact settled.elim
  | bytesValues values null => exact known
  | multiRange filters null nan => exact forall_mem_append.mpr ⟨known, settled⟩
  | _ => exact forall_mem_append.mpr ⟨known, by simp [simple]⟩

variable {merge : Filter → Filter → Option Filter}

theorem collectPairs_ok {pairs : List (Filter × Filter)}
    (merges : ∀ pair ∈ pairs, ∃ inner, merge pair.1 pair.2 = some inner ∧ Settled inner ∧
      ∀ value, inner.testBytes value = true ↔ Meets pair.1 pair.2 value)
        (known : ∀ filter ∈ state.merged, simple filter = true) :
    ∃ final, collectPairs merge pairs state = some final ∧ (∀ filter ∈ final.merged, simple filter = true) ∧
      ∀ value, Holds final value ↔ Holds state value ∨ ∃ pair ∈ pairs, Meets pair.1 pair.2 value := by
  induction pairs generalizing state with
  | nil => exact ⟨state, rfl, known, by simp⟩
  | cons pair rest ih =>
    obtain ⟨inner, done, settled, tests⟩ := merges pair mem_cons_self
    obtain ⟨final, finished, members, holds⟩ :=
      ih (fun other mem => merges other (mem_cons_of_mem pair mem)) (collect_simple settled known)
    refine ⟨final, ?_, members, fun value => ?_⟩
    · rw [collectPairs, done]
      exact finished
    · rw [holds, collect_iff settled, tests, exists_mem_cons_iff, or_assoc]

theorem simple_clone {filter : Filter} (kept : simple filter = true) (null : Bool) :
    (filter.clone null).testNull = null ∧ Settled (filter.clone null) := by
  cases filter with
  | bytesRange | negatedBytesRange | bytesValues | negatedBytesValues => exact ⟨rfl, trivial⟩
  | _ => cases kept

theorem combine_result {merged : List Filter} (members : ∀ filter ∈ merged, simple filter = true) (null nan : Bool) :
    Result (combine merged null nan) (fun value => ∃ filter ∈ merged, filter.testBytes value = true) null := by
  unfold combine
  split
  · exact nullOrFalse_result (by simp) null
  case h_2 single =>
    obtain ⟨flag, settled⟩ := simple_clone (members single mem_cons_self) null
    refine ⟨fun value => ?_, flag, settled⟩
    rw [testBytes_clone]
    simp
  · refine ⟨fun value => ?_, rfl, members⟩
    rw [testBytes, testSome_iff]

theorem withValues_iff (state : Collected) (null : Bool) (value : Bytes) :
    (∃ filter ∈ withValues state null, filter.testBytes value = true) ↔ Holds state value := by
  unfold withValues Holds
  split
  case isTrue some =>
    simp only [mem_append, mem_singleton, or_and_right, exists_or, exists_eq_left, testBytes,
      testValues_eq, decide_eq_true_iff]
    exact Or.comm
  case isFalse none =>
    rw [Finset.not_nonempty_iff_eq_empty] at none
    simp [none]

theorem withValues_simple (known : ∀ filter ∈ state.merged, simple filter = true) (null : Bool) :
    ∀ filter ∈ withValues state null, simple filter = true := by
  unfold withValues
  split
  · exact forall_mem_append.mpr ⟨known, by simp [simple]⟩
  · exact known

/-- The merge of two unions is made of the merges of their members. -/
theorem mergeUnion_result {filters others : List Filter}
    (merges : ∀ filter ∈ filters, ∀ other ∈ others, accepting filter = false ∧ accepting other = false ∧
      IsMerge filter other (merge filter other)) (null nan : Bool) :
    ∃ merged, mergeUnion merge filters others null nan = some merged ∧
      Result merged (fun value => ∃ filter ∈ filters, ∃ other ∈ others, Meets filter other value) null := by
  have pairs : ∀ pair ∈ filters.flatMap fun filter => others.map fun other => (filter, other),
      ∃ inner, merge pair.1 pair.2 = some inner ∧ Settled inner ∧
        ∀ value, inner.testBytes value = true ↔ Meets pair.1 pair.2 value := by
    intro pair mem
    obtain ⟨filter, inFilters, inside⟩ := mem_flatMap.mp mem
    obtain ⟨other, inOthers, rfl⟩ := mem_map.mp inside
    obtain ⟨first, second, inner, done, tests, _, settled⟩ := merges filter inFilters other inOthers
    exact ⟨inner, done, settled first second, tests⟩
  obtain ⟨final, done, members, holds⟩ := collectPairs_ok pairs (by simp :
    ∀ filter ∈ (Collected.mk ∅ []).merged, simple filter = true)
  refine ⟨combine (withValues final null) null nan, by simp only [mergeUnion, done]; rfl, ?_⟩
  refine (combine_result (withValues_simple members null) null nan).congr fun value => ?_
  rw [withValues_iff, holds]
  simp [Holds]

end

section

theorem accepting_meets {this other : Filter} (all : accepting this = true) (value : Bytes) :
    Meets this other value ↔ other.testBytes value = true := by
  cases this with
  | alwaysTrue =>
    rw [meets_free (by simp only [leaves]) (fun leaf => rfl), testBytes]
    simp
  | isNotNull =>
    rw [meets_free (by simp only [leaves]) (fun leaf => rfl), testBytes]
    simp
  | _ => cases all

variable (other : Filter)

theorem alwaysFalse_isMerge : IsMerge .alwaysFalse other (some .alwaysFalse) := by
  refine ⟨_, rfl, fun value => ?_, rfl, fun _ _ => trivial⟩
  simp [Meets, leaves, testBytes]

theorem alwaysTrue_isMerge : IsMerge .alwaysTrue other (some other) := by
  refine ⟨_, rfl, fun value => ?_, (Bool.true_and _).symm, fun all => by cases all⟩
  rw [accepting_meets rfl]

theorem isNull_isMerge : IsMerge .isNull other (some (if other.testNull then .isNull else .alwaysFalse)) := by
  refine ⟨_, rfl, fun value => ?_, ?_, fun _ _ => ?_⟩
  · cases other.testNull <;> simp [Meets, leaves, testBytes]
  · cases null : other.testNull <;> simp [testNull]
  · cases other.testNull <;> exact trivial

theorem withoutNull_isMerge (this : Filter) (flag : (this.clone false).testNull = false) :
    IsMerge this .isNotNull (some (this.clone false)) := by
  refine ⟨_, rfl, fun value => ?_, ?_, fun _ all => by cases all⟩
  · rw [meets_comm, accepting_meets rfl, testBytes_clone]
  · rw [flag]
    exact (Bool.and_false _).symm

end

open Result

section

theorem ranges_isMerge (range other : BytesRange) (null otherNull : Bool) :
    IsMerge (.bytesRange range null) (.bytesRange other otherNull)
      (some (mergeRanges range other (null && otherNull))) := by
  refine isMerge (mergeRanges_result range other (null && otherNull)) fun value => ?_
  rw [between_iff, between_iff]
  simp only [Meets, leaves, mem_singleton, exists_eq_left, testBytes, clash, Bool.or_eq_false_iff]
  tauto

variable (values : ValueSet)

theorem values_meets (null : Bool) (other : Filter) (value : Bytes) :
    Meets (.bytesValues values null) other value ↔ value ∈ values.values ∧ other.testBytes value = true := by
  rw [meets_free (by simp only [leaves]) (fun leaf => by cases leaf <;> rfl), testBytes, testValues_eq,
    decide_eq_true_iff]

theorem negatedValues_meets (null : Bool) (other : Filter) (value : Bytes) :
    Meets (.negatedBytesValues values null) other value ↔ value ∉ values.values ∧ other.testBytes value = true := by
  rw [meets_free (by simp only [leaves]) (fun leaf => by cases leaf <;> rfl), testBytes, testValues_eq,
    Bool.not_eq_true', decide_eq_false_iff_not]

variable (values other : ValueSet) (null otherNull : Bool)

theorem values_isMerge :
    IsMerge (.bytesValues values null) (.bytesValues other otherNull)
      (some (mergeValues values other (null && otherNull))) := by
  refine isMerge (mergeValues_result values other (null && otherNull)) fun value => ?_
  rw [values_meets, testBytes, testValues_eq, decide_eq_true_iff]

/-- The values that pass the test of another filter are kept. -/
theorem keptValues_isMerge (null : Bool) {other : Filter} {test : Bytes → Bool}
    (same : ∀ value, other.testBytes value = test value) :
    IsMerge (.bytesValues values null) other
      (some (keepValues (values.values.filter fun value => test value) (null && other.testNull))) := by
  refine isMerge (keepValues_result _ _) fun value => ?_
  rw [values_meets, Finset.mem_filter, same]

theorem valuesAndRange_isMerge (range : BytesRange) (null otherNull : Bool) :
    IsMerge (.bytesValues values null) (.bytesRange range otherNull)
      (some (mergeValuesAndRange values null range (null && otherNull))) := by
  refine isMerge (mergeValuesAndRange_result values null range (null && otherNull)) fun value => ?_
  rw [values_meets, testBytes]

theorem negatedValues_isMerge :
    IsMerge (.negatedBytesValues values null) (.negatedBytesValues other otherNull)
      (some (mergeNegatedValues values other (null && otherNull))) := by
  refine isMerge (mergeNegatedValues_result values other (null && otherNull)) fun value => ?_
  rw [negatedValues_meets, testBytes, testValues_eq, Bool.not_eq_true', decide_eq_false_iff_not]

theorem negatedValuesAndRange_isMerge (range : BytesRange) (null otherNull : Bool) :
    IsMerge (.negatedBytesValues values null) (.bytesRange range otherNull)
      (some (mergeNegatedValuesAndRange values range (null && otherNull))) := by
  refine isMerge (mergeNegatedValuesAndRange_result values range (null && otherNull)) fun value => ?_
  rw [negatedValues_meets, testBytes]

theorem clash_flag (leaf : Filter) (range : BytesRange) (null otherNull : Bool) :
    clash leaf (.bytesRange range null) = clash leaf (.bytesRange range otherNull) := by
  cases leaf <;> rfl

variable (range : BytesRange)

theorem toMultiRange_cases (null : Bool) :
    (∃ side, accepted range = [.bytesRange side false] ∧ toMultiRange range null = .bytesRange side null) ∨
      (accepted range = [.bytesRange (belowRange range) false, .bytesRange (aboveRange range) false] ∧
        toMultiRange range null = .multiRange (accepted range) null false) := by
  have bounded := range.bounded
  unfold toMultiRange accepted
  cases low : range.lower.unbounded <;> cases high : range.upper.unbounded
  · exact .inr ⟨rfl, rfl⟩
  · exact .inl ⟨belowRange range, rfl, rfl⟩
  · exact .inl ⟨aboveRange range, rfl, rfl⟩
  · rw [low, high] at bounded
    cases bounded

theorem toMultiRange_meets (null : Bool) (other : Filter) (value : Bytes) :
    Meets other (toMultiRange range null) value ↔ Meets other (.negatedBytesRange range null) value := by
  unfold Meets
  rcases toMultiRange_cases range null with ⟨side, pieces, same⟩ | ⟨pieces, same⟩
  · simp only [same, leaves, pieces, mem_singleton, exists_eq_left, testBytes,
      clash_flag _ side null false]
  · simp only [same, pieces, leaves, leavesOf, append_nil, singleton_append]

theorem toMultiRange_testNull (null : Bool) : (toMultiRange range null).testNull = null := by
  rcases toMultiRange_cases range null with ⟨side, _, same⟩ | ⟨_, same⟩ <;> rw [same] <;> rfl

theorem toMultiRange_depth (null : Bool) : depth (toMultiRange range null) ≤ 1 := by
  rcases toMultiRange_cases range null with ⟨side, _, same⟩ | ⟨pieces, same⟩
  · rw [same, depth]
    · omega
    all_goals simp
  · rw [same, pieces]
    simp [depth, depthOf]

theorem toMultiRange_domain (null : Bool) : InDomain (toMultiRange range null) := by
  rcases toMultiRange_cases range null with ⟨side, _, same⟩ | ⟨pieces, same⟩
  · rw [same]
    simp [InDomain]
  · rw [same, pieces]
    simp [InDomain, AllInDomain, accepting]

theorem toMultiRange_accepting (null : Bool) : accepting (toMultiRange range null) = false := by
  rcases toMultiRange_cases range null with ⟨side, _, same⟩ | ⟨_, same⟩ <;> rw [same] <;> rfl

/-- A negated range is merged as the union of its sides. -/
theorem negatedRange_isMerge {range : BytesRange} {null : Bool} {other : Filter} {result : Option Filter}
    (known : IsMerge other (toMultiRange range null) result) :
      IsMerge (.negatedBytesRange range null) other result := by
  obtain ⟨merged, done, tests, nulls, settled⟩ := known
  refine IsMerge.symm ⟨merged, done, fun value => ?_, ?_, fun first _ => ?_⟩
  · rw [tests, toMultiRange_meets]
  · rw [nulls, toMultiRange_testNull]
    rfl
  · exact settled first (toMultiRange_accepting range null)

end

section

def Known (merge : Filter → Filter → Option Filter) (bound : Nat) : Prop :=
  ∀ this other, InDomain this → InDomain other → depth this + depth other < bound →
    IsMerge this other (merge this other)

variable {filters : List Filter} {null : Bool} {range : BytesRange} {merge : Filter → Filter → Option Filter}

theorem union_isMerge {nan : Bool} {other : Filter}
    (domain : AllInDomain filters) (otherDomain : InDomain other) (closed : accepting other = false)
    (known : Known merge (depth (.multiRange filters null nan) + depth other)) :
    IsMerge (.multiRange filters null nan) other (mergeUnion merge filters [other] (null && other.testNull) nan) := by
  obtain ⟨merged, done, result⟩ := @mergeUnion_result merge filters [other] (by
    intro filter mem second same
    rw [mem_singleton.mp same]
    have inside := member_inDomain domain mem
    have less := depth_le_of_mem mem
    refine ⟨inside.1, closed, known filter other inside.2 otherDomain ?_⟩
    rw [depth]
    omega) (null && other.testNull) nan
  rw [done]
  refine isMerge result fun value => ?_
  rw [meets_union]
  simp only [mem_singleton, exists_eq_left]

theorem unions_isMerge {others : List Filter}
    {nan otherNull otherNan : Bool} (domain : AllInDomain filters) (otherDomain : AllInDomain others)
    (known : Known merge (depth (.multiRange filters null nan) + depth (.multiRange others otherNull otherNan))) :
    IsMerge (.multiRange filters null nan) (.multiRange others otherNull otherNan)
      (mergeUnion merge filters others (null && otherNull) (nan && otherNan)) := by
  obtain ⟨merged, done, result⟩ := @mergeUnion_result merge filters others (by
    intro filter mem other otherMember
    have inside := member_inDomain domain mem
    have otherInside := member_inDomain otherDomain otherMember
    have less := depth_le_of_mem mem
    have otherLess := depth_le_of_mem otherMember
    refine ⟨inside.1, otherInside.1, known filter other inside.2 otherInside.2 ?_⟩
    rw [depth, depth]
    omega) (null && otherNull) (nan && otherNan)
  rw [done]
  refine isMerge result fun value => ?_
  rw [meets_union]
  simp only [meets_comm _ (.multiRange others otherNull otherNan), meets_union]
  simp only [meets_comm]

variable {calls : Nat} {other : Filter}

/-- A negated range is exchanged for its sides in the next call. -/
theorem negatedRange_next (domain : InDomain other)
    (known : Known (mergeWith calls) (depth (.negatedBytesRange range null) + depth other)) :
    IsMerge (.negatedBytesRange range null) other (mergeWith calls other (toMultiRange range null)) := by
  apply negatedRange_isMerge
  apply known other _ domain (toMultiRange_domain range null)
  have sides := toMultiRange_depth range null
  rw [depth]
  omega

theorem constant_right {this : Filter} (constant : other.ctorIdx ≤ 3) :
    IsMerge this other (mergeWith (calls + 2) this other) := by
  cases other with
  | alwaysFalse => cases this <;> exact (alwaysFalse_isMerge _).symm
  | alwaysTrue => cases this <;> exact (alwaysTrue_isMerge _).symm
  | isNull => cases this <;> exact (isNull_isMerge _).symm
  | isNotNull =>
    cases this with
    | alwaysTrue => exact alwaysTrue_isMerge _
    | isNull => exact isNull_isMerge _
    | isNotNull => exact ⟨_, rfl, fun value => (accepting_meets rfl value).symm, rfl, fun all => by cases all⟩
    | _ => exact withoutNull_isMerge _ rfl
  | _ => exact absurd constant (of_decide_eq_false rfl)

theorem isNotNull_step : IsMerge .isNotNull other (mergeWith (calls + 2) .isNotNull other) := by
  have turned : IsMerge other .isNotNull (mergeWith (calls + 2) other .isNotNull) := constant_right (by decide)
  cases other <;> exact turned.symm

section

variable (domain : InDomain other)
include domain

theorem bytesRange_step (known : Known (mergeWith calls) (depth (.bytesRange range null) + depth other)) :
    IsMerge (.bytesRange range null) other (mergeWith (calls + 2) (.bytesRange range null) other) := by
  cases other with
  | alwaysFalse | alwaysTrue | isNull | isNotNull => exact constant_right (by decide)
  | bytesRange second otherNull => exact ranges_isMerge range second null otherNull
  | negatedBytesRange second otherNull =>
    rw [Nat.add_comm] at known
    exact (negatedRange_next (by simp [InDomain]) known).symm
  | bytesValues values otherNull => exact (valuesAndRange_isMerge values range otherNull null).symm
  | negatedBytesValues values otherNull => exact (negatedValuesAndRange_isMerge values range otherNull null).symm
  | multiRange filters otherNull nan =>
    rw [InDomain] at domain
    rw [Nat.add_comm] at known
    exact (union_isMerge domain (by simp [InDomain]) rfl known).symm

theorem negatedBytesRange_step
    (known : Known (mergeWith (calls + 1)) (depth (.negatedBytesRange range null) + depth other)) :
    IsMerge (.negatedBytesRange range null) other (mergeWith (calls + 2) (.negatedBytesRange range null) other) := by
  cases other with
  | alwaysFalse | alwaysTrue | isNull | isNotNull => exact constant_right (by decide)
  | bytesValues values otherNull =>
    have same (value : Bytes) : (negatedBytesRange range null).testBytes value = !range.testBytes value := by
      rw [testBytes]
    exact (keptValues_isMerge values otherNull same).symm
  | bytesRange | negatedBytesRange | negatedBytesValues | multiRange => exact negatedRange_next domain known

theorem bytesValues_step {values : ValueSet}
    (known : Known (mergeWith calls) (depth (.bytesValues values null) + depth other)) :
    IsMerge (.bytesValues values null) other (mergeWith (calls + 2) (.bytesValues values null) other) := by
  cases other with
  | alwaysFalse | alwaysTrue | isNull | isNotNull => exact constant_right (by decide)
  | bytesRange range otherNull => exact valuesAndRange_isMerge values range null otherNull
  | negatedBytesRange range otherNull =>
    exact keptValues_isMerge values null fun value => by rw [testBytes]
  | bytesValues second otherNull => exact values_isMerge values second null otherNull
  | negatedBytesValues second otherNull =>
    exact keptValues_isMerge values null fun value => by rw [testBytes]
  | multiRange filters otherNull nan =>
    rw [InDomain] at domain
    rw [Nat.add_comm] at known
    exact (union_isMerge domain (by simp [InDomain]) rfl known).symm

theorem negatedBytesValues_step {values : ValueSet}
    (known : Known (mergeWith calls) (depth (.negatedBytesValues values null) + depth other)) :
    IsMerge (.negatedBytesValues values null) other (mergeWith (calls + 2)
      (.negatedBytesValues values null) other) := by
  cases other with
  | alwaysFalse | alwaysTrue | isNull | isNotNull => exact constant_right (by decide)
  | bytesRange range otherNull => exact negatedValuesAndRange_isMerge values range null otherNull
  | negatedBytesRange range otherNull =>
    rw [Nat.add_comm] at known
    exact (negatedRange_next (by simp [InDomain]) known).symm
  | bytesValues second otherNull =>
    have same (value : Bytes) : (negatedBytesValues values null).testBytes value = !values.testBytes value := by
      rw [testBytes]
    exact (keptValues_isMerge second otherNull same).symm
  | negatedBytesValues second otherNull =>
    -- The filter with fewer values asks the other one.
    by_cases fewer : values.values.card < second.values.card
    · have turned : mergeWith (calls + 2) (.negatedBytesValues values null) (.negatedBytesValues second otherNull) =
          some (mergeNegatedValues second values (otherNull && null)) := by
        simp only [mergeWith, mergeStep, negatedBytesValuesMergeWith, if_pos fewer,
          if_neg (Nat.not_lt.mpr (Nat.le_of_lt fewer))]
      rw [turned]
      exact (negatedValues_isMerge second values otherNull null).symm
    · have direct : mergeWith (calls + 2) (.negatedBytesValues values null) (.negatedBytesValues second otherNull) =
          some (mergeNegatedValues values second (null && otherNull)) := by
        simp only [mergeWith, mergeStep, negatedBytesValuesMergeWith, if_neg fewer]
      rw [direct]
      exact negatedValues_isMerge values second null otherNull
  | multiRange filters otherNull nan =>
    rw [InDomain] at domain
    rw [Nat.add_comm] at known
    exact (union_isMerge domain (by simp [InDomain]) rfl known).symm

end

theorem multiRange_step {nan : Bool} (domain : AllInDomain filters) (otherDomain : InDomain other)
    (known : ∀ more ≤ 1, Known (mergeWith (calls + more)) (depth (.multiRange filters null nan) + depth other)) :
    IsMerge (.multiRange filters null nan) other (mergeWith (calls + 2) (.multiRange filters null nan) other) := by
  have next := known 1 (Nat.le_refl 1)
  cases other with
  | alwaysFalse | alwaysTrue | isNull | isNotNull => exact constant_right (by decide)
  | negatedBytesRange range otherNull =>
    have turned := known 0 (Nat.zero_le 1)
    rw [Nat.add_comm (depth _)] at turned
    exact (negatedRange_next (by rw [InDomain]; exact domain) turned).symm
  | multiRange others otherNull otherNan =>
    rw [InDomain] at otherDomain
    exact unions_isMerge domain otherDomain next
  | bytesRange | bytesValues | negatedBytesValues => exact union_isMerge domain otherDomain rfl next

theorem mergeWith_step {this : Filter} (domain : InDomain this) (otherDomain : InDomain other)
    (known : ∀ more ≤ 1, Known (mergeWith (calls + more)) (depth this + depth other)) :
    IsMerge this other (mergeWith (calls + 2) this other) := by
  have first := known 0 (Nat.zero_le 1)
  have next := known 1 (Nat.le_refl 1)
  cases this with
  | alwaysFalse => exact alwaysFalse_isMerge other
  | alwaysTrue => exact alwaysTrue_isMerge other
  | isNull => exact isNull_isMerge other
  | isNotNull => exact isNotNull_step
  | bytesRange range null => exact bytesRange_step otherDomain first
  | negatedBytesRange range null => exact negatedBytesRange_step otherDomain next
  | bytesValues values null => exact bytesValues_step otherDomain first
  | negatedBytesValues values null => exact negatedBytesValues_step otherDomain first
  | multiRange filters null nan =>
    rw [InDomain] at domain
    exact multiRange_step domain otherDomain known

/-- Two calls for each level of the filters, and two more, are enough. -/
theorem mergeWith_isMerge (levels : Nat) : ∀ this other, InDomain this → InDomain other →
    depth this + depth other ≤ levels → ∀ calls, 2 * levels ≤ calls →
      IsMerge this other (mergeWith (calls + 2) this other) := by
  induction levels with
  | zero =>
    intro this other domain otherDomain level calls _
    apply mergeWith_step domain otherDomain
    intro more _ first second _ _ less
    omega
  | succ levels ih =>
    intro this other domain otherDomain level calls enough
    apply mergeWith_step domain otherDomain
    intro more _ first second firstDomain secondDomain less
    obtain ⟨rest, same⟩ : ∃ rest, calls + more = rest + 2 := ⟨calls + more - 2, by omega⟩
    rw [same]
    exact ih first second firstDomain secondDomain (by omega) rest (by omega)

end

def rounds (this other : Filter) : Nat := 2 * (depth this + depth other) + 2

/-- The empty string is not lost: where both filters accept it, some of their leaves do that are not two ranges
of which one begins with it and ends before it. -/
def EmptyKept (this other : Filter) : Prop :=
  this.testBytes .empty = true → other.testBytes .empty = true →
    ∃ leaf ∈ leaves this, ∃ otherLeaf ∈ leaves other, leaf.testBytes .empty = true ∧ otherLeaf.testBytes .empty = true ∧
      clash leaf otherLeaf = false

/-- The merge of two string filters is their conjunction if, and only if, it keeps the empty string. -/
theorem merged_strings_iff (this other : Filter) (domain : InDomain this) (otherDomain : InDomain other) (calls : Nat)
    (enough : rounds this other ≤ calls) :
    (∃ merged, mergeWith calls this other = some merged ∧
      (∀ value, merged.testBytes value = true ↔ this.testBytes value = true ∧ other.testBytes value = true) ∧
      (merged.testNull = true ↔ this.testNull = true ∧ other.testNull = true)) ↔ EmptyKept this other := by
  unfold rounds at enough
  obtain ⟨rest, rfl⟩ : ∃ rest, calls = rest + 2 := ⟨calls - 2, by omega⟩
  obtain ⟨merged, done, tests, nulls, _⟩ :=
    mergeWith_isMerge _ this other domain otherDomain (Nat.le_refl _) rest (by omega)
  constructor
  · rintro ⟨result, returned, conjunction, _⟩ test otherTest
    rw [done] at returned
    cases returned
    obtain ⟨leaf, mem, otherLeaf, otherMember, accepts, otherAccepts, kept⟩ :=
      (tests .empty).mp ((conjunction .empty).mpr ⟨test, otherTest⟩)
    exact ⟨leaf, mem, otherLeaf, otherMember, accepts, otherAccepts, kept rfl⟩
  · intro kept
    refine ⟨merged, done, fun value => ?_, ?_⟩
    · rw [tests]
      refine ⟨both_of_meets, fun both => ?_⟩
      by_cases empty : value = .empty
      · subst empty
        obtain ⟨leaf, mem, otherLeaf, otherMember, accepts, otherAccepts, free⟩ := kept both.1 both.2
        exact ⟨leaf, mem, otherLeaf, otherMember, accepts, otherAccepts, fun _ => free⟩
      · exact meets_of_both empty both.1 both.2
    · rw [nulls, Bool.and_eq_true]

def fromEmpty : BytesRange := ⟨⟨.empty, false, false⟩, ⟨.empty, true, false⟩, rfl⟩

def emptyToEmpty : BytesRange := ⟨⟨.empty, false, false⟩, ⟨.empty, false, true⟩, rfl⟩

def emptyOrOutside : Filter :=
  .multiRange [.bytesValues ⟨{.empty}, Finset.singleton_nonempty _⟩ false, .negatedBytesRange fromEmpty true] true false

theorem emptyOrOutside_kept : EmptyKept emptyOrOutside (.bytesRange fromEmpty true) := by
  intro _ accepts
  refine ⟨.bytesValues ⟨{.empty}, Finset.singleton_nonempty _⟩ false, ?_, .bytesRange fromEmpty true, ?_, ?_, accepts,
    rfl⟩
  · simp [emptyOrOutside, leaves, leavesOf]
  · simp [leaves]
  · simp [testBytes, testValues_eq]

theorem emptyOrOutside_merged : ∃ merged,
    mergeWith (rounds emptyOrOutside (.bytesRange fromEmpty true)) emptyOrOutside (.bytesRange fromEmpty true) =
      some merged ∧ (∀ value, merged.testBytes value = true ↔
      emptyOrOutside.testBytes value = true ∧ (bytesRange fromEmpty true).testBytes value = true) ∧
    (merged.testNull = true ↔ emptyOrOutside.testNull = true ∧ (bytesRange fromEmpty true).testNull = true) := by
  refine (merged_strings_iff emptyOrOutside (.bytesRange fromEmpty true) ?_ ?_ _
    (Nat.le_refl _)).mpr emptyOrOutside_kept
  · simp [emptyOrOutside, InDomain, AllInDomain, accepting]
  · simp [InDomain]

/-- Both ranges accept the empty string, and their merge does not. -/
theorem empty_string_lost :
    (mergeWith (rounds (.bytesRange emptyToEmpty false) (.bytesRange fromEmpty false)) (.bytesRange emptyToEmpty false)
        (.bytesRange fromEmpty false)).map (·.testBytes .empty) = some false ∧
      (bytesRange emptyToEmpty false).testBytes .empty = true ∧
      (bytesRange fromEmpty false).testBytes .empty = true := by
  decide +kernel

end CactusDB.Filters.BytesConjunction
