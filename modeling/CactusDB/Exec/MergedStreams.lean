import CactusDB.Exec.TreeOfLosers
import CactusDB.Library.WeakOrder
import Mathlib.Data.List.Sort
import Mathlib.Data.List.GetD

/-! The tree of losers merges ordered streams. -/

namespace CactusDB.Exec.MergedStreams
open Library LoserTree WeakOrder Common.BitUtil TreeOfLosers
open List hiding head

/-- The levels before the last one have one node less than the last one has. -/
theorem fillLevels_spec {numStreams size levelSize : Nat} {positive : 0 < levelSize} (full : size + 1 = levelSize)
    (power : ∃ bits, levelSize = 2 ^ bits) (before : levelSize = 1 ∨ levelSize / 2 < numStreams) :
    ∃ bits, fillLevels numStreams size levelSize positive = (2 ^ bits - 1, 2 ^ bits) ∧ numStreams ≤ 2 ^ bits ∧
      (bits = 0 ∨ 2 ^ bits / 2 < numStreams) := by
  fun_induction fillLevels numStreams size levelSize positive with
  | case1 size levelSize positive smaller ih =>
    obtain ⟨bits, rfl⟩ := power
    exact ih (by omega) ⟨bits + 1, (Nat.pow_succ 2 bits).symm⟩ (.inr (by omega))
  | case2 size levelSize positive large =>
    obtain ⟨bits, rfl⟩ := power
    refine ⟨bits, ?_, Nat.not_lt.mp large, before.imp ?_ id⟩
    · rw [← full, Nat.add_sub_cancel]
    · exact fun one => (Nat.pow_eq_one.mp one).resolve_left (by decide)

theorem firstStreamOf_eq {numStreams : Nat} (present : 1 ≤ numStreams) : firstStreamOf numStreams = numStreams - 1 := by
  have levels : ∃ bits, fillLevels numStreams 0 1 Nat.one_pos = (2 ^ bits - 1, 2 ^ bits) ∧ numStreams ≤ 2 ^ bits ∧
      (bits = 0 ∨ 2 ^ bits / 2 < numStreams) := fillLevels_spec rfl ⟨0, rfl⟩ (.inl rfl)
  obtain ⟨bits, levels, room, least⟩ := levels
  unfold firstStreamOf
  rw [levels]
  by_cases power : numStreams = nextPowerOfTwo numStreams
  · simp only [if_pos power]
    obtain ⟨own, same⟩ := exists_nextPowerOfTwo present
    rw [← power] at same
    rw [same] at room least ⊢
    have low : own ≤ bits := (Nat.pow_le_pow_iff_right (by decide)).mp room
    have high : bits ≤ own := by
      rcases least with none | half
      · omega
      · cases bits with
        | zero => exact Nat.zero_le own
        | succ bits =>
          rw [Nat.pow_succ, Nat.mul_div_cancel _ (by decide)] at half
          exact (Nat.pow_lt_pow_iff_right (by decide)).mp half
    rw [Nat.le_antisymm low high]
  · simp only [if_neg power]
    cases bits with
    | zero =>
      have one : numStreams = 1 := by omega
      rw [one] at power
      exact absurd (nextPowerOfTwo_pow 0).symm power
    | succ bits =>
      have half := least.resolve_left (Nat.succ_ne_zero bits)
      rw [Nat.pow_succ] at room half ⊢
      omega

section

variable {ε α : Type}

structure Law (method : Method ε α) (less : α → α → Bool) where
  beats : List (List α) → ε → ε → ε → Prop
  index_enter : ∀ index, method.index (method.enter index) = index
  index_up : ∀ streams one other up, beats streams one other up → method.index up = method.index one
  fair_play : ∀ streams, Fair (beats streams) (method.play streams)
  fair_replay : ∀ streams, Fair (beats streams) (method.replay streams)
  order : ∀ streams one other up, beats streams one other up →
    lessThan less streams (method.index other) (method.index one) = false
  heads : ∀ streams others one other up, head others (method.index one) = head streams (method.index one) →
    head others (method.index other) = head streams (method.index other) →
    beats streams one other up → beats others one other up

variable {less : α → α → Bool} [order : IsStrictWeakOrder α fun one other => less one other = true]

theorem lessThan_asymm {streams : List (List α)} {one other : Nat} (lower : lessThan less streams one other = true) :
    lessThan less streams other one = false := by
  unfold lessThan at *
  cases left : head streams one with
  | none => simp [left] at lower
  | some value =>
    cases right : head streams other with
    | none => simp
    | some otherValue =>
      simp only [left, right] at lower ⊢
      exact less_asymm lower

def Beats (less : α → α → Bool) (streams : List (List α)) (one other up : Nat) : Prop :=
  up = one ∧ lessThan less streams other one = false

theorem fair_match (streams : List (List α)) : Fair (Beats less streams) (matchFirst less streams) := by
  intro one other
  cases lower : lessThan less streams one other with
  | true =>
    have played : matchFirst less streams one other = (one, other) := by simp [matchFirst, lower]
    rw [played]
    exact .inl ⟨rfl, rfl, lessThan_asymm lower⟩
  | false =>
    have played : matchFirst less streams one other = (other, one) := by simp [matchFirst, lower]
    rw [played]
    exact .inr ⟨rfl, rfl, lower⟩

def mergingLaw : Law (merging less) less where
  beats := Beats less
  index_enter _ := rfl
  index_up _ _ _ _ won := won.1
  fair_play := fair_match
  fair_replay := fair_match
  order _ _ _ _ won := won.2
  heads streams others one other up same otherSame won := by
    have oneSame : head others one = head streams one := same
    have otherSame : head others other = head streams other := otherSame
    unfold Beats lessThan at won ⊢
    rw [oneSame, otherSame]
    exact won

end

section

variable {α : Type} {less : α → α → Bool}

structure Compares (compare : α → α → Int) (less : α → α → Bool) : Prop where
  negative : ∀ one other, compare one other < 0 ↔ less one other = true
  positive : ∀ one other, 0 < compare one other ↔ less other one = true

def BeatsWithEquals (less : α → α → Bool) (streams : List (List α)) (one other up : Nat × Bool) : Prop :=
  up.1 = one.1 ∧ lessThan less streams other.1 one.1 = false ∧ up.2 = (one.2 || !lessThan less streams one.1 other.1)

variable {compare : α → α → Int} (compares : Compares compare less) (streams : List (List α))
include compares

theorem compareStreams_iff (one other : Nat) :
    (compareStreams compare streams one other < 0 ↔ lessThan less streams one other = true) ∧
      (0 < compareStreams compare streams one other ↔ lessThan less streams other one = true) := by
  unfold compareStreams lessThan
  cases head streams one with
  | none => cases head streams other <;> simp
  | some value =>
    cases head streams other with
    | none => simp
    | some otherValue => exact ⟨compares.negative value otherValue, compares.positive value otherValue⟩

theorem comparison_cases (one other : Nat) :
    (compareStreams compare streams one other = 0 ∧ lessThan less streams one other = false ∧
      lessThan less streams other one = false) ∨
    (compareStreams compare streams one other < 0 ∧ lessThan less streams one other = true ∧
      lessThan less streams other one = false) ∨
    (0 < compareStreams compare streams one other ∧ lessThan less streams one other = false ∧
      lessThan less streams other one = true) := by
  obtain ⟨negative, positive⟩ := compareStreams_iff compares streams one other
  simp only [← Bool.not_eq_true, ← negative, ← positive]
  omega

theorem fair_matchFirstWithEquals : Fair (BeatsWithEquals less streams) (matchFirstWithEquals compare streams) := by
  intro one other
  unfold matchFirstWithEquals
  rcases comparison_cases compares streams one.1 other.1 with ⟨sign, lower, higher⟩ | ⟨sign, lower, higher⟩ |
    ⟨sign, lower, higher⟩
  · rw [if_pos sign]
    exact .inl ⟨rfl, rfl, higher, by simp [lower]⟩
  · rw [if_neg (by omega), if_pos sign]
    exact .inl ⟨rfl, rfl, higher, by simp [lower]⟩
  · rw [if_neg (by omega), if_neg (by omega)]
    exact .inr ⟨rfl, rfl, lower, by simp [higher]⟩

theorem fair_matchAgainWithEquals : Fair (BeatsWithEquals less streams) (matchAgainWithEquals compare streams) := by
  intro one other
  unfold matchAgainWithEquals
  rcases comparison_cases compares streams one.1 other.1 with ⟨sign, lower, higher⟩ | ⟨sign, lower, higher⟩ |
    ⟨sign, lower, higher⟩
  · rw [if_pos sign]
    exact .inr ⟨rfl, rfl, lower, by simp [higher]⟩
  · rw [if_neg (by omega), if_pos sign]
    exact .inl ⟨rfl, rfl, higher, by simp [lower]⟩
  · rw [if_neg (by omega), if_neg (by omega)]
    exact .inr ⟨rfl, rfl, lower, by simp [higher]⟩

def mergingWithEqualsLaw : Law (mergingWithEquals compare) less where
  beats := BeatsWithEquals less
  index_enter _ := rfl
  index_up _ _ _ _ won := won.1
  fair_play := fair_matchFirstWithEquals compares
  fair_replay := fair_matchAgainWithEquals compares
  order _ _ _ _ won := won.2.1
  heads streams others one other up same otherSame won := by
    have oneSame : head others one.1 = head streams one.1 := same
    have otherSame : head others other.1 = head streams other.1 := otherSame
    unfold BeatsWithEquals lessThan at won ⊢
    rw [oneSame, otherSame]
    exact won

end

section

variable {ε α : Type} {method : Method ε α} {less : α → α → Bool} (law : Law method less)

/-- A tree between two rounds. Either nothing has been returned, or the winner of the last round has been popped. -/
structure Ready (tree : TreeOfLosers ε α) : Prop where
  shape : tree.streams.length = tree.firstStream + 1
  length : tree.values.length = tree.firstStream
  phase : (tree.lastIndex = none ∧ ∀ place, held tree.values place = none) ∨
    (0 < tree.firstStream ∧ ∃ up before, tree.lastIndex = some (method.index up) ∧
      Settled tree.firstStream (entrant method before) (law.beats before) tree.values 0 (some up) ∧
      ∀ other, other ≠ method.index up → head tree.streams other = head before other)

theorem create_ready {streams : List (List α)} (present : streams ≠ []) :
    ∃ tree : TreeOfLosers ε α, create streams = some tree ∧ tree.streams = streams ∧ Ready law tree := by
  have positive : 1 ≤ streams.length := length_pos_of_ne_nil present
  refine ⟨_, if_pos positive, rfl, ⟨?_, length_replicate, .inl ⟨rfl, fun place => ?_⟩⟩⟩
  · show streams.length = firstStreamOf streams.length + 1
    rw [firstStreamOf_eq positive]
    omega
  · simp only [held, getD_eq_getElem?_getD, getElem?_replicate]
    split <;> rfl

variable (streams : List (List α))

include law in
theorem entrant_own (place : Nat) (entry : ε)
    (entered : entrant method streams place = some entry) : method.index entry = place := by
  unfold entrant at entered
  split at entered
  · rw [← Option.some.inj entered, law.index_enter]
  · cases entered

theorem entrant_of_head {streams others : List (List α)} {place : Nat} (same : head others place = head streams place) :
    entrant method others place = entrant method streams place := by
  unfold entrant hasData
  rw [same]

structure Advanced (tree : TreeOfLosers ε α) (result : Option ε × TreeOfLosers ε α) : Prop where
  settled : Settled tree.firstStream (entrant method tree.streams) (law.beats tree.streams) result.2.values 0 result.1
  streams : result.2.streams = tree.streams
  firstStream : result.2.firstStream = tree.firstStream
  length : result.2.values.length = tree.firstStream
  last : (0 < tree.firstStream ∧ result.2.lastIndex = result.1.map method.index) ∨
    (tree.firstStream = 0 ∧ result.2.lastIndex = none)

variable {law}

variable {tree : TreeOfLosers ε α}

theorem advanced_of_plays (ready : Ready law tree) (several : 0 < tree.firstStream)
    {result : Option ε × List (Option ε)}
    (plays : Plays tree.firstStream (entrant method tree.streams) (law.beats tree.streams) 0 tree.values result) :
    Advanced law tree (result.1, { tree with values := result.2, lastIndex := result.1.map method.index }) :=
  ⟨plays.settled, rfl, rfl, plays.length.trans ready.length, .inl ⟨several, rfl⟩⟩

theorem advance_advanced (ready : Ready law tree) : Advanced law tree (advance method tree) := by
  unfold advance
  rcases ready.phase with ⟨last, empty⟩ | ⟨several, up, before, last, settled, others⟩
  · rw [last]
    dsimp only
    split
    case isTrue nothing =>
      have single : tree.firstStream = 0 := by
        rw [← ready.length, isEmpty_iff.mp nothing]
        rfl
      refine ⟨?_, rfl, rfl, ready.length, .inr ⟨single, last⟩⟩
      rw [single]
      exact .leaf (Nat.le_refl 0)
    case isFalse some =>
      have several : 0 < tree.firstStream := by
        rw [← ready.length, length_pos_iff]
        simpa using some
      exact advanced_of_plays ready several
        (first_plays (law.fair_play tree.streams) (fun place _ => empty place) (Nat.le_of_eq ready.length.symm))
  · rw [last]
    apply advanced_of_plays ready several
    apply propagate_plays (law.fair_replay tree.streams) (Nat.le_of_eq ready.length.symm) (entrant_own law before)
      (law.index_up before) several settled
    refine ⟨fun other different => entrant_of_head (others other different), fun one other up away otherAway won => ?_⟩
    exact law.heads before tree.streams one other up (others _ away) (others _ otherAway) won

theorem head_pop_of_ne {index other : Nat} (different : other ≠ index) :
    head (pop streams index) other = head streams other := by
  simp [head, pop, getD_eq_getElem?_getD, different.symm]

variable {call : TreeOfLosers ε α → Option ε × TreeOfLosers ε α}

theorem turn_of_none {index : ε → Nat} (nothing : (call tree).1 = none) :
    turn call index tree = (none, (call tree).2) := by
  unfold turn
  rw [← Prod.eta (call tree), nothing]

theorem turn_of_some {index : ε → Nat} {entry : ε} (found : (call tree).1 = some entry) : turn call index tree =
      ((head (call tree).2.streams (index entry)).map (entry, ·),
        { (call tree).2 with streams := pop (call tree).2.streams (index entry) }) := by
  unfold turn
  rw [← Prod.eta (call tree), found]

theorem turn_ready (ready : Ready law tree) : Ready law (turn (advance method) method.index tree).2 := by
  have advanced := advance_advanced ready
  have outside {values : List (Option ε)} {place : Nat} (far : values.length ≤ place) : held values place = none := by
    simp [held, getD_eq_getElem?_getD, far]
  cases result : (advance method tree).1 with
  | none =>
    rw [turn_of_none result]
    refine ⟨?_, advanced.length.trans advanced.firstStream.symm, .inl ⟨?_, fun place => ?_⟩⟩
    · rw [advanced.streams, advanced.firstStream]
      exact ready.shape
    · rcases advanced.last with last | last
      · rw [last.2, result]
        rfl
      · exact last.2
    · by_cases inside : place < tree.firstStream
      · exact held_of_settled_none advanced.settled result place (below_root place) inside
      · exact outside (by rw [advanced.length]; omega)
  | some entry =>
    rw [turn_of_some result]
    have settled := advanced.settled
    rw [result] at settled
    refine ⟨?_, advanced.length.trans advanced.firstStream.symm, ?_⟩
    · show (pop (advance method tree).2.streams (method.index entry)).length = (advance method tree).2.firstStream + 1
      rw [pop, length_modify, advanced.streams, advanced.firstStream]
      exact ready.shape
    · rcases advanced.last with ⟨several, last⟩ | ⟨single, last⟩
      · refine .inr ⟨?_, entry, tree.streams, ?_, ?_, fun other different => ?_⟩
        · exact advanced.firstStream.symm ▸ several
        · exact last.trans (by rw [result]; rfl)
        · exact advanced.firstStream.symm ▸ settled
        · exact (head_pop_of_ne _ different).trans (by rw [advanced.streams])
      · exact .inl ⟨last, fun place => outside (by rw [advanced.length, single]; exact Nat.zero_le place)⟩

end

section

variable {ε α : Type} {method : Method ε α} {less : α → α → Bool} {law : Law method less}
  [order : IsStrictWeakOrder α fun one other => less one other = true]

variable {streams : List (List α)} {entry : ε}

omit order in
theorem lessThan_heads {left right : Nat} {one other : α} (first : head streams left = some one)
    (second : head streams right = some other) : lessThan less streams left right = less one other := by
  simp [lessThan, first, second]

def Least (method : Method ε α) (less : α → α → Bool) (streams : List (List α)) (leaves : Set Nat) (entry : ε) : Prop :=
  method.index entry ∈ leaves ∧ ∃ value, head streams (method.index entry) = some value ∧
    ∀ leaf ∈ leaves, ∀ other, head streams leaf = some other → less other value = false

variable {leaf : Nat}

theorem head_of_entrant (entered : entrant method streams leaf = some entry) :
    ∃ value, head streams leaf = some value := by
  unfold entrant hasData at entered
  split at entered
  case isTrue some => exact Option.isSome_iff_exists.mp some
  case isFalse => cases entered

theorem head_of_no_entrant (absent : entrant method streams leaf = none) : head streams leaf = none := by
  unfold entrant hasData at absent
  split at absent
  case isTrue => cases absent
  case isFalse nothing => simpa using nothing

theorem least_single (entered : entrant method streams leaf = some entry) (own : method.index entry = leaf) :
    Least method less streams {leaf} entry := by
  obtain ⟨value, first⟩ := head_of_entrant entered
  refine ⟨own, value, own ▸ first, fun other mem otherValue otherFirst => ?_⟩
  have place : other = leaf := mem
  rw [place, first] at otherFirst
  rw [← Option.some.inj otherFirst]
  exact less_irrefl value

omit order in
theorem least_alone {leaves others : Set Nat}
    (least : Least method less streams leaves entry) (absent : ∀ other ∈ others, head streams other = none) :
    Least method less streams (leaves ∪ others) entry := by
  obtain ⟨mem, value, first, lowest⟩ := least
  refine ⟨.inl mem, value, first, fun leaf either other otherFirst => ?_⟩
  rcases either with inside | outside
  · exact lowest leaf inside other otherFirst
  · rw [absent leaf outside] at otherFirst
    cases otherFirst

theorem least_played {leaves others : Set Nat} {one other up : ε}
    (least : Least method less streams leaves one) (otherLeast : Least method less streams others other)
    (lower : lessThan less streams (method.index other) (method.index one) = false)
    (same : method.index up = method.index one) : Least method less streams (leaves ∪ others) up := by
  obtain ⟨mem, value, first, lowest⟩ := least
  obtain ⟨_, otherValue, otherFirst, otherLowest⟩ := otherLeast
  rw [lessThan_heads otherFirst first] at lower
  unfold Least
  rw [same]
  refine ⟨.inl mem, value, first, fun leaf either next nextFirst => ?_⟩
  rcases either with inside | outside
  · exact lowest leaf inside next nextFirst
  · exact notLess_trans (otherLowest leaf outside next nextFirst) lower

theorem least_of_settled {inner : Nat} {values : List (Option ε)}
    (settled : Settled inner (entrant method streams) (law.beats streams) values 0 (some entry)) :
    Least method less streams (leaves inner 0) entry := by
  refine champion_of_settled (Nat.zero_le _) settled ?_ ?_ ?_ rfl
  · exact fun leaf entry entered => least_single entered (entrant_own law streams leaf entry entered)
  · exact fun leaves others entry least absent =>
      least_alone least fun other mem => head_of_no_entrant (absent other mem)
  · exact fun leaves others one other up least otherLeast _ won =>
      least_played least otherLeast (law.order streams one other up won) (law.index_up streams one other up won)

omit order in
theorem getD_eq_nil_of_head {index : Nat} (nothing : head streams index = none) :
    streams.getD index [] = [] := head?_eq_none_iff.mp nothing

variable {tree : TreeOfLosers ε α}

omit order in
theorem turn_none (ready : Ready law tree) (nothing : (advance method tree).1 = none) :
    (turn (advance method) method.index tree).1 = none ∧ (∀ index, tree.streams.getD index [] = []) ∧
      (turn (advance method) method.index tree).2.streams = tree.streams := by
  have advanced := advance_advanced ready
  rw [turn_of_none nothing]
  refine ⟨rfl, fun index => ?_, advanced.streams⟩
  by_cases inside : index ≤ tree.firstStream
  · apply getD_eq_nil_of_head
    apply head_of_no_entrant
    exact entrant_of_settled_none (Nat.zero_le _) advanced.settled nothing index (leaves_root _ inside)
  · rw [getD_eq_default]
    have shape := ready.shape
    omega

theorem turn_some (ready : Ready law tree) (found : (advance method tree).1 = some entry) : ∃ value,
      (turn (advance method) method.index tree).1 = some (entry, value) ∧
      head tree.streams (method.index entry) = some value ∧
      (∀ index other, head tree.streams index = some other → less other value = false) ∧
      (turn (advance method) method.index tree).2.streams = pop tree.streams (method.index entry) := by
  have advanced := advance_advanced ready
  have settled := advanced.settled
  rw [found] at settled
  obtain ⟨_, value, first, lowest⟩ := least_of_settled settled
  rw [turn_of_some found, advanced.streams, first]
  refine ⟨value, rfl, rfl, fun index other otherFirst => ?_, rfl⟩
  apply lowest index (leaves_root _ ?_) other otherFirst
  by_contra far
  have shape := ready.shape
  rw [head, getD_eq_default _ _ (by omega)] at otherFirst
  cases otherFirst

end

section

variable {ε α : Type}

variable {index : Nat} {streams : List (List α)} {tree : TreeOfLosers ε α} {value : α}

theorem getD_pop_self (first : head streams index = some value) :
    streams.getD index [] = value :: (pop streams index).getD index [] := by
  have popped : (pop streams index).getD index [] = (streams.getD index []).tail := by
    simp only [pop, getD_eq_getElem?_getD, getElem?_modify_eq]
    cases streams[index]? <;> rfl
  rw [popped]
  exact (cons_head?_tail first).symm

theorem getD_pop_of_ne (streams : List (List α)) {other : Nat} (different : other ≠ index) :
    (pop streams index).getD other [] = streams.getD other [] := by
  simp [pop, getD_eq_getElem?_getD, different.symm]

theorem flatten_pop (first : head streams index = some value) :
    (value :: (pop streams index).flatten).Perm streams.flatten := by
  induction streams generalizing index with
  | nil => simp [head] at first
  | cons stream rest ih =>
    cases index with
    | zero =>
      have same : stream = value :: stream.tail := (cons_head?_tail first).symm
      have whole : (stream :: rest).flatten = value :: (pop (stream :: rest) 0).flatten := by
        rw [flatten_cons]
        nth_rewrite 1 [same]
        rfl
      rw [whole]
    | succ index =>
      have popped : pop (stream :: rest) (index + 1) = stream :: pop rest index := rfl
      rw [popped, flatten_cons, flatten_cons]
      have inner : (value :: (pop rest index).flatten).Perm rest.flatten := ih first
      exact perm_middle.symm.trans (inner.append_left stream)

def Sorted (less : α → α → Bool) (streams : List (List α)) : Prop :=
  ∀ index, (streams.getD index []).Pairwise fun one other => less other one = false

variable {less : α → α → Bool}

theorem sorted_of_mem
    (sorted : ∀ stream ∈ streams, stream.Pairwise fun one other => less other one = false) : Sorted less streams := by
  intro index
  by_cases inside : index < streams.length
  · rw [getD_eq_getElem _ _ inside]
    exact sorted _ (getElem_mem inside)
  · rw [getD_eq_default _ _ (Nat.not_lt.mp inside)]
    exact .nil

theorem sorted_pop (sorted : Sorted less streams)
    (first : head streams index = some value) : Sorted less (pop streams index) := by
  intro other
  by_cases same : other = index
  · have whole := sorted index
    rw [getD_pop_self first] at whole
    rw [same]
    exact whole.of_cons
  · rw [getD_pop_of_ne streams same]
    exact sorted other

structure Merges (call : TreeOfLosers ε α → Option ε × TreeOfLosers ε α) (index : ε → Nat) (less : α → α → Bool)
    (tree : TreeOfLosers ε α) (streams : List (List α)) (items : List (ε × α)) : Prop where
  outputs : ∀ count, output call index tree count = items[count]?
  ordered : items.Pairwise fun one other => less other.2 one.2 = false
  complete : ∀ place, (items.filter fun item => index item.1 = place).map Prod.snd = streams.getD place []

variable {method : Method ε α} {less : α → α → Bool} {law : Law method less}
  [order : IsStrictWeakOrder α fun one other => less one other = true]

theorem output_succ (call : TreeOfLosers ε α → Option ε × TreeOfLosers ε α) (index : ε → Nat) (tree : TreeOfLosers ε α)
    (count : Nat) : output call index tree (count + 1) = output call index (turn call index tree).2 count := rfl

section

variable (ready : Ready law tree) (empty : ∀ index, tree.streams.getD index [] = [])
include ready empty

theorem advance_none_of_empty : (advance method tree).1 = none := by
  cases found : (advance method tree).1 with
  | none => rfl
  | some entry =>
    obtain ⟨value, _, first, _⟩ := turn_some ready found
    rw [head, empty] at first
    cases first

theorem output_of_empty (count : Nat) :
    output (advance method) method.index tree count = none := by
  induction count generalizing tree with
  | zero => exact (turn_none ready (advance_none_of_empty ready empty)).1
  | succ count ih =>
    rw [output_succ]
    apply ih (turn_ready ready)
    rw [(turn_none ready (advance_none_of_empty ready empty)).2.2]
    exact empty

end

/-- A value that a caller gets first is not above the others of its streams. -/
theorem least_of_heads (sorted : Sorted less streams)
    (lowest : ∀ index other, head streams index = some other → less other value = false) :
    ∀ other ∈ streams.flatten, less other value = false := by
  intro other mem
  obtain ⟨stream, inside, within⟩ := mem_flatten.mp mem
  obtain ⟨index, near, rfl⟩ := getElem_of_mem inside
  rw [← getD_eq_getElem _ [] near] at within
  have ascending := sorted index
  cases whole : streams.getD index [] with
  | nil => rw [whole] at within; cases within
  | cons first rest =>
    have start := lowest index first (by rw [head, whole]; rfl)
    rw [whole] at within ascending
    rcases mem_cons.mp within with rfl | later
    · exact start
    · exact notLess_trans (rel_of_pairwise_cons ascending later) start

theorem merges_of_ready (ready : Ready law tree) (sorted : Sorted less tree.streams) :
    ∃ items, Merges (advance method) method.index less tree tree.streams items ∧
      (items.map Prod.snd).Perm tree.streams.flatten := by
  -- The induction is on the number of values that are left.
  generalize size : tree.streams.flatten.length = left
  induction left generalizing tree with
  | zero =>
    have nothing := eq_nil_of_length_eq_zero size
    have empty : ∀ index, tree.streams.getD index [] = [] := by
      intro index
      by_cases inside : index < tree.streams.length
      · rw [getD_eq_getElem _ _ inside]
        exact flatten_eq_nil_iff.mp nothing _ (getElem_mem inside)
      · exact getD_eq_default _ _ (Nat.not_lt.mp inside)
    refine ⟨[], ⟨fun count => ?_, .nil, fun place => (empty place).symm⟩, by rw [nothing]; rfl⟩
    exact (output_of_empty ready empty count).trans (getElem?_nil).symm
  | succ left ih =>
    cases found : (advance method tree).1 with
    | none =>
      obtain ⟨_, empty, _⟩ := turn_none ready found
      have nothing : tree.streams.flatten = [] := by
        rw [flatten_eq_nil_iff]
        intro stream mem
        obtain ⟨index, near, rfl⟩ := getElem_of_mem mem
        rw [← getD_eq_getElem _ [] near]
        exact empty index
      rw [nothing] at size
      cases size
    | some entry =>
      obtain ⟨value, result, first, lowest, popped⟩ := turn_some ready found
      have whole := flatten_pop first
      obtain ⟨items, merges, perm⟩ := ih (turn_ready ready) (popped ▸ sorted_pop sorted first)
        (by rw [popped]; have := whole.length_eq; simp only [length_cons] at this; omega)
      rw [popped] at merges perm
      have total : (value :: items.map Prod.snd).Perm tree.streams.flatten := (perm.cons value).trans whole
      refine ⟨(entry, value) :: items, ⟨fun count => ?_, ?_, fun place => ?_⟩, total⟩
      · cases count with
        | zero => exact result
        | succ count => exact (output_succ _ _ tree count).trans (merges.outputs count)
      · refine pairwise_cons.mpr ⟨fun item mem => ?_, merges.ordered⟩
        apply least_of_heads sorted lowest
        exact total.subset (mem_cons_of_mem value (mem_map_of_mem mem))
      · have rest := merges.complete place
        by_cases here : method.index entry = place
        · rw [filter_cons_of_pos (by simpa using here), map_cons, rest, ← here]
          exact (getD_pop_self first).symm
        · rw [filter_cons_of_neg (by simpa using here), rest]
          exact getD_pop_of_ne tree.streams fun same => here same.symm

end

variable {α : Type} {less : α → α → Bool} [order : IsStrictWeakOrder α fun one other => less one other = true]

def Equal (less : α → α → Bool) (one other : α) : Prop := less one other = false ∧ less other one = false

variable (less) in
def equalSetoid : Setoid α where
  r := Equal less
  iseqv := ⟨fun value => ⟨less_irrefl value, less_irrefl value⟩, fun equal => ⟨equal.2, equal.1⟩,
    fun first second => ⟨notLess_trans first.1 second.1, notLess_trans second.2 first.2⟩⟩

/-- Two ordered lists of the same values differ only between equal values. -/
theorem equal_of_sorted {left right : List α} (perm : left.Perm right)
    (ascending : left.Pairwise fun one other => less other one = false)
    (otherAscending : right.Pairwise fun one other => less other one = false) :
    List.Forall₂ (Equal less) left right := by
  let classOf : α → Quotient (equalSetoid less) := Quotient.mk _
  let AtMost (one other : Quotient (equalSetoid less)) : Prop :=
    ∃ first second, classOf first = one ∧ classOf second = other ∧ less second first = false
  have antisymmetric (one other : Quotient (equalSetoid less)) (_ : one ∈ left.map classOf)
      (_ : other ∈ right.map classOf) (low : AtMost one other) (high : AtMost other one) : one = other := by
    obtain ⟨first, second, rfl, rfl, below⟩ := low
    obtain ⟨third, fourth, same, otherSame, above⟩ := high
    have equal : Equal less third second := Quotient.exact same
    have otherEqual : Equal less fourth first := Quotient.exact otherSame
    exact Quotient.sound ⟨notLess_trans (notLess_trans otherEqual.2 above) equal.1, below⟩
  have mapped {values : List α} (sorted : values.Pairwise fun one other => less other one = false) :
      (values.map classOf).Pairwise AtMost :=
    sorted.map classOf fun one other below => ⟨one, other, rfl, rfl, below⟩
  have same : left.map classOf = right.map classOf :=
    (perm.map classOf).eq_of_pairwise antisymmetric (mapped ascending) (mapped otherAscending)
  rw [← forall₂_eq_eq_eq, forall₂_map_left_iff, forall₂_map_right_iff] at same
  exact same.imp fun one other equal => Quotient.exact equal

def Flagged (compare : α → α → Int) (less : α → α → Bool) (streams : List (List α)) (leaves : Set Nat)
    (entry : Nat × Bool) : Prop :=
  Least (mergingWithEquals compare) less streams leaves entry ∧
    (entry.2 = true ↔ ∃ leaf ∈ leaves, leaf ≠ entry.1 ∧ hasData streams leaf = true ∧
      lessThan less streams entry.1 leaf = false)

variable {compare : α → α → Int} {streams : List (List α)}

theorem flagged_played {leaves others : Set Nat} {one other up : Nat × Bool}
    (first : Flagged compare less streams leaves one) (second : Flagged compare less streams others other)
    (apart : ∀ leaf ∈ leaves, leaf ∉ others) (won : BeatsWithEquals less streams one other up) :
    Flagged compare less streams (leaves ∪ others) up := by
  obtain ⟨same, lower, flag⟩ := won
  refine ⟨least_played first.1 second.1 lower same, ?_⟩
  obtain ⟨⟨mem, value, start, _⟩, own⟩ := first
  obtain ⟨⟨otherMember, otherValue, otherStart, otherLowest⟩, _⟩ := second
  rw [flag, same, Bool.or_eq_true, own, Bool.not_eq_true']
  have start : head streams one.1 = some value := start
  have otherStart : head streams other.1 = some otherValue := otherStart
  constructor
  · rintro (⟨leaf, inside, different, data, equal⟩ | equal)
    · exact ⟨leaf, .inl inside, different, data, equal⟩
    · refine ⟨other.1, .inr otherMember, ?_, by simp [hasData, otherStart], equal⟩
      intro place
      exact apart one.1 mem (place ▸ otherMember)
  · rintro ⟨leaf, inside | outside, different, data, equal⟩
    · exact .inl ⟨leaf, inside, different, data, equal⟩
    · -- The least value of the other side is between the two.
      obtain ⟨next, nextStart⟩ := Option.isSome_iff_exists.mp data
      rw [lessThan_heads start nextStart] at equal
      rw [lessThan_heads start otherStart]
      exact .inr (notLess_trans equal (otherLowest leaf outside next nextStart))

theorem flagged_of_settled (compares : Compares compare less) {inner : Nat} {values : List (Option (Nat × Bool))}
    {entry : Nat × Bool}
    (settled : Settled inner (entrant (mergingWithEquals compare) streams) (BeatsWithEquals less streams) values 0
      (some entry)) : Flagged compare less streams (leaves inner 0) entry := by
  have law := mergingWithEqualsLaw compares
  refine champion_of_settled (Nat.zero_le _) settled ?_ ?_ ?_ rfl
  · intro leaf entry entered
    refine ⟨least_single entered (entrant_own law streams leaf entry entered), ?_⟩
    have entry' : entry = (leaf, false) := by
      unfold entrant at entered
      split at entered
      · exact (Option.some.inj entered).symm
      · cases entered
    rw [entry']
    refine iff_of_false (by simp) ?_
    rintro ⟨other, mem, different, _⟩
    exact different mem
  · intro leaves others entry flagged absent
    have ended : ∀ other ∈ others, head streams other = none := fun other mem => head_of_no_entrant (absent other mem)
    refine ⟨least_alone flagged.1 ended, flagged.2.trans ?_⟩
    constructor
    · rintro ⟨leaf, inside, rest⟩
      exact ⟨leaf, .inl inside, rest⟩
    · rintro ⟨leaf, inside | outside, rest⟩
      · exact ⟨leaf, inside, rest⟩
      · have data := rest.2.1
        rw [hasData, ended leaf outside] at data
        cases data
  · exact fun leaves others one other up first second apart won => flagged_played first second apart won

/-- The flag of a call says whether another stream still has an equal value. -/
theorem flag_iff (compares : Compares compare less) {tree : TreeOfLosers (Nat × Bool) α}
    (ready : Ready (mergingWithEqualsLaw compares) tree) (sorted : Sorted less tree.streams) {entry : Nat × Bool}
      {value : α} (returned : (turn (nextWithEquals compare) Prod.fst tree).1 = some (entry, value)) :
    entry.2 = true ↔ ∃ index, index ≠ entry.1 ∧ ∃ other ∈ tree.streams.getD index [], Equal less value other := by
  have advanced := advance_advanced ready
  cases found : (nextWithEquals compare tree).1 with
  | none =>
    rw [turn_of_none found] at returned
    cases returned
  | some result =>
    obtain ⟨least, outcome, start, lowest, _⟩ := turn_some ready found
    have same : (result, least) = (entry, value) := Option.some.inj (outcome.symm.trans returned)
    cases same
    have start : head tree.streams entry.1 = some value := start
    have settled := advanced.settled
    have winner : (advance (mergingWithEquals compare) tree).1 = some entry := found
    rw [winner] at settled
    have flagged := (flagged_of_settled compares settled).2
    rw [flagged]
    constructor
    · rintro ⟨leaf, _, different, data, equal⟩
      obtain ⟨next, nextStart⟩ := Option.isSome_iff_exists.mp data
      rw [lessThan_heads start nextStart] at equal
      exact ⟨leaf, different, next, mem_of_mem_head? nextStart, equal, lowest leaf next nextStart⟩
    · rintro ⟨leaf, different, other, mem, equal, _⟩
      cases whole : tree.streams.getD leaf [] with
      | nil => rw [whole] at mem; cases mem
      | cons first rest =>
        have nextStart : head tree.streams leaf = some first := by rw [head, whole]; rfl
        have inside : leaf ≤ tree.firstStream := by
          by_contra far
          have shape := ready.shape
          rw [getD_eq_default _ _ (by omega)] at whole
          cases whole
        refine ⟨leaf, leaves_root _ inside, different, by simp [hasData, nextStart], ?_⟩
        rw [lessThan_heads start nextStart]
        have ascending := sorted leaf
        rw [whole] at ascending mem
        rcases mem_cons.mp mem with rfl | later
        · exact equal
        · exact notLess_trans equal (rel_of_pairwise_cons ascending later)

theorem turns_ready {ε : Type} {method : Method ε α} {law : Law method less} {tree : TreeOfLosers ε α}
    (ready : Ready law tree) (sorted : Sorted less tree.streams) (count : Nat) :
    Ready law (turns (advance method) method.index count tree) ∧
      Sorted less (turns (advance method) method.index count tree).streams := by
  induction count generalizing tree with
  | zero => exact ⟨ready, sorted⟩
  | succ count ih =>
    apply ih (turn_ready ready)
    cases found : (advance method tree).1 with
    | none =>
      rw [(turn_none ready found).2.2]
      exact sorted
    | some entry =>
      obtain ⟨value, _, first, _, popped⟩ := turn_some ready found
      rw [popped]
      exact sorted_pop sorted first

/-- Both ways to merge return every value of every stream once and in order, and then nothing. The flag says whether
another stream still has an equal value. -/
theorem merge_returns_all_in_order {compare : α → α → Int} (compares : Compares compare less) {streams : List (List α)}
    (present : streams ≠ []) (sorted : ∀ stream ∈ streams, stream.Pairwise fun one other => less other one = false) :
    ∃ tree treeWithEquals items itemsWithEquals, create streams = some tree ∧ create streams = some treeWithEquals ∧
      Merges (next less) id less tree streams items ∧
      Merges (nextWithEquals compare) Prod.fst less treeWithEquals streams itemsWithEquals ∧
      List.Forall₂ (Equal less) (items.map Prod.snd) (itemsWithEquals.map Prod.snd) ∧
      ∀ count entry value, output (nextWithEquals compare) Prod.fst treeWithEquals count = some (entry, value) →
        (entry.2 = true ↔ ∃ index, index ≠ entry.1 ∧
          ∃ other ∈ (turns (nextWithEquals compare) Prod.fst count treeWithEquals).streams.getD index [],
            Equal less value other) := by
  have ordered := sorted_of_mem sorted
  obtain ⟨tree, created, rfl, ready⟩ := create_ready (mergingLaw : Law (merging less) less) present
  obtain ⟨other, otherCreated, same, otherReady⟩ := create_ready (mergingWithEqualsLaw compares) present
  obtain ⟨items, merges, perm⟩ := merges_of_ready ready ordered
  obtain ⟨otherItems, otherMerges, otherPerm⟩ := merges_of_ready otherReady (same ▸ ordered)
  rw [same] at otherMerges otherPerm
  refine ⟨tree, other, items, otherItems, created, otherCreated, merges, otherMerges, ?_,
    fun count entry value returned => ?_⟩
  · exact equal_of_sorted (perm.trans otherPerm.symm) (pairwise_map.mpr merges.ordered)
      (pairwise_map.mpr otherMerges.ordered)
  · obtain ⟨later, laterSorted⟩ := turns_ready otherReady (same ▸ ordered) count
    exact flag_iff compares later laterSorted returned

def lower (one other : Nat) : Bool := decide (one < other)

def difference (one other : Nat) : Int := one - other

theorem lower_weak : IsStrictWeakOrder Nat fun one other => lower one other = true where
  irrefl value below := absurd (of_decide_eq_true below) (Nat.lt_irrefl value)
  trans one middle other first second :=
    decide_eq_true (Nat.lt_trans (of_decide_eq_true first) (of_decide_eq_true second))
  incomp_trans one middle other first second := by
    simp only [lower, decide_eq_true_iff] at *
    omega

theorem compares_difference : Compares difference lower := by
  constructor
  · intro one other
    simp only [difference, lower, decide_eq_true_iff]
    omega
  · intro one other
    simp only [difference, lower, decide_eq_true_iff]
    omega

theorem three_streams_merged : ∃ tree items, create [[1, 3], [2, 3], []] = some tree ∧
    Merges (nextWithEquals difference) Prod.fst lower tree [[1, 3], [2, 3], []] items := by
  have weak := lower_weak
  obtain ⟨_, tree, _, items, _, created, _, merges, _⟩ :=
    merge_returns_all_in_order compares_difference (by decide) (by decide : ∀ stream ∈ [[1, 3], [2, 3], []], _)
  exact ⟨tree, items, created, merges⟩

example : (create [[1, 3], [2, 3], []]).map (fun tree =>
  (range 5).map (output (nextWithEquals difference) Prod.fst tree)) =
    some [some ((0, false), 1), some ((1, false), 2), some ((1, true), 3), some ((0, false), 3), none] := by
  decide +kernel

end CactusDB.Exec.MergedStreams
