import CactusDB.Aggregates.DecimalAggregate
import CactusDB.Library.GroupedAggregation
import Mathlib.Algebra.BigOperators.Group.Multiset.Basic
import Mathlib.Tactic.Linarith

/-! The sums of decimals are exact. -/

namespace CactusDB.Aggregates.Decimals
open Library FixedWidth Fallible GroupedAggregation List LongDecimalWithOverflowState DecimalAggregate

/-- A sum of two numbers is 127 bits with a sign and at most one more. -/
theorem addWithOverflow_spec {lhs rhs : Int} (low : -2 ^ 127 < lhs) (high : lhs < 2 ^ 127) (otherLow : -2 ^ 127 < rhs)
    (otherHigh : rhs < 2 ^ 127) :
    -2 ^ 127 < (addWithOverflow lhs rhs).1 ∧ (addWithOverflow lhs rhs).1 < 2 ^ 127 ∧
      (addWithOverflow lhs rhs).1 + 2 ^ 127 * (addWithOverflow lhs rhs).2 = lhs + rhs := by
  by_cases negative : lhs < 0
  · by_cases otherNegative : rhs < 0
    · simp only [addWithOverflow, addUnsignedValues, negative, otherNegative, if_true]
      omega
    · simp only [addWithOverflow, negative, otherNegative, decide_true, decide_false, Bool.true_eq_false, if_false]
      omega
  · by_cases otherNegative : rhs < 0
    · simp only [addWithOverflow, negative, otherNegative, decide_true, decide_false, Bool.false_eq_true, if_false]
      omega
    · simp only [addWithOverflow, addUnsignedValues, negative, otherNegative, if_true, if_false, Bool.false_eq_true]
      omega

section

variable {state other : LongDecimalWithOverflowState} {inputs others : Multiset Decimal}

def total (inputs : Multiset Decimal) : Int := (inputs.map Subtype.val).sum

theorem total_cons (value : Decimal) (inputs : Multiset Decimal) :
    total (value ::ₘ inputs) = value.1 + total inputs := by
  simp [total]

theorem total_add (inputs others : Multiset Decimal) : total (inputs + others) = total inputs + total others := by
  simp [total]

structure HoldsSum (state : LongDecimalWithOverflowState) (inputs : Multiset Decimal) : Prop where
  low : -2 ^ 127 < state.sum
  high : state.sum < 2 ^ 127
  exact : ∃ carries, state.sum + 2 ^ 127 * carries = total inputs ∧ state.overflow = signed 64 carries

structure Holds (state : LongDecimalWithOverflowState) (inputs : Multiset Decimal) :
  Prop extends HoldsSum state inputs where
  counted : state.count = signed 64 inputs.card

theorem holds_fresh : Holds .fresh 0 :=
  ⟨⟨by decide, by decide, 0, by simp [total, fresh], by decide⟩, by decide⟩

section

variable (holds : HoldsSum state inputs)
include holds

theorem holdsSum_add {added overflow : Int} (low : -2 ^ 127 < added)
    (high : added < 2 ^ 127) {carries : Int} (known : overflow = signed 64 carries)
    (more : added + 2 ^ 127 * carries = total others) (count : Int) :
    HoldsSum ⟨(addWithOverflow added state.sum).1, count,
      signed 64 (state.overflow + overflow + (addWithOverflow added state.sum).2)⟩ (others + inputs) := by
  obtain ⟨own, exact, overflows⟩ := holds.exact
  have sum := addWithOverflow_spec low high holds.low holds.high
  generalize addWithOverflow added state.sum = result at sum ⊢
  obtain ⟨rest, carry⟩ := result
  refine ⟨sum.1, sum.2.1, own + carries + carry, ?_, ?_⟩
  · rw [total_add]
    linarith [sum.2.2]
  · calc
      signed 64 (state.overflow + overflow + carry)
        = signed 64 (signed 64 own + (overflow + carry)) := by rw [overflows, Int.add_assoc]
      _ = signed 64 (overflow + (own + carry)) := by rw [signed_signed_add, Int.add_left_comm]
      _ = signed 64 (carries + (own + carry)) := by rw [known, signed_signed_add]
      _ = signed 64 (own + carries + carry) := by congr 1; ring

theorem holdsSum_addValue (value : Decimal) : HoldsSum (state.addValue value) (value ::ₘ inputs) := by
  have bounds := value.2
  have single : value.1 + 2 ^ 127 * 0 = total {value} := by simp [total]
  have none : (0 : Int) = signed 64 0 := by decide
  have added := holdsSum_add holds (by omega) (by omega) none single state.count
  rw [Int.add_zero] at added
  exact added

theorem holdsSum_count (count : Int) :
    HoldsSum { state with count := count } inputs := ⟨holds.low, holds.high, holds.exact⟩

end

theorem holds_update (holds : Holds state inputs) (value : Decimal) :
    Holds (state.update value) (value ::ₘ inputs) := by
  refine ⟨?_, ?_⟩
  · exact holdsSum_count (holdsSum_addValue holds.toHoldsSum value) _
  · show signed 64 (state.count + 1) = _
    rw [holds.counted, signed_signed_add, Multiset.card_cons]
    rfl

theorem word_first {first : List Nat} (eight : first.length = 8) (rest : List Nat) :
    word (first ++ rest) 0 = ofBytes first := by
  rw [word, Nat.mul_zero, drop_zero, take_left' eight]

theorem word_later {first : List Nat} (eight : first.length = 8) (rest : List Nat) (place : Nat) :
    word (first ++ rest) (place + 1) = word rest place := by
  unfold word
  rw [Nat.mul_add, Nat.mul_one, Nat.add_comm, ← eight, drop_length_add_append, eight]

variable (value : Int)

theorem ofBytes_word : ofBytes (toBytes 8 (value % 2 ^ 64).toNat) = (value % 2 ^ 64).toNat := by
  rw [ofBytes_toBytes]
  omega

theorem word_serialize (state : LongDecimalWithOverflowState) :
    word state.serialize 0 = (state.count % 2 ^ 64).toNat ∧
    word state.serialize 1 = (state.overflow % 2 ^ 64).toNat ∧
    word state.serialize 2 = (state.sum % 2 ^ 64).toNat ∧
    word state.serialize 3 = (state.sum / 2 ^ 64 % 2 ^ 64).toNat := by
  have eight (value : Nat) : (toBytes 8 value).length = 8 := length_toBytes 8 value
  simp only [serialize, append_assoc]
  refine ⟨?_, ?_, ?_, ?_⟩
  · rw [word_first (eight _), ofBytes_word]
  · rw [word_later (eight _), word_first (eight _), ofBytes_word]
  · rw [word_later (eight _), word_later (eight _), word_first (eight _), ofBytes_word]
  · rw [word_later (eight _), word_later (eight _), word_later (eight _), ← append_nil (toBytes 8 _),
      word_first (eight _), ofBytes_word]

theorem length_serialize (state : LongDecimalWithOverflowState) : state.serialize.length = serializedSize := by
  simp [serialize, serializedSize]

theorem signed_word : signed 64 ((value % 2 ^ 64).toNat : Int) = signed 64 value := by
  rw [Int.toNat_of_nonneg (Int.emod_nonneg _ (by decide)), signed_emod (Nat.le_refl 64)]

theorem signed_halves {value : Int} (low : -2 ^ 127 < value) (high : value < 2 ^ 127) :
    signed 128 ((value / 2 ^ 64 % 2 ^ 64).toNat * 2 ^ 64 + (value % 2 ^ 64).toNat) = value := by
  unfold signed
  omega

theorem signed_idempotent : signed 64 (signed 64 value) = signed 64 value := by
  have twice := signed_signed_add 64 value 0
  rwa [Int.add_zero, Int.add_zero] at twice

theorem holds_mergeWith (holds : Holds state inputs) (otherHolds : Holds other others) :
    ∃ merged, state.mergeWith other.serialize = .ok merged ∧ Holds merged (inputs + others) := by
  obtain ⟨first, second, third, fourth⟩ := word_serialize other
  obtain ⟨carries, exact, overflows⟩ := otherHolds.exact
  refine ⟨_, if_pos (length_serialize other), ?_, ?_⟩
  · have added := holdsSum_add holds.toHoldsSum otherHolds.low otherHolds.high overflows exact
      (signed 64 (state.count + signed 64 (word other.serialize 0)))
    rw [second, third, fourth, signed_word, signed_halves otherHolds.low otherHolds.high, signed_signed_add, overflows,
      signed_idempotent, ← overflows, Multiset.add_comm]
    exact added
  · show signed 64 (state.count + signed 64 (word other.serialize 0)) = _
    rw [first, signed_word, holds.counted, otherHolds.counted, signed_idempotent, signed_signed_add, Int.add_comm,
      signed_signed_add, Multiset.card_add, Int.add_comm]
    rfl

end

section

variable {G : Type} [DecidableEq G]

structure Accounts (created : Finset G) (aggregate : DecimalAggregate G) (inputs : G → Multiset Decimal)
    (cleared : G → Prop) : Prop where
  holds : ∀ group ∈ created, Holds (aggregate.groups group).accumulator (inputs group)
  flags : ∀ group ∈ created, (aggregate.groups group).null = true ↔ ¬cleared group
  counted : aggregate.numNulls = (created.filter fun group => (aggregate.groups group).null = true).card
  strangers : ∀ group ∉ created, inputs group = 0 ∧ ¬cleared group

variable {created : Finset G} {self : DecimalAggregate G} {inputs : G → Multiset Decimal} {cleared : G → Prop}
variable {group : G}

section

variable (accounts : Accounts created self inputs cleared)
include accounts

omit [DecidableEq G] in
theorem isNull_iff (known : group ∈ created) : self.isNull group = true ↔ ¬cleared group := by
  unfold isNull
  rw [Bool.and_eq_true, ← accounts.flags group known]
  refine ⟨And.right, fun null => ⟨?_, null⟩⟩
  have mem : group ∈ created.filter fun group => (self.groups group).null = true := Finset.mem_filter.mpr ⟨known, null⟩
  have positive := Finset.card_pos.mpr ⟨group, mem⟩
  rw [← accounts.counted] at positive
  exact decide_eq_true (Nat.ne_of_gt positive)

theorem accounts_fresh (wanted : Finset G) :
    Accounts (created ∪ wanted) (self.initializeNewGroups (wanted \ created)) inputs cleared := by
  have old {group : G} (mem : group ∈ created) :
      (self.initializeNewGroups (wanted \ created)).groups group = self.groups group := by
    simp [initializeNewGroups, mem]
  have new {group : G} (mem : group ∈ created ∪ wanted) (absent : group ∉ created) :
      (self.initializeNewGroups (wanted \ created)).groups group = ⟨true, .fresh⟩ := by
    have inside := (Finset.mem_union.mp mem).resolve_left absent
    simp [initializeNewGroups, absent, inside]
  refine ⟨fun group mem => ?_, fun group mem => ?_, ?_, fun group absent => ?_⟩
  · by_cases present : group ∈ created
    · rw [old present]
      exact accounts.holds group present
    · rw [new mem present, (accounts.strangers group present).1]
      exact holds_fresh
  · by_cases present : group ∈ created
    · rw [old present]
      exact accounts.flags group present
    · rw [new mem present]
      exact iff_of_true rfl (accounts.strangers group present).2
  · have split : ((created ∪ wanted).filter fun group =>
        ((self.initializeNewGroups (wanted \ created)).groups group).null = true) =
        (created.filter fun group => (self.groups group).null = true) ∪ (wanted \ created) := by
      ext group
      by_cases present : group ∈ created
      · simp [present, old present]
      · by_cases inside : group ∈ wanted
        · simp [present, inside, new (Finset.mem_union_right created inside) present]
        · simp [present, inside]
    rw [split, Finset.card_union_of_disjoint, ← accounts.counted]
    · rfl
    · rw [Finset.disjoint_left]
      intro group left right
      exact (Finset.mem_sdiff.mp right).2 (Finset.mem_filter.mp left).1
  · exact accounts.strangers group fun present => absent (Finset.mem_union_left wanted present)

theorem accounts_clearNull (known : group ∈ created) :
    Accounts created (self.clearNull group) inputs (fun other => cleared other ∨ other = group) := by
  unfold clearNull
  split
  case isTrue null =>
    have groupsOf (other : G) : (self.setGroup group ⟨false, (self.groups group).accumulator⟩).groups other =
        if other = group then ⟨false, (self.groups group).accumulator⟩ else self.groups other := rfl
    refine ⟨fun other mem => ?_, fun other mem => ?_, ?_, fun other absent => ?_⟩
    · show Holds ((self.setGroup group _).groups other).accumulator _
      rw [groupsOf]
      by_cases same : other = group
      · rw [if_pos same, same]
        exact accounts.holds group known
      · rw [if_neg same]
        exact accounts.holds other mem
    · show ((self.setGroup group _).groups other).null = true ↔ _
      rw [groupsOf]
      by_cases same : other = group
      · simp [same]
      · simp [same, accounts.flags other mem]
    · show self.numNulls - 1 = _
      have erased : (created.filter fun other =>
          ((self.setGroup group ⟨false, (self.groups group).accumulator⟩).groups other).null = true) =
          (created.filter fun other => (self.groups other).null = true).erase group := by
        ext other
        rw [Finset.mem_filter, Finset.mem_erase, Finset.mem_filter, groupsOf]
        by_cases same : other = group
        · simp [same]
        · simp [same]
      refine Eq.trans ?_ (congrArg Finset.card erased.symm)
      rw [Finset.card_erase_of_mem (Finset.mem_filter.mpr ⟨known, null.2⟩), ← accounts.counted]
    · refine ⟨(accounts.strangers other absent).1, ?_⟩
      rintro (old | rfl)
      · exact (accounts.strangers other absent).2 old
      · exact absent known
  case isFalse notNull =>
    have clear : cleared group := by
      by_contra flagged
      have null := (isNull_iff accounts known).mpr flagged
      unfold isNull at null
      exact notNull (by simpa using null)
    have same : (fun other => cleared other ∨ other = group) = cleared := by
      funext other
      apply propext
      refine ⟨?_, .inl⟩
      rintro (old | rfl)
      · exact old
      · exact clear
    rw [same]
    exact accounts

end

def give (inputs : G → Multiset Decimal) (group : G) (more : Multiset Decimal) : G → Multiset Decimal :=
  fun other => inputs other + if group = other then more else 0

theorem accounts_change (accounts : Accounts created self inputs cleared) (known : group ∈ created)
    {operation : LongDecimalWithOverflowState → Except String LongDecimalWithOverflowState} {more : Multiset Decimal}
    (works : ∀ state, Holds state (inputs group) → ∃ after, operation state = .ok after ∧
      Holds after (inputs group + more)) : ∃ after, self.change true group operation = .ok after ∧
      Accounts created after (give inputs group more) (fun other => cleared other ∨ group = other) := by
  have clear := accounts_clearNull accounts known
  obtain ⟨accumulator, done, holds⟩ := works _ (clear.holds group known)
  have changed : self.change true group operation =
      .ok ((self.clearNull group).setGroup group ⟨((self.clearNull group).groups group).null, accumulator⟩) := by
    simp only [change, if_true]
    rw [done]
    rfl
  refine ⟨_, changed, ?_⟩
  have groupsOf (other : G) : ((self.clearNull group).setGroup group
      ⟨((self.clearNull group).groups group).null, accumulator⟩).groups other =
      if other = group then ⟨((self.clearNull group).groups group).null, accumulator⟩
      else (self.clearNull group).groups other := rfl
  have nulls (other : G) : (((self.clearNull group).setGroup group
      ⟨((self.clearNull group).groups group).null, accumulator⟩).groups other).null =
      ((self.clearNull group).groups other).null := by
    rw [groupsOf]
    by_cases same : other = group
    · rw [if_pos same, same]
    · rw [if_neg same]
  refine ⟨fun other mem => ?_, fun other mem => ?_, ?_, fun other absent => ?_⟩
  · rw [groupsOf, give]
    by_cases same : other = group
    · rw [if_pos same, same, if_pos rfl]
      exact holds
    · rw [if_neg same, if_neg fun equal => same equal.symm, Multiset.add_zero]
      exact clear.holds other mem
  · rw [nulls, clear.flags other mem, eq_comm]
  · simp only [nulls]
    exact clear.counted
  · have foreign : group ≠ other := by
      rintro rfl
      exact absent known
    rw [give, if_neg foreign, Multiset.add_zero]
    exact ⟨(accounts.strangers other absent).1, fun either => either.elim (accounts.strangers other absent).2 foreign⟩

theorem change_of_numNulls (none : self.numNulls = 0) (group : G)
    (operation : LongDecimalWithOverflowState → Except String LongDecimalWithOverflowState) :
    self.change false group operation = self.change true group operation := by
  have same : self.clearNull group = self := by
    unfold clearNull
    rw [if_neg (by simp [none])]
  simp only [change, same, if_true, Bool.false_eq_true, if_false]

omit [DecidableEq G] in
theorem accounts_congr (accounts : Accounts created self inputs cleared) {otherInputs : G → Multiset Decimal}
    {otherCleared : G → Prop} (sameInputs : ∀ group, otherInputs group = inputs group)
    (sameCleared : ∀ group, otherCleared group ↔ cleared group) : Accounts created self otherInputs otherCleared := by
  have inputsEq : otherInputs = inputs := funext sameInputs
  have clearedEq : otherCleared = cleared := funext fun group => propext (sameCleared group)
  rw [inputsEq, clearedEq]
  exact accounts

end

section

variable {G : Type} [DecidableEq G] {created : Finset G} {self : DecimalAggregate G} {inputs : G → Multiset Decimal}
  {cleared : G → Prop} {T : Type}

structure Adds (value : Option T) (operation : T → LongDecimalWithOverflowState →
  Except String LongDecimalWithOverflowState) (more : Multiset Decimal) : Prop where
  nothing : value = none → more = 0
  works : ∀ shown, value = some shown → ∀ state inputs, Holds state inputs →
    ∃ after, operation shown state = .ok after ∧ Holds after (inputs + more)

def shown (value : Option Decimal) : Multiset Decimal := value.elim 0 fun decimal => {decimal}

theorem adds_value (value : Option Decimal) : Adds value (fun decimal state => .ok (state.update decimal))
    (shown value) := by
  refine ⟨fun none => by rw [none]; rfl, ?_⟩
  rintro decimal rfl state inputs holds
  refine ⟨_, rfl, ?_⟩
  have updated := holds_update holds decimal
  rwa [← Multiset.singleton_add, Multiset.add_comm] at updated

theorem give_zero (group : G) : give inputs group 0 = inputs := by
  funext other
  rw [give, ite_self, Multiset.add_zero]

variable {value : Option T} {more : Multiset Decimal}
  {operation : T → LongDecimalWithOverflowState → Except String LongDecimalWithOverflowState}

theorem accounts_row (adds : Adds value operation more) (accounts : Accounts created self inputs cleared) {group : G}
    (known : group ∈ created) : ∃ after,
      unlessNull value self (fun self shown => self.change true group (operation shown)) = .ok after ∧
      Accounts created after (give inputs group more)
        (fun other => cleared other ∨ (group = other ∧ value.isSome = true)) := by
  cases value with
  | none =>
    refine ⟨self, rfl, accounts_congr accounts (fun other => ?_) (fun other => by simp)⟩
    rw [adds.nothing rfl, give_zero]
  | some shown =>
    obtain ⟨after, done, result⟩ := accounts_change accounts known (adds.works shown rfl · (inputs group))
    exact ⟨after, done, accounts_congr result (fun _ => rfl) (fun other => by simp)⟩

variable {rows : List Nat} {groups : Nat → G} {gives : Nat → Multiset Decimal} {touched : Nat → Prop}

/-- A batch that is worked off row by row. -/
theorem accounts_foldlM {step : DecimalAggregate G → Nat → Except String (DecimalAggregate G)}
    (each : ∀ row ∈ rows, ∀ {self inputs cleared}, Accounts created self inputs cleared → ∃ after,
      step self row = .ok after ∧ Accounts created after (give inputs (groups row) (gives row))
        (fun other => cleared other ∨ (groups row = other ∧ touched row)))
    (accounts : Accounts created self inputs cleared) : ∃ after, rows.foldlM step self = .ok after ∧
      Accounts created after (fun group => inputs group + received groups gives rows group)
        (fun group => cleared group ∨ ∃ row ∈ rows, groups row = group ∧ touched row) := by
  induction rows generalizing self inputs cleared with
  | nil => exact ⟨self, rfl, accounts_congr accounts (fun group => by simp) (fun group => by simp)⟩
  | cons row rest ih =>
    obtain ⟨middle, first, between⟩ := each row mem_cons_self accounts
    obtain ⟨after, later, final⟩ := ih (fun other mem => each other (mem_cons_of_mem row mem)) between
    refine ⟨after, ?_, accounts_congr final (fun group => ?_) (fun group => ?_)⟩
    · rw [foldlM_cons, first]
      exact later
    · unfold give
      by_cases own : groups row = group
      · rw [received_cons_own own, if_pos own, Multiset.add_assoc]
      · rw [received_cons_foreign own, if_neg own, Multiset.add_zero]
    · simp only [exists_mem_cons_iff, or_assoc]

def eachRow (groups : Nat → G) (values : Nat → Option T)
    (operation : T → LongDecimalWithOverflowState → Except String LongDecimalWithOverflowState)
    (self : DecimalAggregate G) (row : Nat) : Except String (DecimalAggregate G) :=
  unlessNull (values row) self fun self shown => self.change true (groups row) (operation shown)

variable {values : Nat → Option T}

theorem accounts_eachRow (adds : ∀ row ∈ rows, Adds (values row) operation (gives row))
    (known : ∀ row ∈ rows, groups row ∈ created) (accounts : Accounts created self inputs cleared) :
    ∃ after, rows.foldlM (eachRow groups values operation) self = .ok after ∧
      Accounts created after (fun group => inputs group + received groups gives rows group)
        (fun group => cleared group ∨ ∃ row ∈ rows, groups row = group ∧ (values row).isSome = true) :=
  accounts_foldlM (fun row mem {_ _ _} before => accounts_row (adds row mem) before (known row mem)) accounts

theorem foldlM_eachRow_none (nulls : ∀ row ∈ rows, values row = none) :
    rows.foldlM (eachRow groups values operation) self = .ok self :=
  foldlM_unchanged fun row mem => by rw [eachRow, nulls row mem]; rfl

theorem change_numNulls (none : self.numNulls = 0) {group : G} {after : DecimalAggregate G}
    {change : LongDecimalWithOverflowState → Except String LongDecimalWithOverflowState}
    (done : self.change false group change = .ok after) : after.numNulls = 0 := by
  unfold DecimalAggregate.change at done
  obtain ⟨accumulator, _, result⟩ := Library.Fallible.exists_of_bind_ok done
  rw [← Except.ok.inj result]
  exact none

/-- While no group is null, the rows may be worked off without clearing. -/
theorem foldlM_withoutNulls (none : self.numNulls = 0) (values : Nat → Option T) :
    rows.foldlM (fun self row => unlessNull (values row) self fun self shown =>
      self.change false (groups row) (operation shown)) self = rows.foldlM (eachRow groups values operation) self := by
  induction rows generalizing self with
  | nil => rfl
  | cons row rest ih =>
    rw [foldlM_cons, foldlM_cons]
    cases shows : values row with
    | none =>
      rw [eachRow, shows]
      exact ih none
    | some shown =>
      rw [eachRow, shows]
      show (self.change false (groups row) (operation shown) >>= _) = (self.change true (groups row)
        (operation shown) >>= _)
      rw [← change_of_numNulls none]
      cases done : self.change false (groups row) (operation shown) with
      | error message => rfl
      | ok after => exact ih (change_numNulls none done)

end

section

variable {G : Type} [DecidableEq G] {created : Finset G} {self : DecimalAggregate G} {inputs : G → Multiset Decimal}
  {cleared : G → Prop} {T : Type} {encoding : Encoding} {rows : List Nat}

def place (encoding : Encoding) (row : Nat) : Nat := if encoding.isConstant then 0 else row

theorem decode_constant (constant : encoding.isConstant = true) (rows : List Nat) (values : Nat → Option T) :
    decode encoding rows values = ⟨true, false, (values 0).isNone, encoding.hasFlatBase, fun _ => values 0⟩ := by
  simp [decode, constant]

theorem decode_varying (varying : encoding.isConstant = false) (rows : List Nat) (values : Nat → Option T) :
    decode encoding rows values =
      ⟨false, encoding.isFlat, encoding.saysNulls || rows.any fun row => (values row).isNone, encoding.hasFlatBase,
        values⟩ := by
  simp [decode, varying]

theorem used_constant (constant : encoding.isConstant = true) (rows : List Nat) :
    used encoding rows = [0] := if_pos constant

theorem used_varying (varying : encoding.isConstant = false) (rows : List Nat) : used encoding rows = rows := by
  simp [used, varying]

theorem place_constant (constant : encoding.isConstant = true) (row : Nat) : place encoding row = 0 := by
  simp [place, constant]

theorem place_varying (varying : encoding.isConstant = false) (row : Nat) : place encoding row = row := by
  simp [place, varying]

def updateWith (decimal : Decimal) (state : LongDecimalWithOverflowState) :
    Except String LongDecimalWithOverflowState :=
  .ok (state.update decimal)

variable {operation : T → LongDecimalWithOverflowState → Except String LongDecimalWithOverflowState}
variable {values : Nat → Option T}

theorem foldlM_null (constant : encoding.isConstant = true) {groups : Nat → G} (shows : values 0 = none) :
    rows.foldlM (eachRow groups (fun row => values (place encoding row)) operation) self = .ok self := by
  apply foldlM_eachRow_none
  intro row _
  rw [place_constant constant, shows]

theorem eachRow_constant (constant : encoding.isConstant = true) {groups : Nat → G} {value : T}
    (shows : values 0 = some value) :
    eachRow groups (fun row => values (place encoding row)) operation =
      fun self row => self.change true (groups row) (operation value) := by
  funext self row
  rw [eachRow, place_constant constant, shows]
  rfl

theorem place_eq (varying : encoding.isConstant = false) (values : Nat → Option T) :
    (fun row => values (place encoding row)) = values := by
  funext row
  rw [place_varying varying]

theorem addRawInput_eq (groups : Nat → G) (values : Nat → Option Decimal) :
    self.addRawInput groups rows (decode encoding rows values) =
      rows.foldlM (eachRow groups (fun row => values (place encoding row)) updateWith) self := by
  unfold addRawInput
  cases kind : encoding.isConstant with
  | true =>
    rw [decode_constant kind, if_pos rfl]
    dsimp only
    cases shows : values 0 with
    | none => rw [foldlM_null kind shows]
    | some value =>
      rw [eachRow_constant kind shows]
      rfl
  | false =>
    rw [decode_varying kind, place_eq kind]
    simp only [Bool.false_eq_true, if_false]
    split
    · rfl
    split
    case isTrue flat => exact foldlM_withoutNulls flat.1 values
    case isFalse => rfl

variable (encoding : Encoding)

theorem accounts_addRawInput (rows : List Nat) (accounts : Accounts created self inputs cleared)
    (groups : Nat → G) (known : ∀ row ∈ rows, groups row ∈ created) (values : Nat → Option Decimal) :
    ∃ after, self.addRawInput groups rows (decode encoding rows values) = .ok after ∧
      Accounts created after
        (fun group => inputs group + received groups (fun row => shown (values (place encoding row))) rows group)
        (fun group => cleared group ∨ ∃ row ∈ rows, groups row = group ∧
          (values (place encoding row)).isSome = true) := by
  rw [addRawInput_eq]
  exact accounts_eachRow (fun row _ => adds_value _) known accounts

theorem card_shown {decodedRaw : DecodedVector Decimal} (full : ∀ row ∈ rows, (decodedRaw.valueAt row).isSome = true) :
    ((rows.map fun row => shown (decodedRaw.valueAt row)).sum).card = rows.length := by
  induction rows with
  | nil => rfl
  | cons row rest ih =>
    obtain ⟨decimal, shows⟩ := Option.isSome_iff_exists.mp (full row mem_cons_self)
    have later := ih fun other mem => full other (mem_cons_of_mem row mem)
    rw [map_cons, sum_cons, Multiset.card_add, later, shows, length_cons, Nat.add_comm]
    rfl

theorem holds_sumRows (decodedRaw : DecodedVector Decimal)
    (full : ∀ row ∈ rows, (decodedRaw.valueAt row).isSome = true) :
    Holds (sumRows rows decodedRaw) ((rows.map fun row => shown (decodedRaw.valueAt row)).sum) := by
  have sums {state : LongDecimalWithOverflowState} {inputs : Multiset Decimal} (holds : HoldsSum state inputs)
    (rows : List Nat) :
      HoldsSum (rows.foldl (fun state row =>
          (decodedRaw.valueAt row).elim state (addValue state)) state)
        (inputs + (rows.map fun row => shown (decodedRaw.valueAt row)).sum) := by
    induction rows generalizing state inputs with
    | nil => simpa using holds
    | cons row rest ih =>
      rw [foldl_cons, map_cons, sum_cons, ← add_assoc]
      apply ih
      cases decodedRaw.valueAt row with
      | none => simpa [shown] using holds
      | some decimal =>
        have added := holdsSum_addValue holds decimal
        rwa [← Multiset.singleton_add, Multiset.add_comm] at added
  have all := sums holds_fresh.toHoldsSum rows
  rw [zero_add] at all
  refine ⟨holdsSum_count all _, ?_⟩
  rw [card_shown full]
  rfl

/-- A batch without rows that the single-group entry point takes for rows. -/
def EmptyBatch (encoding : Encoding) (rows : List Nat) : Prop :=
  rows = [] ∧ encoding.isConstant = false ∧ encoding.saysNulls = false

theorem mergeAccumulators_either (flat : Bool) (group : G) (serialized : List Nat) :
    (if self.numNulls = 0 ∧ flat = true then self.mergeAccumulators false group serialized
      else self.mergeAccumulators true group serialized) = self.mergeAccumulators true group serialized := by
  split
  case isTrue none => exact change_of_numNulls none.1 group _
  case isFalse => rfl

theorem received_single (group other : G) (gives : Nat → Multiset Decimal) (rows : List Nat) :
    received (fun _ => group) gives rows other = if group = other then (rows.map gives).sum else 0 := by
  by_cases same : group = other <;> simp [received, same]

variable {group : G}

theorem accounts_addSingleGroupRawInput (rows : List Nat)
    (accounts : Accounts created self inputs cleared) (known : group ∈ created) (values : Nat → Option Decimal) :
    ∃ after, self.addSingleGroupRawInput group rows (decode encoding rows values) = .ok after ∧
      Accounts created after
        (fun other => inputs other + received (fun _ => group)
          (fun row => shown (values (place encoding row))) rows other)
        (fun other => cleared other ∨ (∃ row ∈ rows, group = other ∧ (values (place encoding row)).isSome = true) ∨
          (group = other ∧ EmptyBatch encoding rows)) := by
  obtain ⟨after, done, result⟩ := accounts_eachRow
    (fun row (_ : row ∈ rows) => adds_value (values (place encoding row))) (fun _ _ => known) accounts
  unfold addSingleGroupRawInput
  cases kind : encoding.isConstant with
  | true =>
    rw [decode_constant kind, if_pos rfl]
    refine ⟨after, ?_, accounts_congr result (fun _ => rfl) fun other => by simp [EmptyBatch, kind]⟩
    rw [← done]
    dsimp only
    cases shows : values 0 with
    | none => rw [foldlM_null kind shows]
    | some value =>
      rw [eachRow_constant kind shows]
      rfl
  | false =>
    rw [decode_varying kind]
    simp only [Bool.false_eq_true, if_false]
    split
    case isTrue nulls =>
      have skipped : ¬EmptyBatch encoding rows := by
        rintro ⟨rfl, _, quiet⟩
        simp [quiet] at nulls
      rw [place_eq kind] at done
      exact ⟨after, done, accounts_congr result (fun _ => rfl) fun other => by simp [skipped]⟩
    case isFalse full =>
      rw [Bool.not_eq_true, Bool.or_eq_false_iff, any_eq_false] at full
      obtain ⟨quiet, full⟩ := full
      have present : ∀ row ∈ rows, (values row).isSome = true := by
        intro row mem
        simpa [Option.isSome_iff_ne_none] using full row mem
      have batch := holds_sumRows
        ⟨false, encoding.isFlat, encoding.saysNulls || rows.any fun row => (values row).isNone, encoding.hasFlatBase,
          values⟩ present
      rw [mergeAccumulators_either]
      obtain ⟨after, done, result⟩ := accounts_change accounts known fun state holds => holds_mergeWith holds batch
      refine ⟨after, done, accounts_congr result (fun other => ?_) (fun other => ?_)⟩
      · simp only [received_single, place_varying kind, give]
      · have touched : (∃ row ∈ rows, (values row).isSome = true) ∨ EmptyBatch encoding rows := by
          cases rows with
          | nil => exact .inr ⟨rfl, kind, quiet⟩
          | cons row rest => exact .inl ⟨row, mem_cons_self, present row mem_cons_self⟩
        by_cases own : group = other <;> simp [place_varying kind, own, touched]

def Stands (value : Option (List Nat)) (more : Multiset Decimal) : Prop :=
  Adds value (fun serialized state => state.mergeWith serialized) more

variable {gives : Nat → Multiset Decimal}

section

def readRow (decoded : DecodedVector (List Nat))
    (step : DecimalAggregate G → Nat → List Nat → Except String (DecimalAggregate G)) (self : DecimalAggregate G)
    (row : Nat) : Except String (DecimalAggregate G) :=
  unlessNull (decoded.valueAt row) self fun self serialized => do
    step self row (← readPartial decoded serialized)

variable {decoded : DecodedVector (List Nat)}
  {step : DecimalAggregate G → Nat → List Nat → Except String (DecimalAggregate G)}

omit [DecidableEq G] in
theorem foldlM_readRow_null (decoded : DecodedVector (List Nat)) (nulls : ∀ row ∈ rows, decoded.valueAt row = none) :
    rows.foldlM (readRow decoded step) self = .ok self :=
  foldlM_unchanged fun row mem => by rw [readRow, nulls row mem]; rfl

omit [DecidableEq G] in
theorem foldlM_readRow_fails (decoded : DecodedVector (List Nat)) (base : decoded.hasFlatBase = false)
    (some : ∃ row ∈ rows, decoded.valueAt row ≠ none) :
    ∃ message, rows.foldlM (readRow decoded step) self = .error message := by
  obtain ⟨row, mem, present⟩ := some
  obtain ⟨serialized, shows⟩ := Option.ne_none_iff_exists'.mp present
  cases done : rows.foldlM (readRow decoded step) self with
  | error message => exact ⟨message, rfl⟩
  | ok after =>
    obtain ⟨before, next, went⟩ := exists_of_foldlM_ok done mem
    rw [readRow, shows] at went
    simp only [unlessNull, readPartial, base, Bool.false_eq_true, if_false] at went
    cases went

end

/-- No partial result is read through the cast of a base that is not flat. -/
def Safe (encoding : Encoding) (rows : List Nat) (values : Nat → Option (List Nat)) : Prop :=
  encoding.hasFlatBase = true ∨ ∀ row ∈ used encoding rows, values row = none

section

variable {encoding} {values : Nat → Option (List Nat)}

theorem Safe.null (constant : encoding.isConstant = true) (safe : Safe encoding rows values) : values 0 = none := by
  rcases safe with flat | nulls
  · cases encoding with
    | constant => cases flat
    | _ => cases constant
  · exact nulls 0 (by rw [used_constant constant]; exact mem_cons_self)

theorem not_safe_iff : ¬Safe encoding rows values ↔
    encoding.hasFlatBase = false ∧ ∃ row ∈ used encoding rows, values row ≠ none := by
  simp [Safe]

end

theorem accounts_addIntermediateResults (rows : List Nat)
    (accounts : Accounts created self inputs cleared) (groups : Nat → G) (known : ∀ row ∈ rows, groups row ∈ created)
    (values : Nat → Option (List Nat)) (safe : Safe encoding rows values)
    (stands : ∀ row ∈ rows, Stands (values (place encoding row)) (gives row)) :
    ∃ after, self.addIntermediateResults groups rows (decode encoding rows values) = .ok after ∧
      Accounts created after (fun group => inputs group + received groups gives rows group)
        (fun group => cleared group ∨ ∃ row ∈ rows, groups row = group ∧
          (values (place encoding row)).isSome = true) := by
  obtain ⟨after, done, result⟩ := accounts_eachRow stands known accounts
  refine ⟨after, ?_, result⟩
  rw [← done]
  unfold addIntermediateResults
  cases kind : encoding.isConstant with
  | true =>
    rw [decode_constant kind, if_pos rfl]
    dsimp only
    rw [safe.null kind, foldlM_null kind (safe.null kind)]
  | false =>
    rw [decode_varying kind, place_eq kind]
    rcases safe with flat | nulls
    · simp only [readPartial, flat, if_true]
      rfl
    · rw [used_varying kind] at nulls
      exact (foldlM_readRow_null ⟨false, encoding.isFlat, _, encoding.hasFlatBase, values⟩ nulls).trans
        (foldlM_eachRow_none nulls).symm

theorem addIntermediateResults_fails {rows : List Nat} {values : Nat → Option (List Nat)}
    (unreadable : ¬Safe encoding rows values) (groups : Nat → G) :
    ∃ message, self.addIntermediateResults groups rows (decode encoding rows values) = .error message := by
  obtain ⟨base, row, mem, present⟩ := not_safe_iff.mp unreadable
  unfold addIntermediateResults
  cases kind : encoding.isConstant with
  | true =>
    rw [used_constant kind, mem_singleton] at mem
    obtain ⟨serialized, shows⟩ := Option.ne_none_iff_exists'.mp present
    rw [mem] at shows
    refine ⟨"null pointer", ?_⟩
    rw [decode_constant kind, if_pos rfl]
    dsimp only
    rw [shows, base]
    rfl
  | false =>
    rw [used_varying kind] at mem
    rw [decode_varying kind]
    exact foldlM_readRow_fails ⟨false, encoding.isFlat, _, encoding.hasFlatBase, values⟩ base ⟨row, mem, present⟩

/-- Clearing a group before its rows changes nothing if some row clears it. -/
theorem accounts_cleared_first (accounts : Accounts created self inputs cleared) (known : group ∈ created)
    (values : Nat → Option (List Nat)) (stands : ∀ row ∈ rows, Stands (values row) (gives row))
    (present : ∀ row ∈ rows, (values row).isSome = true) : ∃ after,
      rows.foldlM (eachRow (fun _ => group) values fun serialized state => state.mergeWith serialized)
        (if rows.isEmpty then self else self.clearNull group) = .ok after ∧
      Accounts created after (fun other => inputs other + received (fun _ => group) gives rows other)
        (fun other => cleared other ∨ ∃ row ∈ rows, group = other ∧ (values row).isSome = true) := by
  cases rows with
  | nil => exact accounts_eachRow stands (fun _ _ => known) accounts
  | cons row rest =>
    obtain ⟨after, done, result⟩ := accounts_eachRow stands (fun _ _ => known) (accounts_clearNull accounts known)
    refine ⟨after, done, accounts_congr result (fun _ => rfl) fun other => ?_⟩
    constructor
    · rintro (old | touched)
      · exact .inl (.inl old)
      · exact .inr touched
    · rintro ((old | rfl) | touched)
      · exact .inl old
      · exact .inr ⟨row, mem_cons_self, rfl, present row mem_cons_self⟩
      · exact .inr touched

theorem accounts_addSingleGroupIntermediateResults (rows : List Nat)
    (accounts : Accounts created self inputs cleared) (known : group ∈ created) (values : Nat → Option (List Nat))
    (safe : Safe encoding rows values) (stands : ∀ row ∈ rows, Stands (values (place encoding row)) (gives row)) :
    ∃ after, self.addSingleGroupIntermediateResults group rows (decode encoding rows values) = .ok after ∧
      Accounts created after (fun other => inputs other + received (fun _ => group) gives rows other)
        (fun other => cleared other ∨ ∃ row ∈ rows, group = other ∧ (values (place encoding row)).isSome = true) := by
  obtain ⟨after, done, result⟩ := accounts_eachRow stands (fun _ _ => known) accounts
  unfold addSingleGroupIntermediateResults
  cases kind : encoding.isConstant with
  | true =>
    rw [foldlM_null kind (safe.null kind)] at done
    rw [decode_constant kind, if_pos rfl]
    dsimp only
    rw [safe.null kind]
    exact ⟨after, done, result⟩
  | false =>
    rw [decode_varying kind]
    simp only [Bool.false_eq_true, if_false]
    rw [place_eq kind] at done
    simp only [place_varying kind] at stands result ⊢
    rcases safe with flat | nulls
    · split
      case isTrue =>
        refine accounts_foldlM (fun row mem {self inputs cleared} before => ?_) accounts
        have clear := accounts_clearNull before known
        cases shows : values row with
        | none =>
          refine ⟨self, rfl, accounts_congr before (fun other => ?_) (fun other => by simp)⟩
          rw [(stands row mem).nothing shows, give_zero]
        | some serialized =>
          obtain ⟨after, done, result⟩ := accounts_row (stands row mem) clear known
          rw [shows] at done
          refine ⟨after, ?_, accounts_congr result (fun _ => rfl) fun other => ?_⟩
          · simp only [unlessNull, readPartial, flat, if_true]
            exact done
          · rw [shows]
            by_cases own : group = other <;> simp [own, Ne.symm]
      case isFalse full =>
        rw [Bool.not_eq_true, Bool.or_eq_false_iff, any_eq_false] at full
        have present : ∀ row ∈ rows, (values row).isSome = true := fun row mem => by
          simpa [Option.isSome_iff_ne_none] using full.2 row mem
        obtain ⟨after, done, result⟩ := accounts_cleared_first accounts known values stands present
        refine ⟨after, ?_, result⟩
        rw [← done]
        simp only [readPartial, flat, if_true]
        rfl
    · rw [used_varying kind] at nulls
      rw [foldlM_eachRow_none nulls] at done
      refine ⟨after, ?_, result⟩
      rw [← done]
      split
      case isTrue => exact foldlM_readRow_null ⟨false, encoding.isFlat, _, encoding.hasFlatBase, values⟩ nulls
      case isFalse full =>
        rw [Bool.not_eq_true, Bool.or_eq_false_iff, any_eq_false] at full
        -- rows that are all null in a vector without nulls: there are none
        have empty : rows = [] := eq_nil_iff_forall_not_mem.mpr fun row mem => by
          simpa [nulls row mem] using full.2 row mem
        rw [empty]
        rfl

theorem addSingleGroupIntermediateResults_fails {rows : List Nat} {values : Nat → Option (List Nat)}
    (unreadable : ¬Safe encoding rows values) :
    ∃ message, self.addSingleGroupIntermediateResults group rows (decode encoding rows values) = .error message := by
  obtain ⟨base, row, mem, present⟩ := not_safe_iff.mp unreadable
  unfold addSingleGroupIntermediateResults
  cases kind : encoding.isConstant with
  | true =>
    rw [used_constant kind, mem_singleton] at mem
    obtain ⟨serialized, shows⟩ := Option.ne_none_iff_exists'.mp present
    rw [mem] at shows
    refine ⟨"null pointer", ?_⟩
    rw [decode_constant kind, if_pos rfl]
    dsimp only
    rw [shows, base]
    rfl
  | false =>
    rw [used_varying kind] at mem
    rw [decode_varying kind]
    simp only [Bool.false_eq_true, if_false]
    split
    · exact foldlM_readRow_fails ⟨false, encoding.isFlat, _, encoding.hasFlatBase, values⟩ base ⟨row, mem, present⟩
    · exact foldlM_readRow_fails ⟨false, encoding.isFlat, _, encoding.hasFlatBase, values⟩ base ⟨row, mem, present⟩

end

section

variable {G : Type} [DecidableEq G]

def inputs : History G → G → Multiset Decimal
  | .fresh, _ => 0
  | .newGroups before _, group => inputs before group
  | .addRawInput before groups rows encoding values, group =>
    inputs before group + received groups (fun row => shown (values (place encoding row))) rows group
  | .addSingleGroupRawInput before target rows encoding values, group =>
    inputs before group + received (fun _ => target) (fun row => shown (values (place encoding row))) rows group
  | .addIntermediateResults before groups rows encoding others sources, group =>
    inputs before group +
      received groups (fun row => inputs (others (place encoding row)) (sources (place encoding row))) rows group
  | .addSingleGroupIntermediateResults before target rows encoding others sources, group =>
    inputs before group +
      received (fun _ => target) (fun row => inputs (others (place encoding row))
        (sources (place encoding row))) rows group

def Emptied : History G → G → Prop
  | .fresh, _ => False
  | .newGroups before _, group => Emptied before group
  | .addRawInput before _ _ _ _, group => Emptied before group
  | .addSingleGroupRawInput before target rows encoding _, group =>
    Emptied before group ∨ (target = group ∧ EmptyBatch encoding rows)
  | .addIntermediateResults before groups rows encoding others sources, group =>
    Emptied before group ∨
      ∃ row ∈ rows, groups row = group ∧ Emptied (others (place encoding row)) (sources (place encoding row))
  | .addSingleGroupIntermediateResults before target rows encoding others sources, group =>
    Emptied before group ∨
      ∃ row ∈ rows, target = group ∧ Emptied (others (place encoding row)) (sources (place encoding row))

def Shown (history : History G) (group : G) : Prop := inputs history group ≠ 0 ∨ Emptied history group

theorem add_ne_zero_iff {some others : Multiset Decimal} : some + others ≠ 0 ↔ some ≠ 0 ∨ others ≠ 0 := by
  simp only [ne_eq, ← Multiset.card_eq_zero, Multiset.card_add]
  omega

theorem received_ne_zero_iff {groups : Nat → G} {gives : Nat → Multiset Decimal} {rows : List Nat} {group : G} :
    received groups gives rows group ≠ 0 ↔ ∃ row ∈ rows, groups row = group ∧ gives row ≠ 0 := by
  induction rows with
  | nil => simp
  | cons row rest ih =>
    by_cases own : groups row = group
    · rw [received_cons_own own, exists_mem_cons_iff, ← ih, add_ne_zero_iff]
      simp only [own, true_and]
    · rw [received_cons_foreign own, exists_mem_cons_iff, ih]
      simp [own]

theorem shown_ne_zero_iff (value : Option Decimal) : shown value ≠ 0 ↔ value.isSome = true := by
  cases value <;> simp [shown]

theorem stands_part {table : Table G} {inputs : G → Multiset Decimal} {emptied : G → Prop}
    (accounts : Accounts table.created table.aggregate inputs fun group => inputs group ≠ 0 ∨ emptied group)
      (group : G) : Stands (Table.part (.ok table) group) (inputs group) ∧
      ((Table.part (.ok table) group).isSome = true ↔ inputs group ≠ 0 ∨ emptied group) := by
  unfold Table.part
  by_cases known : group ∈ table.created
  · simp only [if_pos known, extractAccumulator]
    have null := isNull_iff accounts known
    by_cases empty : table.aggregate.isNull group = true
    · rw [if_pos empty]
      have hidden := null.mp empty
      refine ⟨⟨fun _ => ?_, nofun⟩, iff_of_false (by simp) hidden⟩
      by_contra some
      exact hidden (.inl some)
    · rw [if_neg empty]
      refine ⟨⟨nofun, ?_⟩, iff_of_true rfl ?_⟩
      · intro serialized same state before holds
        rw [← Option.some.inj same]
        exact holds_mergeWith holds (accounts.holds group known)
      · by_contra hidden
        exact empty (null.mpr hidden)
  · simp only [if_neg known]
    have strange := accounts.strangers group known
    exact ⟨⟨fun _ => strange.1, nofun⟩, iff_of_false (by simp) strange.2⟩

section

variable {table : Table G} {wanted : List G} {operation : DecimalAggregate G → Except String (DecimalAggregate G)}
  {before history : History G} {otherInputs : G → Multiset Decimal} {otherCleared : G → Prop}

theorem run_call (accounts : Accounts table.created table.aggregate (inputs before) (Shown before))
    (call : run history = table.call wanted operation)
    (works : ∀ {created self}, (∀ group ∈ wanted, group ∈ created) →
      Accounts created self (inputs before) (Shown before) →
      ∃ after, operation self = .ok after ∧ Accounts created after otherInputs otherCleared)
    (given : ∀ group, inputs history group = otherInputs group)
    (shows : ∀ group, Shown history group ↔ otherCleared group) :
    ∃ table, run history = .ok table ∧ Accounts table.created table.aggregate (inputs history) (Shown history) := by
  obtain ⟨after, worked, result⟩ := works
    (fun group mem => Finset.mem_union_right _ (mem_toFinset.mpr mem)) (accounts_fresh accounts wanted.toFinset)
  refine ⟨⟨table.created ∪ wanted.toFinset, after⟩, call.trans ?_, accounts_congr result given shows⟩
  exact congrArg (Except.map (Table.mk (table.created ∪ wanted.toFinset))) worked

end

/-- Every vector of partial results that has one is flat, or a dictionary over a flat one. -/
def Readable : History G → Prop
  | .fresh => True
  | .newGroups before _ => Readable before
  | .addRawInput before _ _ _ _ => Readable before
  | .addSingleGroupRawInput before _ _ _ _ => Readable before
  | .addIntermediateResults before _ rows encoding others sources =>
    Readable before ∧ (∀ row ∈ used encoding rows, Readable (others row)) ∧
      (encoding.hasFlatBase = true ∨ ∀ row ∈ used encoding rows, ¬Shown (others row) (sources row))
  | .addSingleGroupIntermediateResults before _ rows encoding others sources =>
    Readable before ∧ (∀ row ∈ used encoding rows, Readable (others row)) ∧
      (encoding.hasFlatBase = true ∨ ∀ row ∈ used encoding rows, ¬Shown (others row) (sources row))

def Accounted (history : History G) : Prop := ∃ table, run history = .ok table ∧
  Accounts table.created table.aggregate (inputs history) (Shown history)

structure Outcome (history : History G) : Prop where
  accounted : Readable history → Accounted history
  fails : ¬Readable history → ∃ message, run history = .error message

theorem Accounted.part {other : History G} (accounted : Accounted other) (group : G) :
    Stands (Table.part (run other) group) (inputs other group) ∧
      ((Table.part (run other) group).isSome = true ↔ Shown other group) := by
  obtain ⟨table, done, accounts⟩ := accounted
  rw [done]
  exact stands_part accounts group

theorem Outcome.next {before history : History G} (outcome : Outcome before)
    {next : Table G → Except String (Table G)} (call : run history = run before >>= next)
    (readable : Readable history ↔ Readable before)
    (accounted : ∀ table, Accounts table.created table.aggregate (inputs before) (Shown before) →
      run history = next table → Accounted history) : Outcome history := by
  refine ⟨fun read => ?_, fun unread => ?_⟩
  · obtain ⟨table, done, accounts⟩ := outcome.accounted (readable.mp read)
    exact accounted table accounts (by rw [call, done, ok_bind])
  obtain ⟨message, failed⟩ := outcome.fails (readable.not.mp unread)
  exact ⟨message, by rw [call, failed]; rfl⟩

theorem place_mem_used {encoding : Encoding} {rows : List Nat} {row : Nat} (mem : row ∈ rows) :
    place encoding row ∈ used encoding rows := by
  cases kind : encoding.isConstant with
  | true => simp [place, used, kind]
  | false => simpa [place, used, kind] using mem

/-- A batch of partial results of aggregates that have run: it goes through if those that are there can be read. -/
theorem outcome_intermediate {before history : History G} {wanted : List G} {groups : Nat → G} {rows : List Nat}
    {encoding : Encoding} {others : Nat → History G} {sources : Nat → G}
    {operation : (Nat → Option (List Nat)) → DecimalAggregate G → Except String (DecimalAggregate G)}
    (ih : Outcome before) (hypOthers : ∀ row, Outcome (others row))
    (call : run history = do
      let table ← run before
      let _ ← (used encoding rows).mapM fun row => run (others row)
      table.call wanted (operation fun row => Table.part (run (others row)) (sources row)))
    (readable : Readable history ↔ Readable before ∧ (∀ row ∈ used encoding rows, Readable (others row)) ∧
      (encoding.hasFlatBase = true ∨ ∀ row ∈ used encoding rows, ¬Shown (others row) (sources row)))
    (works : ∀ {created self values}, (∀ group ∈ wanted, group ∈ created) →
      Accounts created self (inputs before) (Shown before) → Safe encoding rows values →
      (∀ row ∈ rows, Stands (values (place encoding row))
        (inputs (others (place encoding row)) (sources (place encoding row)))) →
      ∃ after, operation values self = .ok after ∧
        Accounts created after (fun group => inputs before group +
            received groups (fun row => inputs (others (place encoding row)) (sources (place encoding row))) rows group)
          (fun group => Shown before group ∨
            ∃ row ∈ rows, groups row = group ∧ (values (place encoding row)).isSome = true))
    (fails : ∀ self {values}, ¬Safe encoding rows values → ∃ message, operation values self = .error message)
    (given : ∀ group, inputs history group = inputs before group +
      received groups (fun row => inputs (others (place encoding row)) (sources (place encoding row))) rows group)
    (emptied : ∀ group, Emptied history group ↔ Emptied before group ∨
      ∃ row ∈ rows, groups row = group ∧ Emptied (others (place encoding row)) (sources (place encoding row))) :
    Outcome history := by
  by_cases readBefore : Readable before
  case neg =>
    refine ⟨fun read => absurd (readable.mp read).1 readBefore, fun _ => ?_⟩
    obtain ⟨message, failed⟩ := ih.fails readBefore
    exact ⟨message, by rw [call, failed]; rfl⟩
  obtain ⟨table, done, accounts⟩ := ih.accounted readBefore
  by_cases readOthers : ∀ row ∈ used encoding rows, Readable (others row)
  case neg =>
    refine ⟨fun read => absurd (readable.mp read).2.1 readOthers, fun _ => ?_⟩
    push Not at readOthers
    obtain ⟨row, mem, unread⟩ := readOthers
    obtain ⟨problem, failed⟩ := (hypOthers row).fails unread
    have loop : ∃ message, ((used encoding rows).mapM fun row => run (others row)) = .error message :=
      mapM_fails mem failed
    obtain ⟨message, stopped⟩ := loop
    exact ⟨message, by rw [call, done, ok_bind, stopped]; rfl⟩
  have ran := fun row mem => (hypOthers row).accounted (readOthers row mem)
  have each : ∀ row ∈ used encoding rows, ∃ table, run (others row) = .ok table ∧ True := fun row mem =>
    (ran row mem).imp fun _ accounted => ⟨accounted.1, trivial⟩
  obtain ⟨tables, loop, _⟩ := exists_mapM_forall₂ each
  have parts := fun row mem => (ran row mem).part (sources row)
  have safe : Safe encoding rows (fun row => Table.part (run (others row)) (sources row)) ↔
      (encoding.hasFlatBase = true ∨ ∀ row ∈ used encoding rows, ¬Shown (others row) (sources row)) := by
    refine or_congr_right (forall₂_congr fun row mem => ?_)
    rw [← (parts row mem).2, Option.not_isSome_iff_eq_none]
  rw [done, ok_bind, loop, ok_bind] at call
  constructor
  · intro read
    refine run_call accounts call (fun known ready => works known ready (safe.mpr (readable.mp read).2.2) fun row mem =>
      (parts _ (place_mem_used mem)).1) given fun group => ?_
    have shows : (∃ row ∈ rows, groups row = group ∧
        (Table.part (run (others (place encoding row))) (sources (place encoding row))).isSome = true) ↔
        ∃ row ∈ rows, groups row = group ∧ Shown (others (place encoding row)) (sources (place encoding row)) :=
      exists_congr fun row => and_congr_right fun mem => and_congr_right fun _ => (parts _ (place_mem_used mem)).2
    rw [shows]
    simp only [Shown, given, emptied, add_ne_zero_iff, received_ne_zero_iff, and_or_left, exists_or]
    exact or_or_or_comm
  · intro unread
    have unreadable := safe.not.mpr fun kept => unread (readable.mpr ⟨readBefore, readOthers, kept⟩)
    obtain ⟨message, failed⟩ := fails (table.withGroups wanted).aggregate unreadable
    exact ⟨message, by rw [call, Table.call, failed]; rfl⟩

/-- A history whose partial results can be read runs through, and its accounts are right. -/
theorem run_outcome (history : History G) : Outcome history := by
  induction history with
  | fresh =>
    refine ⟨fun _ => ⟨_, rfl, ⟨by simp, by simp, by simp, fun group _ => ⟨rfl, ?_⟩⟩⟩, fun unread =>
      absurd trivial unread⟩
    rintro (some | none)
    · exact some rfl
    · exact none
  | newGroups before new ih =>
    exact ih.next rfl Iff.rfl fun table accounts done =>
      ⟨table.withGroups new, done, accounts_fresh accounts new.toFinset⟩
  | addRawInput before groups rows encoding values ih =>
    refine ih.next rfl Iff.rfl fun table accounts call => run_call accounts call (fun known ready =>
      accounts_addRawInput encoding rows ready groups (fun row mem => known _ (mem_map_of_mem mem)) values)
      (fun _ => rfl) fun group => ?_
    simp only [Shown, inputs, Emptied, add_ne_zero_iff, received_ne_zero_iff, shown_ne_zero_iff]
    exact or_right_comm
  | addSingleGroupRawInput before target rows encoding values ih =>
    refine ih.next rfl Iff.rfl fun table accounts call => run_call accounts call (fun known ready =>
      accounts_addSingleGroupRawInput encoding rows ready (known target mem_cons_self) values)
      (fun _ => rfl) fun group => ?_
    simp only [Shown, inputs, Emptied, add_ne_zero_iff, received_ne_zero_iff, shown_ne_zero_iff]
    exact or_or_or_comm
  | addIntermediateResults before groups rows encoding others sources ih hypOthers =>
    exact outcome_intermediate ih hypOthers rfl Iff.rfl
      (fun known ready safe stands => accounts_addIntermediateResults encoding rows ready groups
        (fun row mem => known _ (mem_map_of_mem mem)) _ safe stands)
      (fun _ _ unreadable => addIntermediateResults_fails encoding unreadable groups) (fun _ => rfl) fun _ => Iff.rfl
  | addSingleGroupIntermediateResults before target rows encoding others sources ih hypOthers =>
    exact outcome_intermediate ih hypOthers rfl Iff.rfl
      (fun known ready safe stands => accounts_addSingleGroupIntermediateResults encoding rows ready
        (known target mem_cons_self) _ safe stands)
      (fun _ _ unreadable => addSingleGroupIntermediateResults_fails encoding unreadable) (fun _ => rfl) fun _ =>
        Iff.rfl

theorem accounts_of_run {history : History G} {table : Table G} (done : run history = .ok table) :
    Accounts table.created table.aggregate (inputs history) (Shown history) := by
  by_cases readable : Readable history
  · obtain ⟨other, ran, accounts⟩ := (run_outcome history).accounted readable
    cases done.symm.trans ran
    exact accounts
  · obtain ⟨message, failed⟩ := (run_outcome history).fails readable
    cases done.symm.trans failed

end

section

variable {state : LongDecimalWithOverflowState} {inputs : Multiset Decimal}

theorem total_bounds (inputs : Multiset Decimal) :
    -(inputs.card * 10 ^ 38) ≤ total inputs ∧ total inputs ≤ inputs.card * 10 ^ 38 := by
  induction inputs using Multiset.induction with
  | empty => simp [total]
  | cons value inputs ih =>
    have bounds := value.2
    rw [total_cons, Multiset.card_cons]
    push_cast
    omega

section

variable (holds : HoldsSum state inputs) (few : inputs.card < 2 ^ 63)
include holds few

/-- Below `2 ^ 63` values the overflows are counted exactly. -/
theorem exact_overflow :
    state.sum + 2 ^ 127 * state.overflow = total inputs := by
  obtain ⟨carries, exact, overflows⟩ := holds.exact
  have bounds := total_bounds inputs
  have low := holds.low
  have high := holds.high
  rw [overflows, signed_of_fits (by decide) (by omega) (by omega)]
  exact exact

/-- What does not fit into a decimal is an error, also where the carry alone shows it. -/
theorem computeFinalValue_spec : if -10 ^ 38 < total inputs ∧ total inputs < 10 ^ 38
    then state.computeFinalValue = .ok (total inputs) else ∃ message, state.computeFinalValue = .error message := by
  have exact := exact_overflow holds few
  have low := holds.low
  have high := holds.high
  unfold computeFinalValue
  cases adjusted : adjustSumForOverflow state.sum state.overflow with
  | none =>
    rw [if_neg]
    · exact ⟨_, rfl⟩
    · unfold adjustSumForOverflow at adjusted
      split at adjusted
      · cases adjusted
      split at adjusted
      · omega
      · cases adjusted
  | some sum =>
    have same : sum = total inputs := by
      unfold adjustSumForOverflow signed kOverflowMultiplier at adjusted
      split at adjusted
      · rw [← Option.some.inj adjusted]
        omega
      split at adjusted
      · cases adjusted
      · rw [← Option.some.inj adjusted]
        omega
    unfold valueInRange
    dsimp only
    split
    · rw [if_pos (by omega), same]
      rfl
    · rw [if_neg (by omega)]
      exact ⟨_, rfl⟩

end

def Correct (result : Except String (Option Int)) (inputs : Multiset Decimal) : Prop :=
  if inputs = 0 then result = .ok none
  else if -10 ^ 38 < total inputs ∧ total inputs < 10 ^ 38 then result = .ok (some (total inputs))
  else ∃ message, result = .error message

end

variable {G : Type} [DecidableEq G]

/-- Where the partial results can be read, every sum is exact, an error beyond the decimals and null without values,
except that a batch without rows makes the sum of a group without values zero. -/
theorem decimal_sum_correct_iff (history : History G) (group : G) (few : (inputs history group).card < 2 ^ 63) :
    (Readable history → ∃ table, run history = .ok table ∧ (group ∈ table.created →
      (Correct (table.aggregate.extractValue group) (inputs history group) ↔
        inputs history group ≠ 0 ∨ ¬Emptied history group))) ∧
      (¬Readable history → ∃ message, run history = .error message) := by
  refine ⟨fun readable => ?_, (run_outcome history).fails⟩
  obtain ⟨table, done, accounts⟩ := (run_outcome history).accounted readable
  refine ⟨table, done, fun known => ?_⟩
  have null := isNull_iff accounts known
  have value := computeFinalValue_spec (accounts.holds group known).toHoldsSum few
  unfold Correct extractValue
  by_cases nothing : inputs history group = 0
  · rw [if_pos nothing]
    by_cases emptied : Emptied history group
    · have shows : Shown history group := .inr emptied
      rw [nothing, if_pos (by decide)] at value
      rw [if_neg fun empty => null.mp empty shows, value]
      refine iff_of_false nofun ?_
      rintro (some | none)
      · exact some nothing
      · exact none emptied
    · have hidden : ¬Shown history group := fun shows => shows.elim (absurd nothing) emptied
      rw [if_pos (null.mpr hidden)]
      exact iff_of_true rfl (.inr emptied)
  · have shows : Shown history group := .inl nothing
    rw [if_neg nothing, if_neg fun empty => null.mp empty shows]
    refine iff_of_true ?_ (.inl nothing)
    split at value
    case isTrue range =>
      rw [if_pos range, value]
      rfl
    case isFalse range =>
      obtain ⟨message, failed⟩ := value
      rw [if_neg range]
      exact ⟨message, by rw [failed]; rfl⟩

def mergedDecimals : History Unit :=
  .addSingleGroupIntermediateResults
    (.addRawInput .fresh (fun _ => ()) [0, 1] (.flat false) fun row =>
      if row = 0 then some ⟨10 ^ 38 - 1, by decide⟩ else none) () [0] (.dictionary true)
    (fun _ => .addSingleGroupRawInput .fresh () [0, 1] .constant fun _ => some ⟨1, by decide⟩) (fun _ => ())

theorem mergedDecimals_correct : (inputs mergedDecimals ()).card < 2 ^ 63 ∧ ∃ table, run mergedDecimals = .ok table ∧
    (() ∈ table.created → (Correct (table.aggregate.extractValue ()) (inputs mergedDecimals ()) ↔
      inputs mergedDecimals () ≠ 0 ∨ ¬Emptied mergedDecimals ())) := by
  have few : (inputs mergedDecimals ()).card < 2 ^ 63 := by decide +kernel
  exact ⟨few, (decimal_sum_correct_iff mergedDecimals () few).1 ⟨trivial, fun _ _ => trivial, .inl rfl⟩⟩

def noRows : History Unit := .addSingleGroupRawInput .fresh () [] (.flat false) fun _ => none

def constantPart : History Unit := .addIntermediateResults .fresh (fun _ => ()) [0] .constant
  (fun _ => .addRawInput .fresh (fun _ => ()) [0] (.flat false) fun _ => some ⟨1, by decide⟩) (fun _ => ())

/-- A batch without rows makes the sum of a group without values zero, and a partial result in a constant vector is
read through a null pointer. -/
theorem noRows_sum_zero : inputs noRows () = 0 ∧ (∃ table, run noRows = .ok table ∧ () ∈ table.created ∧
    table.aggregate.extractValue () = .ok (some 0) ∧ ¬Correct (table.aggregate.extractValue ()) (inputs noRows ())) ∧
    total (inputs constantPart ()) = 1 ∧ (run constantPart).map (fun _ => ()) = .error "null pointer" := by
  have nothing : inputs noRows () = 0 := rfl
  have wrong {result : Except String (Option Int)} (zero : result = .ok (some 0)) :
      ¬Correct result (inputs noRows ()) := by
    rw [nothing, Correct, if_pos rfl, zero]
    exact nofun
  exact ⟨nothing, ⟨_, rfl, by decide +kernel, by decide +kernel, wrong (by decide +kernel)⟩, by decide +kernel,
    by decide +kernel⟩

end CactusDB.Aggregates.Decimals
