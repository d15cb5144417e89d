import CactusDB.Aggregates.DecimalTotals
import Mathlib.Algebra.Order.Ring.Abs

/-! Averages of decimals. -/

namespace CactusDB.Aggregates.Decimals
open Library.FixedWidth Int

inductive Failure where
  | user (message : String)
  /-- A signed number overflows. -/
  | undefined
  deriving DecidableEq

def checkedMultiply (limit a b : Int) (typeName : String) : Except Failure Int :=
  if a * b ≤ limit then .ok (a * b)
  else .error (.user (typeName ++ " overflow: " ++ toString a ++ " * " ++ toString b))

/-- The quotient and the remainder of two numbers. The first has up to `limit`, the second 63 bits and a sign, and the
doubled remainder has as many. -/
def divideWithRoundUp (limit a b : Int) (noRoundUp : Bool) (aRescale : Nat) : Except Failure (Int × Int) :=
  if b = 0 then .error (.user "Division by zero")
  else do
    let resultSign := (if a < 0 then -1 else 1) * if b < 0 then -1 else 1
    let unsignedDivisor := if b < 0 then b * -1 else b
    let unsignedDividendRescaled ← checkedMultiply limit (if a < 0 then a * -1 else a) (10 ^ aRescale) "Decimal"
    let quotient := unsignedDividendRescaled / unsignedDivisor
    let remainder := unsignedDividendRescaled % unsignedDivisor
    if noRoundUp then .ok (quotient * resultSign, remainder * resultSign)
    else if 2 ^ 63 ≤ remainder * 2 then .error .undefined
    else if unsignedDivisor ≤ remainder * 2 then .ok ((quotient + 1) * resultSign, remainder * resultSign)
    else .ok (quotient * resultSign, remainder * resultSign)

def computeAverage (sum count overflow : Int) : Except Failure Int :=
  if overflow = 0 then do
    let average ← divideWithRoundUp (2 ^ 127 - 1) sum count false 0
    .ok average.1
  else do
    let multiplier ← divideWithRoundUp (2 ^ 128 - 1) kOverflowMultiplier count true 0
    let remMul := multiplier.2 * overflow % 2 ^ 128
    let quotMul := multiplier.1 * overflow % 2 ^ 128
    let own ← divideWithRoundUp (2 ^ 127 - 1) sum count true 0
    let remTotal ← divideWithRoundUp (2 ^ 127 - 1) (signed 128 (remMul + own.2)) count true 0
    .ok (signed 128 (quotMul + own.1 + remTotal.1))

def Rounds (average total count : Int) : Prop :=
  2 * |total - average * count| < count ∨ (2 * |total - average * count| = count ∧ |total| ≤ |average * count|)

theorem checkedMultiply_one {limit a : Int} (small : a ≤ limit) :
    checkedMultiply limit a (10 ^ 0) "Decimal" = .ok a := by
  rw [checkedMultiply, pow_zero, mul_one, if_pos small]

theorem magnitude_sign (a : Int) : (if a < 0 then a * -1 else a) = |a| ∧ a = |a| * (if a < 0 then -1 else 1) := by
  by_cases negative : a < 0
  · rw [if_pos negative, if_pos negative, abs_of_neg negative]
    omega
  · rw [if_neg negative, if_neg negative, abs_of_nonneg (by omega)]
    omega

theorem divide_down {limit a b : Int} (positive : 0 < b) (small : |a| ≤ limit) :
    divideWithRoundUp limit a b true 0 = .ok (a.tdiv b, a.tmod b) := by
  obtain ⟨magnitude, signed⟩ := magnitude_sign a
  unfold divideWithRoundUp
  rw [if_neg (by omega), magnitude, checkedMultiply_one small]
  simp only [if_neg (by omega : ¬b < 0), mul_one, if_true]
  show Except.ok (|a| / b * (if a < 0 then -1 else 1), |a| % b * (if a < 0 then -1 else 1)) = _
  have quotient : |a|.tdiv b = |a| / b := tdiv_eq_ediv_of_nonneg (abs_nonneg a)
  have remainder : |a|.tmod b = |a| % b := tmod_eq_emod_of_nonneg (abs_nonneg a)
  rw [← quotient, ← remainder]
  by_cases negative : a < 0
  · rw [if_pos negative]
    have same : a = -|a| := by rw [abs_of_neg negative]; omega
    nth_rewrite 3 [same]
    nth_rewrite 4 [same]
    rw [Int.neg_tdiv, Int.neg_tmod, Int.mul_neg_one, Int.mul_neg_one]
  · rw [if_neg negative, Int.mul_one, Int.mul_one, abs_of_nonneg (by omega)]

def quotientUp (a b : Int) : Int := if b ≤ a % b * 2 then a / b + 1 else a / b

theorem divide_up {limit a b : Int} (positive : 0 < b) (small : |a| ≤ limit) :
    divideWithRoundUp limit a b false 0 = if 2 ^ 63 ≤ |a| % b * 2 then .error .undefined
      else .ok (quotientUp |a| b * (if a < 0 then -1 else 1), |a| % b * (if a < 0 then -1 else 1)) := by
  obtain ⟨magnitude, _⟩ := magnitude_sign a
  unfold divideWithRoundUp quotientUp
  rw [if_neg (by omega), magnitude, checkedMultiply_one small]
  simp only [if_neg (by omega : ¬b < 0), mul_one, Bool.false_eq_true, if_false]
  show (if 2 ^ 63 ≤ |a| % b * 2 then _ else if b ≤ |a| % b * 2 then _ else _) = _
  split
  · rfl
  split <;> rfl

theorem rounds_neg {average total count : Int} (rounds : Rounds average total count) :
    Rounds (-average) (-total) count := by
  have flipped : -total - -average * count = -(total - average * count) := by ring
  unfold Rounds
  rw [flipped, abs_neg, abs_neg, neg_mul, abs_neg]
  exact rounds

theorem rounds_quotientUp {a b : Int} (low : 0 ≤ a) (positive : 0 < b) : Rounds (quotientUp a b) a b := by
  have whole := mul_ediv_add_emod a b
  have remainderLow := emod_nonneg a (by omega : b ≠ 0)
  have remainderHigh := emod_lt_of_pos a positive
  unfold Rounds quotientUp
  split
  case isTrue up =>
    have product : (a / b + 1) * b = a - a % b + b := by rw [add_mul, mul_comm]; omega
    have distance : |a - (a / b + 1) * b| = b - a % b := by rw [product, abs_of_nonpos] <;> omega
    have size : |(a / b + 1) * b| = a - a % b + b := by rw [product, abs_of_nonneg]; omega
    rw [distance, size, abs_of_nonneg low]
    omega
  case isFalse down =>
    have product : a / b * b = a - a % b := by rw [mul_comm]; omega
    have distance : |a - a / b * b| = a % b := by rw [product, abs_of_nonneg] <;> omega
    rw [distance]
    omega

/-- Without overflows the average is rounded, as far as the doubled remainder has a width of its own. -/
theorem average_without_overflow {sum count : Int} (positive : 0 < count) (small : |sum| ≤ 2 ^ 127 - 1) :
    (∃ average, computeAverage sum count 0 = .ok average ∧ Rounds average sum count) ↔ |sum| % count * 2 < 2 ^ 63 := by
  unfold computeAverage
  rw [if_pos rfl, divide_up positive small]
  split
  case isTrue wide =>
    refine iff_of_false ?_ (by omega)
    rintro ⟨average, failed, _⟩
    cases failed
  case isFalse narrow =>
    refine iff_of_true ⟨_, rfl, ?_⟩ (by omega)
    have rounds := rounds_quotientUp (abs_nonneg sum) positive
    by_cases negative : sum < 0
    · have flipped := rounds_neg rounds
      rw [abs_of_neg negative, neg_neg] at flipped
      rw [if_pos negative, mul_neg_one, abs_of_neg negative]
      exact flipped
    · rw [if_neg negative, mul_one]
      rw [abs_of_nonneg (by omega)] at rounds ⊢
      exact rounds

section

def cutOff (sum count overflow : Int) : Int :=
  (tmod (2 ^ 127) count * overflow + sum.tmod count).tmod count

def truncated (sum count overflow : Int) : Int :=
  tdiv (2 ^ 127) count * overflow + sum.tdiv count +
    (tmod (2 ^ 127) count * overflow + sum.tmod count).tdiv count

theorem truncated_add_cutOff (sum count overflow : Int) :
    truncated sum count overflow * count + cutOff sum count overflow = sum + 2 ^ 127 * overflow := by
  have multiplier := mul_tdiv_add_tmod (2 ^ 127) count
  have own := mul_tdiv_add_tmod sum count
  have rest := mul_tdiv_add_tmod (tmod (2 ^ 127) count * overflow + sum.tmod count) count
  unfold truncated cutOff
  calc
    _ = (count * tdiv (2 ^ 127) count) * overflow + count * sum.tdiv count +
        (count * (tmod (2 ^ 127) count * overflow + sum.tmod count).tdiv count +
          (tmod (2 ^ 127) count * overflow + sum.tmod count).tmod count) := by ring
    _ = (count * tdiv (2 ^ 127) count + tmod (2 ^ 127) count) * overflow +
        (count * sum.tdiv count + sum.tmod count) := by rw [rest]; ring
    _ = sum + 2 ^ 127 * overflow := by rw [multiplier, own]; ring

theorem tmod_bounds (a : Int) {b : Int} (positive : 0 < b) : -b < a.tmod b ∧ a.tmod b < b :=
  ⟨lt_tmod_of_pos a positive, tmod_lt_of_pos a positive⟩

variable {sum count overflow : Int}

theorem truncated_bounds (positive : 0 < count)
    (total : -(count * 10 ^ 38) ≤ sum + 2 ^ 127 * overflow ∧ sum + 2 ^ 127 * overflow ≤ count * 10 ^ 38) :
    -(10 ^ 38 + 1) ≤ truncated sum count overflow ∧ truncated sum count overflow ≤ 10 ^ 38 + 1 := by
  have whole := truncated_add_cutOff sum count overflow
  have rest : -count < cutOff sum count overflow ∧ cutOff sum count overflow < count := tmod_bounds _ positive
  constructor
  · refine Int.le_of_mul_le_mul_right ?_ positive
    rw [Int.neg_mul, Int.add_mul]
    omega
  · refine Int.le_of_mul_le_mul_right ?_ positive
    rw [Int.add_mul]
    omega

theorem signed_emod {value rest : Int} (low : -2 ^ 127 ≤ value + rest) (high : value + rest < 2 ^ 127) :
    signed 128 (value % 2 ^ 128 + rest) = value + rest := by
  have same : value % 2 ^ 128 + rest = value + rest + 2 ^ 128 * -(value / 2 ^ 128) := by
    have whole := mul_ediv_add_emod value (2 ^ 128)
    omega
  rw [signed_congr _ same, signed_of_fits (by decide) low high]

/-- The quotients are computed without loss. -/
theorem average_with_overflow (positive : 0 < count) (narrow : count < 2 ^ 63) (low : -2 ^ 127 < sum)
    (high : sum < 2 ^ 127)
    (total : -(count * 10 ^ 38) ≤ sum + 2 ^ 127 * overflow ∧ sum + 2 ^ 127 * overflow ≤ count * 10 ^ 38)
    (some : overflow ≠ 0) : computeAverage sum count overflow = .ok (truncated sum count overflow) := by
  have multiplier := tmod_bounds (2 ^ 127) positive
  have own := tmod_bounds sum positive
  have few : -count ≤ overflow ∧ overflow ≤ count := by omega
  have product : |tmod (2 ^ 127) count * overflow| ≤ 2 ^ 63 * 2 ^ 63 := by
    rw [abs_mul]
    apply mul_le_mul _ _ (abs_nonneg _) (by decide)
    · exact abs_le.mpr (by omega)
    · exact abs_le.mpr (by omega)
  have productBounds := abs_le.mp product
  have rests : signed 128 (tmod (2 ^ 127) count * overflow % 2 ^ 128 + sum.tmod count) = _ :=
    signed_emod (by omega) (by omega)
  have bounds := truncated_bounds positive total
  have first : divideWithRoundUp (2 ^ 128 - 1) kOverflowMultiplier count true 0 =
      .ok (tdiv (2 ^ 127) count, tmod (2 ^ 127) count) := divide_down positive (by decide)
  have second : divideWithRoundUp (2 ^ 127 - 1) sum count true 0 = .ok (sum.tdiv count, sum.tmod count) :=
    divide_down positive (abs_le.mpr (by omega))
  have third : divideWithRoundUp (2 ^ 127 - 1)
    (tmod (2 ^ 127) count * overflow + sum.tmod count) count true 0 = .ok _ :=
    divide_down positive (abs_le.mpr (by omega))
  unfold computeAverage
  rw [if_neg some, first]
  dsimp only [bind, Except.bind]
  rw [second]
  dsimp only
  rw [rests, third]
  dsimp only
  rw [add_assoc, signed_emod]
  · rw [truncated, add_assoc]
  · rw [truncated, add_assoc] at bounds
    omega
  · rw [truncated, add_assoc] at bounds
    omega

/-- A truncated average is the rounded one if less than half is cut off, or half of it towards zero. -/
theorem rounds_truncated_iff (positive : 0 < count) :
    Rounds (truncated sum count overflow) (sum + 2 ^ 127 * overflow) count ↔
      2 * |cutOff sum count overflow| < count ∨
        (2 * |cutOff sum count overflow| = count ∧ cutOff sum count overflow * (sum + 2 ^ 127 * overflow) < 0) := by
  have whole := truncated_add_cutOff sum count overflow
  have rest : -count < cutOff sum count overflow ∧ cutOff sum count overflow < count := tmod_bounds _ positive
  generalize truncated sum count overflow = average at *
  generalize cutOff sum count overflow = cut at *
  generalize sum + 2 ^ 127 * overflow = total at *
  have difference : total - average * count = cut := by omega
  unfold Rounds
  rw [difference]
  refine or_congr_right (and_congr_right fun half => ?_)
  -- A half has a sign, and the rest of the sum is at least twice as large.
  have sign : cut < 0 ∧ |cut| = -cut ∨ 0 < cut ∧ |cut| = cut := by
    rcases lt_trichotomy cut 0 with negative | rfl | above
    · exact .inl ⟨negative, abs_of_neg negative⟩
    · rw [abs_zero] at half
      omega
    · exact .inr ⟨above, abs_of_pos above⟩
  rcases lt_trichotomy average 0 with negative | rfl | above
  · have far : average * count ≤ -1 * count := mul_le_mul_of_nonneg_right (by omega) (by omega)
    rw [abs_of_neg (by omega : total < 0), abs_of_neg (by omega : average * count < 0), mul_neg_iff]
    omega
  · have same : total = cut := by omega
    rw [same, zero_mul, abs_zero]
    have square : 0 ≤ cut * cut := mul_self_nonneg cut
    omega
  · have far : 1 * count ≤ average * count := mul_le_mul_of_nonneg_right (by omega) (by omega)
    rw [abs_of_pos (by omega : 0 < total), abs_of_pos (by omega : 0 < average * count), mul_neg_iff]
    omega

end

variable {G : Type} [DecidableEq G]

/-- When an average is rounded right: without overflows if the doubled remainder is a number, and with overflows if less
than half is cut off, or half of it towards zero. -/
def RoundedRight (state : LongDecimalWithOverflowState) : Prop :=
  if state.overflow = 0 then |state.sum| % state.count * 2 < 2 ^ 63
  else
    let cut := cutOff state.sum state.count state.overflow
    2 * |cut| < state.count ∨ (2 * |cut| = state.count ∧ cut * (state.sum + 2 ^ 127 * state.overflow) < 0)

theorem average_rounded_iff {state : LongDecimalWithOverflowState} {inputs : Multiset Decimal}
    (holds : Holds state inputs) (present : inputs ≠ 0) (few : inputs.card < 2 ^ 63) :
    (∃ average, computeAverage state.sum state.count state.overflow = .ok average ∧
      Rounds average (total inputs) inputs.card) ↔ RoundedRight state := by
  have positive : 0 < inputs.card := Multiset.card_pos.mpr present
  have count : state.count = inputs.card := by
    rw [holds.counted, signed_of_fits (by decide) (by omega) (by omega)]
  have exact := exact_overflow holds.toHoldsSum few
  have bounds := total_bounds inputs
  have low := holds.low
  have high := holds.high
  unfold RoundedRight
  rw [← exact, ← count] at bounds ⊢
  by_cases none : state.overflow = 0
  · rw [if_pos none, none, mul_zero, add_zero]
    exact average_without_overflow (by omega) (abs_le.mpr (by omega))
  · rw [if_neg none, average_with_overflow (by omega) (by omega) low high bounds none]
    dsimp only
    rw [← rounds_truncated_iff (by omega)]
    constructor
    · rintro ⟨average, same, rounds⟩
      rw [Except.ok.inj same]
      exact rounds
    · exact fun rounds => ⟨_, rfl, rounds⟩

/-- The average of a group is rounded to the nearest integer, halves away from zero, exactly under this condition,
in every state that is reached; and one is reached wherever the partial results can be read. -/
theorem decimal_average_rounded_iff (history : History G) (group : G) (present : inputs history group ≠ 0)
    (few : (inputs history group).card < 2 ^ 63) :
    (Readable history → ∃ table, run history = .ok table) ∧ ∀ table, run history = .ok table →
      ((∃ average, computeAverage (table.aggregate.groups group).accumulator.sum
          (table.aggregate.groups group).accumulator.count (table.aggregate.groups group).accumulator.overflow =
            .ok average ∧
        Rounds average (total (inputs history group)) (inputs history group).card) ↔
      RoundedRight (table.aggregate.groups group).accumulator) := by
  refine ⟨fun readable => ?_, fun table done => ?_⟩
  · obtain ⟨table, done, _⟩ := (run_outcome history).accounted readable
    exact ⟨table, done⟩
  · have accounts := accounts_of_run done
    have known : group ∈ table.created := by
      by_contra strange
      exact present (accounts.strangers group strange).1
    exact average_rounded_iff (accounts.holds group known) present few

def oddSum : History Unit :=
  .addRawInput .fresh (fun _ => ()) [0, 1] (.flat false) fun row =>
    if row = 0 then some ⟨2 ^ 126, by decide⟩ else some ⟨2 ^ 126 + 1, by decide⟩

theorem oddSum_rounded_iff : inputs oddSum () ≠ 0 ∧ ∃ table, run oddSum = .ok table ∧
    ((∃ average, computeAverage (table.aggregate.groups ()).accumulator.sum
      (table.aggregate.groups ()).accumulator.count
        (table.aggregate.groups ()).accumulator.overflow = .ok average ∧
      Rounds average (total (inputs oddSum ())) (inputs oddSum ()).card) ↔
    RoundedRight (table.aggregate.groups ()).accumulator) := by
  have present : inputs oddSum () ≠ 0 := by decide +kernel
  have average := decimal_average_rounded_iff oddSum () present (by decide +kernel)
  obtain ⟨table, done⟩ := average.1 trivial
  exact ⟨present, table, done, average.2 table done⟩

/-- The average of `2 ^ 126` and `2 ^ 126 + 1` is rounded down. -/
theorem oddSum_truncated : ∃ table, run oddSum = .ok table ∧
    computeAverage (table.aggregate.groups ()).accumulator.sum (table.aggregate.groups ()).accumulator.count
      (table.aggregate.groups ()).accumulator.overflow = .ok (2 ^ 126) ∧
    total (inputs oddSum ()) = 2 ^ 127 + 1 ∧ (inputs oddSum ()).card = 2 ∧ ¬Rounds (2 ^ 126) (2 ^ 127 + 1) 2 := by
  refine ⟨_, rfl, ?_, ?_, ?_, ?_⟩
  · decide +kernel
  · decide +kernel
  · decide +kernel
  · unfold Rounds
    decide

end CactusDB.Aggregates.Decimals
