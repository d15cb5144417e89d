import Mathlib.Algebra.Order.Field.Power
import Mathlib.Data.Int.Log
import Mathlib.Data.Rat.Floor
import Mathlib.Tactic.Linarith
import Mathlib.Tactic.Positivity

/-! Rounding of rationals to a significand of 24 bits, ties to even, as single-precision
arithmetic does it away from overflow and subnormal numbers. -/

namespace CactusDB.Library.Binary32

def nearestEven (x : ℚ) : ℤ :=
  if x - ⌊x⌋ < 1 / 2 then ⌊x⌋
  else if 1 / 2 < x - ⌊x⌋ then ⌊x⌋ + 1
  else if 2 ∣ ⌊x⌋ then ⌊x⌋
  else ⌊x⌋ + 1

def ulp (x : ℚ) : ℚ := 2 ^ (Int.log 2 |x| - 23)

def round (x : ℚ) : ℚ := nearestEven (x / ulp x) * ulp x

def toInt (x : ℚ) : ℤ := if 0 ≤ x then ⌊x⌋ else ⌈x⌉

def div (x y : ℚ) : ℚ := round (x / y)

theorem floor_le_nearestEven (x : ℚ) : ⌊x⌋ ≤ nearestEven x := by
  unfold nearestEven
  split_ifs <;> omega

variable {x : ℚ}

theorem nearestEven_le_of_le {n : ℤ} (upper : x ≤ n) : nearestEven x ≤ n := by
  have floor : ⌊x⌋ ≤ n := Int.floor_le_iff.mpr (lt_of_le_of_lt upper (lt_add_one _))
  have above : x ≠ ⌊x⌋ → ⌊x⌋ + 1 ≤ n := by
    intro different
    have less : (⌊x⌋ : ℚ) < n := lt_of_lt_of_le (lt_of_le_of_ne (Int.floor_le x) different.symm) upper
    exact_mod_cast less
  unfold nearestEven
  split_ifs with low high even
  · exact floor
  · exact above fun same => by linarith
  · exact floor
  · exact above fun same => by linarith

theorem le_nearestEven_of_le {n : ℤ} (lower : n ≤ x) : n ≤ nearestEven x :=
  (Int.le_floor.mpr lower).trans (floor_le_nearestEven x)

@[simp] theorem nearestEven_intCast (n : ℤ) : nearestEven n = n :=
  le_antisymm (nearestEven_le_of_le le_rfl) (le_nearestEven_of_le le_rfl)

/-- A positive rational lies in a binade, which fixes its last place. -/
theorem exists_binade (positive : 0 < x) : ∃ e : ℤ, (2 : ℚ) ^ e ≤ x ∧ x < 2 ^ (e + 1) ∧ ulp x = 2 ^ (e - 23) := by
  refine ⟨Int.log 2 x, ?_, ?_, by rw [ulp, abs_of_pos positive]⟩
  · simpa using Int.zpow_log_le_self (b := 2) (by norm_num) positive
  · simpa using Int.lt_zpow_succ_log_self (b := 2) (by norm_num) x

/-- Below `2 ^ 24` every integer is a whole number of last places. -/
theorem integer_of_places {e : ℤ} (small : e ≤ 23) (n : ℤ) :
    ((n * 2 ^ (23 - e).toNat : ℤ) : ℚ) * 2 ^ (e - 23) = n := by
  have exponent : ((23 - e).toNat : ℤ) + (e - 23) = 0 := by omega
  push_cast
  rw [mul_assoc, ← zpow_natCast, ← zpow_add₀ (by norm_num), exponent, zpow_zero, mul_one]

theorem binade_le {e : ℤ} {n : ℕ} (lower : (2 : ℚ) ^ e ≤ x) (upper : x < 2 ^ n) : e < n := by
  have less : (2 : ℚ) ^ e < 2 ^ (n : ℤ) := by
    rw [zpow_natCast]
    exact lt_of_le_of_lt lower upper
  exact (zpow_lt_zpow_iff_right₀ (by norm_num)).mp less

/-- Rounding does not pass a whole number of last places below. -/
theorem places_le_round {e n : ℤ} (place : ulp x = 2 ^ (e - 23)) (lower : (n : ℚ) * 2 ^ (e - 23) ≤ x) :
    (n : ℚ) * 2 ^ (e - 23) ≤ round x := by
  have rounded : n ≤ nearestEven (x / 2 ^ (e - 23)) := by
    refine le_nearestEven_of_le ?_
    rwa [le_div_iff₀ (zpow_pos (by norm_num) _)]
  rw [round, place]
  exact mul_le_mul_of_nonneg_right (Int.cast_le.mpr rounded) (zpow_nonneg (by norm_num) _)

theorem le_round_of_le {n : ℤ} (positive : 0 < x) (below : x < 2 ^ 24) (lower : n ≤ x) : n ≤ round x := by
  obtain ⟨e, least, _, place⟩ := exists_binade positive
  have small := binade_le least below
  have places := integer_of_places (show e ≤ 23 by omega) n
  rw [← places] at lower ⊢
  exact places_le_round place lower

theorem leading_places (e : ℤ) : ((2 ^ 23 : ℤ) : ℚ) * 2 ^ (e - 23) = 2 ^ e := by
  rw [zpow_sub₀ (by norm_num)]
  norm_num
  exact mul_div_cancel₀ _ (by norm_num)

theorem two_zpow_le_round (positive : 0 < x) : ∃ e : ℤ, (2 : ℚ) ^ e ≤ round x ∧ x < 2 ^ (e + 1) := by
  obtain ⟨e, lower, upper, place⟩ := exists_binade positive
  refine ⟨e, ?_, upper⟩
  rw [← leading_places] at lower ⊢
  exact places_le_round place lower

theorem round_pos (positive : 0 < x) : 0 < round x := by
  obtain ⟨e, lower, _⟩ := two_zpow_le_round positive
  exact lt_of_lt_of_le (zpow_pos (by norm_num) e) lower

@[simp] theorem round_zero : round 0 = 0 := by
  simp [round, show nearestEven 0 = 0 by exact_mod_cast nearestEven_intCast 0]

theorem round_two_zpow (e : ℤ) : round (2 ^ e) = 2 ^ e := by
  obtain ⟨log, lower, upper, place⟩ := exists_binade (zpow_pos (by norm_num : (0 : ℚ) < 2) e)
  have least : log ≤ e := (zpow_le_zpow_iff_right₀ (by norm_num)).mp lower
  have greatest : e < log + 1 := (zpow_lt_zpow_iff_right₀ (by norm_num)).mp upper
  obtain rfl : log = e := by omega
  have places : (2 : ℚ) ^ log / 2 ^ (log - 23) = ((2 ^ 23 : ℤ) : ℚ) := by
    rw [div_eq_iff (zpow_pos (by norm_num) _).ne', leading_places]
  rw [round, place, places, nearestEven_intCast, leading_places]

/-- Rounding does not pass an integer above that is at most `2 ^ 24`. -/
theorem round_le_of_le {n : ℤ} (positive : 0 < x) (bound : x ≤ 2 ^ 24) (upper : x ≤ n) : round x ≤ n := by
  rcases eq_or_lt_of_le bound with rfl | below
  · have exact := round_two_zpow 24
    norm_num at exact
    rwa [show (2 : ℚ) ^ 24 = 16777216 by norm_num, exact] at *
  obtain ⟨e, lower, _, place⟩ := exists_binade positive
  have small := binade_le lower below
  have places := integer_of_places (show e ≤ 23 by omega) n
  have rounded : nearestEven (x / 2 ^ (e - 23)) ≤ n * 2 ^ (23 - e).toNat := by
    refine nearestEven_le_of_le ?_
    rw [div_le_iff₀ (zpow_pos (by norm_num) _), places]
    exact upper
  calc round x = nearestEven (x / 2 ^ (e - 23)) * 2 ^ (e - 23) := by rw [round, place]
    _ ≤ ((n * 2 ^ (23 - e).toNat : ℤ) : ℚ) * 2 ^ (e - 23) :=
        mul_le_mul_of_nonneg_right (Int.cast_le.mpr rounded) (zpow_nonneg (by norm_num) _)
    _ = n := places

/-- Integers of at most 24 bits, and `2 ^ 24` itself, are represented exactly. -/
theorem round_natCast {n : ℕ} (bound : n ≤ 2 ^ 24) : round n = n := by
  rcases Nat.eq_zero_or_pos n with rfl | positive
  · simp
  rcases Nat.eq_or_lt_of_le bound with rfl | below
  · exact_mod_cast round_two_zpow 24
  have positive' : (0 : ℚ) < n := by exact_mod_cast positive
  have below' : (n : ℚ) < 2 ^ 24 := by exact_mod_cast below
  refine le_antisymm ?_ ?_
  · exact_mod_cast round_le_of_le (n := n) positive' below'.le le_rfl
  · exact_mod_cast le_round_of_le (n := n) positive' below' le_rfl

theorem nearestEven_le_iff {s : ℤ} : nearestEven x ≤ s ↔ x < s + 1 / 2 ∨ x = s + 1 / 2 ∧ 2 ∣ s := by
  have low := Int.floor_le x
  have high := Int.lt_floor_add_one x
  rcases Int.lt_trichotomy ⌊x⌋ s with below | rfl | above
  · have next : (⌊x⌋ : ℚ) + 1 ≤ s := by exact_mod_cast below
    refine iff_of_true ?_ (.inl (by linarith))
    exact nearestEven_le_of_le (by linarith)
  · unfold nearestEven
    split_ifs with less more even
    · exact iff_of_true le_rfl (.inl (by linarith))
    · exact iff_of_false (by omega) (by rintro (other | ⟨other, _⟩) <;> linarith)
    · exact iff_of_true le_rfl (.inr ⟨by linarith, even⟩)
    · exact iff_of_false (by omega) (by rintro (other | ⟨_, other⟩) <;> [linarith; exact even other])
  · have next : (s : ℚ) + 1 ≤ ⌊x⌋ := by exact_mod_cast above
    refine iff_of_false ?_ (by rintro (other | ⟨other, _⟩) <;> linarith)
    have := floor_le_nearestEven x
    omega

theorem round_le_two_zpow {e : ℤ} (positive : 0 < x) (upper : x ≤ 2 ^ e) : round x ≤ 2 ^ e := by
  rcases upper.eq_or_lt with rfl | below
  · rw [round_two_zpow]
  obtain ⟨log, lower, _, place⟩ := exists_binade positive
  have less : log < e := (zpow_lt_zpow_iff_right₀ (by norm_num)).mp (lower.trans_lt below)
  obtain ⟨d, rfl⟩ : ∃ d : ℕ, e = log + d := ⟨(e - log).toNat, by omega⟩
  have places : ((2 ^ (23 + d) : ℤ) : ℚ) * 2 ^ (log - 23) = 2 ^ (log + d) := by
    push_cast
    rw [← zpow_natCast, ← zpow_add₀ (by norm_num)]
    congr 1
    push_cast
    ring
  rw [← places] at upper ⊢
  rw [round, place]
  refine mul_le_mul_of_nonneg_right (Int.cast_le.mpr (nearestEven_le_of_le ?_)) (zpow_nonneg (by norm_num) _)
  rwa [div_le_iff₀ (zpow_pos (by norm_num) _)]

/-- A number is rounded to at most a given float if it lies below the middle between this and the next. In
the middle the float with the even significand is taken. -/
theorem round_le_iff {s e : ℤ} (positive : 0 < x) (least : 2 ^ 23 ≤ s) (most : s < 2 ^ 24) :
    round x ≤ s * 2 ^ (e - 23) ↔
      x < (s + 1 / 2) * 2 ^ (e - 23) ∨ x = (s + 1 / 2) * 2 ^ (e - 23) ∧ 2 ∣ s := by
  obtain ⟨log, lower, upper, place⟩ := exists_binade positive
  have unit : (0 : ℚ) < 2 ^ (e - 23) := zpow_pos (by norm_num) _
  have floats : (2 : ℚ) ^ e ≤ s * 2 ^ (e - 23) := by
    rw [← leading_places]
    exact mul_le_mul_of_nonneg_right (Int.cast_le.mpr least) unit.le
  rcases lt_trichotomy log e with below | rfl | above
  · have less : x < 2 ^ e := upper.trans_le (zpow_le_zpow_right₀ (by norm_num) below)
    have middle : (s : ℚ) * 2 ^ (e - 23) < (s + 1 / 2) * 2 ^ (e - 23) :=
      mul_lt_mul_of_pos_right (by linarith) unit
    exact iff_of_true ((round_le_two_zpow positive less.le).trans floats) (.inl (by linarith))
  · rw [round, place, mul_le_mul_iff_of_pos_right unit, Int.cast_le, nearestEven_le_iff, div_lt_iff₀ unit,
      div_eq_iff unit.ne']
  · have next : ((2 ^ 24 : ℤ) : ℚ) * 2 ^ (e - 23) ≤ 2 ^ log := by
      have leading := leading_places (e + 1)
      rw [show e + 1 - 23 = 1 + (e - 23) by ring, zpow_add₀ (by norm_num)] at leading
      calc ((2 ^ 24 : ℤ) : ℚ) * 2 ^ (e - 23) = 2 ^ (e + 1) := by rw [← leading]; push_cast; ring
        _ ≤ 2 ^ log := zpow_le_zpow_right₀ (by norm_num) above
    have step : ((s + 1 : ℤ) : ℚ) * 2 ^ (e - 23) ≤ 2 ^ log :=
      (mul_le_mul_of_nonneg_right (Int.cast_le.mpr (by omega)) unit.le).trans next
    have rounded : (2 : ℚ) ^ log ≤ round x := by
      rw [← leading_places] at lower ⊢
      exact places_le_round place lower
    push_cast at step
    refine iff_of_false ?_ ?_
    · intro small
      nlinarith
    · rintro (other | ⟨other, _⟩) <;> nlinarith

/-- The middle between a natural number and the next float. -/
def halfway (k : ℕ) : ℚ := k + 2 ^ Nat.log 2 k / 2 ^ 24

def RoundsBelow (x : ℚ) (k : ℕ) : Prop := x < halfway k ∨ x = halfway k ∧ (k < 2 ^ 23 ∨ 2 ∣ k)

theorem round_le_natCast_iff {k : ℕ} (positive : 0 < x) (some : 0 < k) (small : k ≤ 2 ^ 24) :
    round x ≤ k ↔ RoundsBelow x k := by
  have scale {s : ℤ} (number : (s : ℚ) * 2 ^ ((Nat.log 2 k : ℤ) - 23) = k) :
      ((s : ℚ) + 1 / 2) * 2 ^ ((Nat.log 2 k : ℤ) - 23) = halfway k := by
    rw [add_mul, number, halfway, zpow_sub₀ (by norm_num), zpow_natCast]
    norm_num
    ring
  rcases small.eq_or_lt with rfl | less
  · have log : Nat.log 2 (2 ^ 24) = 24 := Nat.log_pow (by norm_num) 24
    have number : ((2 ^ 23 : ℤ) : ℚ) * 2 ^ ((Nat.log 2 (2 ^ 24) : ℤ) - 23) = (2 ^ 24 : ℕ) := by
      rw [log]
      norm_num
    rw [RoundsBelow, ← scale number, ← number, round_le_iff positive (by norm_num) (by norm_num)]
    simp
  · have log : Nat.log 2 k < 24 := Nat.log_lt_of_lt_pow some.ne' less
    have number : ((k * 2 ^ (23 - Nat.log 2 k) : ℤ) : ℚ) * 2 ^ ((Nat.log 2 k : ℤ) - 23) = k := by
      have places := integer_of_places (show (Nat.log 2 k : ℤ) ≤ 23 by omega) k
      rwa [show ((23 - (Nat.log 2 k : ℤ)).toNat) = 23 - Nat.log 2 k by omega] at places
    have binade : 2 ^ Nat.log 2 k * 2 ^ (23 - Nat.log 2 k) = 2 ^ 23 := by
      rw [← pow_add, Nat.add_sub_cancel' (by omega)]
    have least : 2 ^ 23 ≤ k * 2 ^ (23 - Nat.log 2 k) :=
      binade.ge.trans (Nat.mul_le_mul_right _ (Nat.pow_log_le_self 2 some.ne'))
    have most : k * 2 ^ (23 - Nat.log 2 k) < 2 ^ 24 := by
      have below := Nat.mul_lt_mul_of_pos_right (Nat.lt_pow_succ_log_self (b := 2) (by norm_num) k)
        (show 0 < 2 ^ (23 - Nat.log 2 k) by positivity)
      rw [Nat.pow_succ, Nat.mul_right_comm, binade] at below
      omega
    have even : (2 : ℤ) ∣ k * 2 ^ (23 - Nat.log 2 k) ↔ k < 2 ^ 23 ∨ 2 ∣ k := by
      rcases Nat.lt_or_ge (Nat.log 2 k) 23 with early | last
      · obtain ⟨d, isD⟩ : ∃ d, 23 - Nat.log 2 k = d + 1 := ⟨22 - Nat.log 2 k, by omega⟩
        have below : k < 2 ^ 23 := Nat.lt_pow_of_log_lt (by norm_num) early
        rw [isD, pow_succ]
        exact iff_of_true (Dvd.intro_left (k * 2 ^ d : ℤ) (by ring)) (.inl below)
      · have above : ¬ k < 2 ^ 23 := fun below => by
          have := Nat.log_lt_of_lt_pow some.ne' below
          omega
        rw [show 23 - Nat.log 2 k = 0 by omega, pow_zero, mul_one, or_iff_right above]
        norm_cast
    rw [RoundsBelow, ← scale number, ← even]
    nth_rewrite 1 [← number]
    exact round_le_iff positive (by exact_mod_cast least) (by exact_mod_cast most)

/-- Above `2 ^ 24` every second integer is skipped. -/
theorem round_le_of_le_succ (positive : 0 < x) (upper : round x ≤ 2 ^ 24 + 1) : round x ≤ 2 ^ 24 := by
  rcases le_or_gt x (2 ^ 24) with small | large
  · exact_mod_cast round_le_two_zpow (e := 24) positive (by exact_mod_cast small)
  obtain ⟨e, _, above, place⟩ := exists_binade positive
  have exponent : 24 < e + 1 := by
    have less : (2 : ℚ) ^ (24 : ℤ) < 2 ^ (e + 1) := lt_trans (by exact_mod_cast large) above
    exact (zpow_lt_zpow_iff_right₀ (by norm_num)).mp less
  obtain ⟨d, rfl⟩ : ∃ d : ℕ, e = 24 + d := ⟨(e - 24).toNat, by omega⟩
  obtain ⟨places, isPlaces⟩ : ∃ places : ℤ, places = nearestEven (x / ulp x) := ⟨_, rfl⟩
  have even : round x = ((2 * (places * 2 ^ d) : ℤ) : ℚ) := by
    rw [round, ← isPlaces, place, show (24 + (d : ℤ) - 23) = 1 + d by ring, zpow_add₀ (by norm_num), zpow_natCast]
    push_cast
    ring
  rw [even] at upper ⊢
  have whole : 2 * (places * 2 ^ d) ≤ (2 ^ 24 + 1 : ℤ) := by exact_mod_cast upper
  have less : 2 * (places * 2 ^ d) ≤ (2 ^ 24 : ℤ) := by omega
  exact_mod_cast less

/-- The quotient of two integers in single precision, rounded up. -/
def ceilQuotient (m b : ℕ) : ℕ := ⌈div (round m) (round b)⌉.toNat

theorem ceilQuotient_le_iff {m b k : ℕ} : ceilQuotient m b ≤ k ↔ div (round m) (round b) ≤ k := by
  rw [ceilQuotient, Int.toNat_le, Int.ceil_le, Int.cast_natCast]

theorem quotient_pos {m b : ℕ} (columns : 0 < m) (block : 0 < b) : 0 < round m / round b :=
  div_pos (round_pos (by exact_mod_cast columns)) (round_pos (by exact_mod_cast block))

theorem ceilQuotient_le_iff_roundsBelow {m b k : ℕ} (columns : 0 < m) (block : 0 < b) (some : 0 < k)
    (small : k ≤ 2 ^ 24) : ceilQuotient m b ≤ k ↔ RoundsBelow (round m / round b) k := by
  rw [ceilQuotient_le_iff, div, round_le_natCast_iff (quotient_pos columns block) some small]

theorem ceilQuotient_ne_succ {m b : ℕ} (columns : 0 < m) (block : 0 < b) : ceilQuotient m b ≠ 2 ^ 24 + 1 := by
  intro same
  have upper := ceilQuotient_le_iff.mp same.le
  have less : ceilQuotient m b ≤ 2 ^ 24 := by
    rw [ceilQuotient_le_iff]
    exact_mod_cast round_le_of_le_succ (quotient_pos columns block) (by exact_mod_cast upper)
  omega

theorem one_le_ceilQuotient {m b : ℕ} (columns : 0 < m) (block : 0 < b) : 1 ≤ ceilQuotient m b := by
  have quotient : 0 < div (round m) (round b) := round_pos (quotient_pos columns block)
  have ceiling : 0 < ⌈div (round m) (round b)⌉ := Int.ceil_pos.mpr quotient
  unfold ceilQuotient
  omega

end CactusDB.Library.Binary32
