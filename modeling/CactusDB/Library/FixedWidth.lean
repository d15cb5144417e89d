import Mathlib.Algebra.Order.Ring.Int
import Mathlib.Tactic.Ring

/-! Numbers of a fixed width and their bytes. -/

namespace CactusDB.Library.FixedWidth

def signed (width : Nat) (value : Int) : Int := (value + 2 ^ (width - 1)) % 2 ^ width - 2 ^ (width - 1)

theorem signed_eq_add (width : Nat) (value : Int) : ∃ turns, signed width value = value + 2 ^ width * turns := by
  refine ⟨-((value + 2 ^ (width - 1)) / 2 ^ width), ?_⟩
  have whole := Int.mul_ediv_add_emod (value + 2 ^ (width - 1)) (2 ^ width)
  unfold signed
  rw [Int.mul_neg]
  omega

theorem signed_congr {width : Nat} {value other : Int} (turns : Int) (same : value = other + 2 ^ width * turns) :
    signed width value = signed width other := by
  unfold signed
  have shifted : value + 2 ^ (width - 1) = other + 2 ^ (width - 1) + 2 ^ width * turns := by omega
  rw [shifted, Int.add_mul_emod_self_left]

theorem two_pow_pred {width : Nat} (positive : 0 < width) : (2 : Int) ^ width = 2 ^ (width - 1) + 2 ^ (width - 1) := by
  obtain ⟨bits, rfl⟩ : ∃ bits, width = bits + 1 := ⟨width - 1, by omega⟩
  rw [Nat.add_sub_cancel]
  ring

theorem signed_of_fits {width : Nat} (positive : 0 < width) {value : Int} (low : -2 ^ (width - 1) ≤ value)
    (high : value < 2 ^ (width - 1)) : signed width value = value := by
  have double := two_pow_pred positive
  unfold signed
  rw [Int.emod_eq_of_lt (by omega) (by omega)]
  omega

theorem signed_natCast {width value : Nat} (positive : 0 < width) (small : value < 2 ^ (width - 1)) :
    signed width (value : Int) = value := by
  have power : (0 : Int) < 2 ^ (width - 1) := pow_pos two_pos _
  have high : (value : Int) < 2 ^ (width - 1) := by exact_mod_cast small
  exact signed_of_fits positive (by omega) high

/-- A sum can be cut off before or after it is formed. -/
theorem signed_signed_add (width : Nat) (value other : Int) :
    signed width (signed width value + other) = signed width (value + other) := by
  obtain ⟨turns, same⟩ := signed_eq_add width value
  exact signed_congr turns (by rw [same]; omega)

theorem signed_emod {width wide : Nat} (less : width ≤ wide) (value : Int) :
    signed width (value % 2 ^ wide) = signed width value := by
  refine signed_congr (-(2 ^ (wide - width) * (value / 2 ^ wide))) ?_
  have whole := Int.mul_ediv_add_emod value (2 ^ wide)
  have split : (2 : Int) ^ wide = 2 ^ width * 2 ^ (wide - width) := by rw [← pow_add, Nat.add_sub_cancel' less]
  rw [Int.mul_neg, ← Int.mul_assoc, ← split]
  omega

theorem signed_bounds {width : Nat} (positive : 0 < width) (value : Int) :
    -2 ^ (width - 1) ≤ signed width value ∧ signed width value < 2 ^ (width - 1) := by
  have double := two_pow_pred positive
  have power : (0 : Int) < 2 ^ width := pow_pos two_pos width
  have low := Int.emod_nonneg (value + 2 ^ (width - 1)) power.ne'
  have high := Int.emod_lt_of_pos (value + 2 ^ (width - 1)) power
  unfold signed
  omega

def toBytes : Nat → Nat → List Nat
  | 0, _ => []
  | count + 1, value => value % 256 :: toBytes count (value / 256)

def ofBytes : List Nat → Nat
  | [] => 0
  | byte :: rest => byte + 256 * ofBytes rest

@[simp] theorem length_toBytes (count value : Nat) : (toBytes count value).length = count := by
  induction count generalizing value with
  | zero => rfl
  | succ count ih => rw [toBytes, List.length_cons, ih]

theorem ofBytes_toBytes (count value : Nat) : ofBytes (toBytes count value) = value % 256 ^ count := by
  induction count generalizing value with
  | zero => rw [toBytes, ofBytes, Nat.pow_zero, Nat.mod_one]
  | succ count ih => rw [toBytes, ofBytes, ih, Nat.pow_succ', Nat.mod_mul]

theorem lt_of_mem_toBytes {count value byte : Nat} (mem : byte ∈ toBytes count value) : byte < 256 := by
  induction count generalizing value with
  | zero => cases mem
  | succ count ih =>
    rcases List.mem_cons.mp mem with rfl | later
    · exact Nat.mod_lt _ (by decide)
    · exact ih later

theorem toBytes_add (count more value : Nat) :
    toBytes (count + more) value = toBytes count value ++ toBytes more (value / 256 ^ count) := by
  induction count generalizing value with
  | zero => rw [Nat.zero_add, pow_zero, Nat.div_one, toBytes, List.nil_append]
  | succ count ih =>
    rw [Nat.succ_add, toBytes, toBytes, ih, Nat.div_div_eq_div_mul, ← Nat.pow_succ', List.cons_append]

theorem toBytes_mod {count wide : Nat} (less : count ≤ wide) (value : Nat) :
    toBytes count (value % 256 ^ wide) = toBytes count value := by
  induction count generalizing wide value with
  | zero => rfl
  | succ count ih =>
    obtain ⟨wide, rfl⟩ := Nat.exists_eq_succ_of_ne_zero (Nat.ne_of_gt (Nat.lt_of_lt_of_le (Nat.succ_pos count) less))
    rw [toBytes, toBytes, Nat.pow_succ', Nat.mod_mul_right_mod, Nat.mod_mul_right_div_self,
      ih (Nat.le_of_succ_le_succ less)]

end CactusDB.Library.FixedWidth
