import Mathlib.Algebra.Group.Nat.Even
import Mathlib.Data.Nat.Log
import Mathlib.Tactic.Common

/-! Powers of two. -/

namespace CactusDB.Common.BitUtil

/-- The least power of two that is not below a size. Sizes are at most `2 ^ 63`. -/
def nextPowerOfTwo (size : Nat) : Nat :=
  if size = 0 then 0
  else
    let lower := 2 ^ size.log2
    if lower = size then size else 2 * lower

theorem nextPowerOfTwo_pow (bits : Nat) : nextPowerOfTwo (2 ^ bits) = 2 ^ bits := by
  simp [nextPowerOfTwo, Nat.log2_two_pow]

theorem exists_nextPowerOfTwo {size : Nat} (positive : 0 < size) : ∃ bits, nextPowerOfTwo size = 2 ^ bits := by
  unfold nextPowerOfTwo
  rw [if_neg (Nat.ne_of_gt positive)]
  by_cases exact : 2 ^ size.log2 = size
  · exact ⟨size.log2, by simp [exact]⟩
  · exact ⟨size.log2 + 1, by simp [exact, Nat.pow_succ, Nat.mul_comm]⟩

theorem le_nextPowerOfTwo (size : Nat) : size ≤ nextPowerOfTwo size := by
  unfold nextPowerOfTwo
  have upper : size < 2 ^ (size.log2 + 1) := Nat.lt_log2_self
  rw [Nat.pow_succ] at upper
  split
  · omega
  · dsimp only
    split <;> omega

end CactusDB.Common.BitUtil
