import CactusDB.Library.Buffer
import CactusDB.Library.FixedWidth

/-! The bytes of a long decimal: the shortest two's complement that holds it, most significant byte first. -/

namespace CactusDB.Types.DecimalUtil
open Library Buffer FixedWidth List

structure Int128 where
  value : Int
  low : -2 ^ 127 ≤ value
  high : value < 2 ^ 127

def upper (value : Int) : Nat := (value / 2 ^ 64 % 2 ^ 64).toNat

def lower (value : Int) : Nat := (value % 2 ^ 64).toNat

def countLeadingZeros (word : Nat) : Nat := if word = 0 then 64 else 63 - word.log2

def nbits (value : Int) : Nat :=
  if upper value ≠ 0 then 128 - countLeadingZeros (upper value)
  else if lower value ≠ 0 then 64 - countLeadingZeros (lower value)
  else 0

/-- A negative number is replaced by its complement. -/
def getByteArrayLength (value : Int) : Nat := 1 + nbits (if value < 0 then -value - 1 else value) / 8

/-- A word in memory after its bytes have been swapped. -/
def big (word : Nat) : List Nat := (toBytes 8 word).reverse

def toByteArray (value : Int) (out : List Nat) : Nat × List Nat :=
  let length := getByteArrayLength value
  if length ≤ 8 then (length, overwrite out 0 (slice (big (lower value)) (8 - length) length))
  else
    let out := overwrite out 0 (slice (big (upper value)) (16 - length) (length - 8))
    (length, overwrite out (length - 8) (big (lower value)))

theorem countLeadingZeros_spec {word : Nat} (some : word ≠ 0) (small : word < 2 ^ 64) :
    ∃ top, countLeadingZeros word + (top + 1) = 64 ∧ (2 : Int) ^ top ≤ word ∧ (word : Int) < 2 ^ (top + 1) := by
  have top := (Nat.log2_lt some).mpr small
  refine ⟨word.log2, ?_, by exact_mod_cast Nat.log2_self_le some, by exact_mod_cast Nat.lt_log2_self⟩
  rw [countLeadingZeros, if_neg some]
  omega

theorem nbits_spec {magnitude : Int} (positive : 0 < magnitude) (small : magnitude < 2 ^ 128) :
    ∃ top, nbits magnitude = top + 1 ∧ 2 ^ top ≤ magnitude ∧ magnitude < 2 ^ (top + 1) := by
  have whole : magnitude = 2 ^ 64 * upper magnitude + lower magnitude := by
    unfold upper lower
    omega
  have lowerSmall : lower magnitude < 2 ^ 64 := by
    unfold lower
    omega
  unfold nbits
  by_cases some : upper magnitude ≠ 0
  · obtain ⟨top, zeros, least, greatest⟩ := countLeadingZeros_spec some (by unfold upper; omega)
    refine ⟨64 + top, by rw [if_pos some]; omega, ?_, ?_⟩
    · rw [pow_add]
      omega
    · rw [Nat.add_assoc, pow_add]
      omega
  · obtain ⟨top, zeros, least, greatest⟩ := countLeadingZeros_spec (by omega) lowerSmall
    refine ⟨top, by rw [if_neg some, if_pos (by omega)]; omega, by omega, by omega⟩

/-- The length is the least one whose range has the number. -/
theorem getByteArrayLength_le_iff (number : Int128) {count : Nat} (positive : 0 < count) :
    getByteArrayLength number.value ≤ count ↔ -2 ^ (8 * count - 1) ≤ number.value ∧
      number.value < 2 ^ (8 * count - 1) := by
  obtain ⟨value, low, high⟩ := number
  unfold getByteArrayLength
  dsimp only
  generalize same : (if value < 0 then -value - 1 else value) = magnitude
  have bounds : 0 ≤ magnitude ∧ magnitude < 2 ^ 127 := by
    split_ifs at same <;> omega
  have fits : (-2 ^ (8 * count - 1) ≤ value ∧ value < 2 ^ (8 * count - 1)) ↔ magnitude < 2 ^ (8 * count - 1) := by
    have power : (0 : Int) < 2 ^ (8 * count - 1) := pow_pos two_pos _
    split_ifs at same <;> omega
  rw [fits]
  rcases bounds.1.eq_or_lt with zero | some
  · rw [← zero]
    exact iff_of_true (by show 1 + 0 / 8 ≤ count; omega) (pow_pos two_pos _)
  · obtain ⟨top, bits, least, greatest⟩ := nbits_spec some (by omega)
    rw [bits]
    constructor
    · intro short
      exact greatest.trans_le (pow_le_pow_right₀ one_le_two (by omega))
    · intro less
      have below := (pow_lt_pow_iff_right₀ one_lt_two).mp (least.trans_lt less)
      omega

theorem slice_big {count : Nat} (few : count ≤ 8) (word : Nat) :
    slice (big word) (8 - count) count = (toBytes count word).reverse := by
  have parts := toBytes_add count (8 - count) word
  rw [Nat.add_sub_cancel' few] at parts
  have shape : big word = (toBytes (8 - count)
    (word / 256 ^ count)).reverse ++ ((toBytes count word).reverse ++ []) := by
    rw [big, parts, reverse_append, append_nil]
  rw [shape]
  refine slice_at ?_ ?_
  · rw [length_reverse, length_toBytes]
  · rw [length_reverse, length_toBytes]

theorem overwrite_behind (front rest bytes : List Nat) :
    overwrite (front ++ rest) front.length bytes = front ++ (bytes ++ rest.drop bytes.length) := by
  simp [overwrite]

theorem toByteArray_eq (value : Int) (out : List Nat) (room : getByteArrayLength value ≤ 16) :
    toByteArray value out = (getByteArrayLength value,
      (toBytes (getByteArrayLength value) (value % 2 ^ 128).toNat).reverse ++ out.drop (getByteArrayLength value)) := by
  have low : lower value = (value % 2 ^ 128).toNat % 256 ^ 8 := by
    unfold lower
    omega
  have high : upper value = (value % 2 ^ 128).toNat / 256 ^ 8 := by
    unfold upper
    omega
  unfold toByteArray
  generalize getByteArrayLength value = length at room ⊢
  generalize (value % 2 ^ 128).toNat = word at low high
  dsimp only
  split_ifs with short
  · rw [slice_big short, low, toBytes_mod short]
    exact congrArg (Prod.mk length) (by simpa using overwrite_behind [] out (toBytes length word).reverse)
  · obtain ⟨more, rfl⟩ : ∃ more, length = 8 + more := ⟨length - 8, by omega⟩
    have shift : 16 - (8 + more) = 8 - more := by omega
    have front := overwrite_behind [] out (toBytes more (word / 256 ^ 8)).reverse
    have back := overwrite_behind (toBytes more (word / 256 ^ 8)).reverse (out.drop more) (toBytes 8 word).reverse
    simp only [nil_append, length_nil, length_reverse, length_toBytes, drop_drop] at front back
    rw [Nat.add_sub_cancel_left, shift, slice_big (by omega), high, front, low, big, toBytes_mod (Nat.le_refl 8), back,
      toBytes_add, reverse_append, append_assoc, Nat.add_comm 8]

def twosComplement (bytes : List Nat) : Int := signed (8 * bytes.length) (ofBytes bytes.reverse)

/-- What is written is the two's complement of the number, and no shorter one has its value. -/
theorem toByteArray_minimal (number : Int128) (out : List Nat) :
    ∃ bytes, toByteArray number.value out = (bytes.length, bytes ++ out.drop bytes.length) ∧
      bytes.length = getByteArrayLength number.value ∧ (∀ byte ∈ bytes, byte < 256) ∧
        twosComplement bytes = number.value ∧
      ∀ other ≠ [], twosComplement other = number.value → bytes.length ≤ other.length := by
  have room := (getByteArrayLength_le_iff number (by decide : 0 < 16)).mpr ⟨number.low, number.high⟩
  have positive : 0 < getByteArrayLength number.value := by
    unfold getByteArrayLength
    omega
  have fits := (getByteArrayLength_le_iff number positive).mp (Nat.le_refl _)
  refine ⟨(toBytes (getByteArrayLength number.value) (number.value % 2 ^ 128).toNat).reverse, ?_, ?_, ?_, ?_, ?_⟩
  · rw [length_reverse, length_toBytes]
    exact toByteArray_eq number.value out room
  · rw [length_reverse, length_toBytes]
  · exact fun byte mem => lt_of_mem_toBytes (mem_reverse.mp mem)
  · have power : ((256 : Nat) : Int) ^ getByteArrayLength number.value = 2 ^ (8 * getByteArrayLength number.value) := by
      rw [pow_mul]
      rfl
    have word : ((number.value % 2 ^ 128).toNat : Int) = number.value % 2 ^ 128 := by omega
    rw [twosComplement, length_reverse, length_toBytes, reverse_reverse, ofBytes_toBytes, Int.natCast_emod,
      Int.natCast_pow, power, word, signed_emod (Nat.le_refl _), signed_emod (by omega),
      signed_of_fits (by omega) fits.1 fits.2]
  · intro other present same
    rw [length_reverse, length_toBytes, getByteArrayLength_le_iff number (length_pos_iff.mpr present), ← same]
    exact signed_bounds (by have := length_pos_iff.mpr present; omega) _

end CactusDB.Types.DecimalUtil
