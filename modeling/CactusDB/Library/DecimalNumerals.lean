import CactusDB.Library.Numerals
import Mathlib.Tactic.Linarith

/-! Decimal numerals with a sign, a fraction and an exponent, and the number that stands at the beginning
of a text. -/

namespace CactusDB.Library.DecimalNumerals
open TextScan Numerals List

def readFraction : Text → Text × Text
  | '.' :: rest => (rest.takeWhile Char.isDigit, rest.dropWhile Char.isDigit)
  | text => ([], text)

def readPower (text : Text) : Int :=
  let signed := readSign text
  applySign signed.1 (Nat.ofDigitChars 10 (signed.2.takeWhile Char.isDigit) 0 : Int)

/-- The exponent behind its letter. A letter without digits counts for nothing. -/
def readExponent : Text → Int
  | 'e' :: rest => readPower rest
  | 'E' :: rest => readPower rest
  | _ => 0

def scaled (negative : Bool) (digits : Text) (places : Nat) (exponent : Int) : ℚ :=
  applySign negative (Nat.ofDigitChars 10 digits 0 : ℚ) * 10 ^ (exponent - places)

def readDecimal (text : Text) : Option ℚ :=
  let signed := readSign (text.dropWhile isSpace)
  let whole := signed.2.takeWhile Char.isDigit
  let fraction := readFraction (signed.2.dropWhile Char.isDigit)
  if (whole ++ fraction.1).isEmpty then none
  else some (scaled signed.1 (whole ++ fraction.1) fraction.1.length (readExponent fraction.2))

inductive Sign where
  | none
  | plus
  | minus
  deriving DecidableEq

def Sign.text : Sign → Text
  | none => []
  | plus => ['+']
  | minus => ['-']

def Sign.isNegative : Sign → Bool
  | minus => true
  | _ => false

def areDigits (text : Text) : Prop := ∀ c ∈ text, c.isDigit = true

instance (text : Text) : Decidable (areDigits text) := decidable_of_iff (text.all Char.isDigit = true) all_eq_true

structure Exponent where
  capital : Bool
  sign : Sign
  digits : Text
  plain : areDigits digits
  present : digits ≠ []

def Exponent.print (exponent : Exponent) : Text :=
  (if exponent.capital then 'E' else 'e') :: (exponent.sign.text ++ exponent.digits)

def Exponent.value (exponent : Exponent) : Int :=
  applySign exponent.sign.isNegative (Nat.ofDigitChars 10 exponent.digits 0 : Int)

structure DecimalNumeral where
  sign : Sign
  whole : Text
  fraction : Option Text
  exponent : Option Exponent
  wholePlain : areDigits whole
  fractionPlain : areDigits (fraction.getD [])
  present : whole ++ fraction.getD [] ≠ []

namespace DecimalNumeral

def fractionText : Option Text → Text
  | none => []
  | some digits => '.' :: digits

def exponentText : Option Exponent → Text
  | none => []
  | some exponent => exponent.print

def unsigned (numeral : DecimalNumeral) : Text :=
  numeral.whole ++ (fractionText numeral.fraction ++ exponentText numeral.exponent)

def print (numeral : DecimalNumeral) : Text := numeral.sign.text ++ numeral.unsigned

def number (numeral : DecimalNumeral) : ℚ :=
  scaled numeral.sign.isNegative (numeral.whole ++ numeral.fraction.getD []) (numeral.fraction.getD []).length
    ((numeral.exponent.map Exponent.value).getD 0)

end DecimalNumeral

theorem digit_value {c : Char} (digit : c.isDigit = true) : c.toNat - '0'.toNat = 0 ↔ c = '0' := by
  simp only [Char.isDigit, Bool.and_eq_true, decide_eq_true_eq] at digit
  have lower : '0'.toNat ≤ c.toNat := digit.1
  constructor
  · intro none
    apply Char.toNat_inj.mp
    omega
  · rintro rfl
    rfl

theorem ofDigitChars_eq_zero_iff {digits : Text} (plain : areDigits digits) :
    Nat.ofDigitChars 10 digits 0 = 0 ↔ ∀ c ∈ digits, c = '0' := by
  induction digits with
  | nil => simp
  | cons c rest ih =>
    have first := digit_value (plain c mem_cons_self)
    have later := ih fun d mem => plain d (mem_cons_of_mem c mem)
    rw [Nat.ofDigitChars_cons, Nat.ofDigitChars_eq_ofDigitChars_zero, Nat.add_eq_zero_iff, Nat.mul_eq_zero, later,
      forall_mem_cons, Nat.mul_zero, Nat.zero_add, first]
    simp

/-- Digits behind the last place leave a number as it is exactly when they are worth nothing. -/
theorem scaled_append_eq_iff (negative : Bool) (digits last : Text) (places : Nat) (exponent : Int) :
    scaled negative digits places exponent = scaled negative (digits ++ last) (places + last.length) exponent ↔
      Nat.ofDigitChars 10 last 0 = 0 := by
  have unit : (10 : ℚ) ^ (exponent - (places + last.length : Nat)) ≠ 0 := zpow_ne_zero _ (by norm_num)
  have power : (10 : ℚ) ^ (exponent - places) =
      10 ^ last.length * 10 ^ (exponent - (places + last.length : Nat)) := by
    rw [← zpow_natCast, ← zpow_add₀ (by norm_num)]
    congr 1
    omega
  have value : (Nat.ofDigitChars 10 (digits ++ last) 0 : ℚ) =
      10 ^ last.length * (Nat.ofDigitChars 10 digits 0 : ℚ) + (Nat.ofDigitChars 10 last 0 : ℚ) := by
    rw [Nat.ofDigitChars_append, Nat.ofDigitChars_eq_ofDigitChars_zero]
    push_cast
    rfl
  rw [scaled, scaled, power, value, ← mul_assoc, mul_left_inj' unit, ← Nat.cast_eq_zero (R := ℚ)]
  cases negative with
  | false =>
    simp only [applySign, Bool.false_eq_true, if_false]
    constructor <;> intro same <;> linarith
  | true =>
    simp only [applySign, if_true]
    constructor <;> intro same <;> linarith

open DecimalNumeral

section

def endsNumber (back : Text) : Prop := ∀ c ∈ back.head?, c.isDigit = false ∧ c ≠ '.' ∧ c ≠ 'e' ∧ c ≠ 'E'

def startsPlain (back : Text) : Prop := ∀ c ∈ back.head?, c.isDigit = false

variable {back : Text}

theorem takeWhile_digits_append {digits : Text} (plain : areDigits digits) (stops : startsPlain back) :
    (digits ++ back).takeWhile Char.isDigit = digits := by
  rw [takeWhile_append_of_pos plain]
  cases back with
  | nil => simp
  | cons c rest => simp [stops c rfl]

theorem dropWhile_digits_append {digits : Text} (plain : areDigits digits) (stops : startsPlain back) :
    (digits ++ back).dropWhile Char.isDigit = back := by
  rw [dropWhile_append_of_pos plain]
  cases back with
  | nil => rfl
  | cons c rest => simp [stops c rfl]

theorem readSign_text (sign : Sign) {rest : Text} (other : ∀ c ∈ rest.head?, c ≠ '-' ∧ c ≠ '+') :
    readSign (sign.text ++ rest) = (sign.isNegative, rest) := by
  cases sign with
  | minus | plus => rfl
  | none =>
    cases rest with
    | nil => rfl
    | cons c rest =>
      have first := other c rfl
      simp only [Sign.text, nil_append]
      unfold readSign
      split
      · next same => exact absurd (List.cons.inj same).1 first.1
      · next same => exact absurd (List.cons.inj same).1 first.2
      · rfl

theorem not_sign_of_isDigit {c : Char} (digit : c.isDigit = true) : c ≠ '-' ∧ c ≠ '+' := by
  constructor
  · rintro rfl
    exact absurd digit (by decide)
  · rintro rfl
    exact absurd digit (by decide)

theorem startsPlain_of_endsNumber (ends : endsNumber back) : startsPlain back :=
  fun c first => (ends c first).1

theorem readPower_print (exponent : Exponent) (ends : endsNumber back) :
    readPower (exponent.sign.text ++ exponent.digits ++ back) = exponent.value := by
  have other : ∀ c ∈ (exponent.digits ++ back).head?, c ≠ '-' ∧ c ≠ '+' := by
    intro c first
    obtain ⟨d, rest, shape⟩ := exists_cons_of_ne_nil exponent.present
    rw [shape] at first
    cases first
    exact not_sign_of_isDigit (exponent.plain _ (by simp [shape]))
  rw [readPower, append_assoc, readSign_text _ other]
  simp only [takeWhile_digits_append exponent.plain (startsPlain_of_endsNumber ends)]
  rfl

variable (exponent : Option Exponent)

theorem readExponent_print (ends : endsNumber back) :
    readExponent (exponentText exponent ++ back) = (exponent.map Exponent.value).getD 0 := by
  cases exponent with
  | none =>
    simp only [exponentText, nil_append, Option.map_none, Option.getD_none]
    unfold readExponent
    split
    · exact absurd rfl (ends 'e' rfl).2.2.1
    · exact absurd rfl (ends 'E' rfl).2.2.2
    · rfl
  | some exponent =>
    have read := readPower_print exponent ends
    rw [append_assoc] at read
    simp only [exponentText, Exponent.print, cons_append, append_assoc, Option.map_some,
      Option.getD_some]
    cases exponent.capital with
    | false | true => exact read

/-- The exponent, or what follows, begins with neither a digit nor a point. -/
theorem exponentText_starts (ends : endsNumber back) :
    ∀ c ∈ (exponentText exponent ++ back).head?, c.isDigit = false ∧ c ≠ '.' := by
  intro c first
  cases exponent with
  | none => exact ⟨(ends c first).1, (ends c first).2.1⟩
  | some exponent =>
    simp only [exponentText, Exponent.print, cons_append, head?_cons] at first
    cases first
    cases exponent.capital <;> decide

theorem readFraction_print {fraction : Option Text} (plain : areDigits (fraction.getD []))
    (stops : ∀ c ∈ back.head?, c.isDigit = false ∧ c ≠ '.') :
    readFraction (fractionText fraction ++ back) = (fraction.getD [], back) := by
  have starts : startsPlain back := fun c first => (stops c first).1
  cases fraction with
  | none =>
    simp only [fractionText, nil_append, Option.getD_none]
    unfold readFraction
    split
    · exact absurd rfl (stops '.' rfl).2
    · rfl
  | some digits =>
    have digitsPlain : areDigits digits := plain
    simp only [fractionText, cons_append, readFraction, Option.getD_some]
    rw [takeWhile_digits_append digitsPlain starts, dropWhile_digits_append digitsPlain starts]

variable (numeral : DecimalNumeral)

theorem unsigned_first (back : Text) : ∀ c ∈ (numeral.unsigned ++ back).head?, c.isDigit = true ∨ c = '.' := by
  intro c first
  unfold unsigned at first
  cases shape : numeral.whole with
  | cons d rest =>
    rw [shape] at first
    cases first
    exact .inl (numeral.wholePlain _ (by simp [shape]))
  | nil =>
    cases behind : numeral.fraction with
    | none =>
      have present := numeral.present
      simp [shape, behind] at present
    | some digits =>
      rw [shape, behind] at first
      cases first
      exact .inr rfl

/-- A numeral is read back as its number, whatever stands behind it. -/
theorem readDecimal_print (ends : endsNumber back) : readDecimal (numeral.print ++ back) = some numeral.number := by
  have stops := exponentText_starts numeral.exponent ends
  have wholeStops : startsPlain (fractionText numeral.fraction ++
      (exponentText numeral.exponent ++ back)) := by
    intro c first
    cases behind : numeral.fraction with
    | none =>
      rw [behind] at first
      exact (stops c first).1
    | some digits =>
      rw [behind] at first
      cases first
      decide
  have signFree : ∀ c ∈ (numeral.unsigned ++ back).head?, c ≠ '-' ∧ c ≠ '+' := by
    intro c first
    rcases unsigned_first numeral back c first with digit | rfl
    · exact not_sign_of_isDigit digit
    · decide
  have noSpace : (numeral.sign.text ++ (numeral.unsigned ++ back)).dropWhile isSpace =
      numeral.sign.text ++ (numeral.unsigned ++ back) := by
    cases numeral.sign with
    | plus | minus => rfl
    | none =>
      cases shape : numeral.unsigned ++ back with
      | nil => rfl
      | cons c rest =>
        have space : isSpace c = false := by
          rcases unsigned_first numeral back c (by rw [shape]; rfl) with digit | rfl
          · exact not_space_of_isDigit digit
          · decide
        simp [Sign.text, space]
  have unsigned : numeral.unsigned ++ back = numeral.whole ++ (fractionText numeral.fraction ++
      (exponentText numeral.exponent ++ back)) := by
    simp [unsigned]
  rw [readDecimal, print, append_assoc, noSpace, readSign_text _ signFree, unsigned]
  simp only [takeWhile_digits_append numeral.wholePlain wholeStops,
    dropWhile_digits_append numeral.wholePlain wholeStops, readFraction_print numeral.fractionPlain stops,
    readExponent_print numeral.exponent ends]
  rw [if_neg (by simpa [List.isEmpty_iff] using numeral.present)]
  rfl

theorem endsNumber_nil : endsNumber [] := by
  intro c first
  cases first

theorem readDecimal_numeral : readDecimal numeral.print = some numeral.number := by
  simpa using readDecimal_print numeral endsNumber_nil

end

example : readDecimal "-1.5e-3 ]".toList = some (-3 / 2000) := by decide +kernel

end CactusDB.Library.DecimalNumerals
