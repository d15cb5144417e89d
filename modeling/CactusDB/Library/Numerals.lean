import CactusDB.Library.TextScan
import Mathlib.Data.List.TakeWhile

/-! Decimal numerals inside texts. -/

namespace CactusDB.Library.Numerals
open TextScan

theorem isDigit_decimal {n : Nat} {c : Char} (mem : c ∈ decimal n) : c.isDigit = true :=
  Nat.isDigit_of_mem_toDigits (by decide) (by decide) mem

theorem decimal_injective {m n : Nat} (same : decimal m = decimal n) : m = n := by
  have values := congrArg (fun digits => Nat.ofDigitChars 10 digits 0) same
  simpa [decimal] using values

def endsPlain (text : Text) : Bool := (text.reverse.head?.map fun c => !c.isDigit).getD true

theorem takeWhile_digits {front : Text} (plain : endsPlain front = true) (n : Nat) :
    ((front ++ decimal n).reverse.takeWhile Char.isDigit) = (decimal n).reverse := by
  rw [List.reverse_append, List.takeWhile_append_of_pos fun c mem => isDigit_decimal (List.mem_reverse.mp mem)]
  have stops : front.reverse.takeWhile Char.isDigit = [] := by
    unfold endsPlain at plain
    cases back : front.reverse with
    | nil => rfl
    | cons c rest => simpa [back] using plain
  rw [stops, List.append_nil]

/-- A numeral behind a text that does not end in a digit can be told apart from it. -/
theorem append_decimal_injective {first second : Text} (firstPlain : endsPlain first = true)
    (secondPlain : endsPlain second = true) {m n : Nat} (same : first ++ decimal m = second ++ decimal n) :
    first = second ∧ m = n := by
  have digits : (decimal m).reverse = (decimal n).reverse := by
    rw [← takeWhile_digits firstPlain m, ← takeWhile_digits secondPlain n, same]
  have number := decimal_injective (List.reverse_injective digits)
  subst number
  exact ⟨List.append_cancel_right same, rfl⟩

def isSpace (c : Char) : Bool := c = ' ' || ('\t' ≤ c && c ≤ '\r')

def readSign : Text → Bool × Text
  | '-' :: rest => (true, rest)
  | '+' :: rest => (false, rest)
  | text => (false, text)

def applySign {α : Type} [Neg α] (negative : Bool) (value : α) : α := if negative then -value else value

/-- The whole number at the beginning of a text, behind white space; what follows it is not looked at. -/
def readInt (text : Text) : Option Int :=
  let signed := readSign (text.dropWhile isSpace)
  let digits := signed.2.takeWhile Char.isDigit
  if digits.isEmpty then none else some (applySign signed.1 (Nat.ofDigitChars 10 digits 0 : Int))

theorem not_space_of_isDigit {c : Char} (digit : c.isDigit = true) : isSpace c = false := by
  simp only [Char.isDigit, Bool.and_eq_true, decide_eq_true_eq] at digit
  have large : ¬ c ≤ '\r' := fun small => absurd (UInt32.le_trans digit.1 small) (by decide)
  have other : c ≠ ' ' := by
    rintro rfl
    exact absurd digit.1 (by decide)
  simp [isSpace, large, other]

theorem readSign_of_isDigit {c : Char} (digit : c.isDigit = true) (rest : Text) :
    readSign (c :: rest) = (false, c :: rest) := by
  unfold readSign
  split
  · next same =>
      cases same
      exact absurd digit (by decide)
  · next same =>
      cases same
      exact absurd digit (by decide)
  · rfl

theorem decimal_ne_nil (n : Nat) : decimal n ≠ [] := by
  unfold decimal
  exact Nat.toDigits_ne_nil

theorem readInt_decimal (n : Nat) : readInt (decimal n) = some (n : Int) := by
  obtain ⟨c, rest, shape⟩ := List.exists_cons_of_ne_nil (decimal_ne_nil n)
  have digits : ∀ d ∈ c :: rest, d.isDigit = true := fun d mem => isDigit_decimal (n := n) (shape ▸ mem)
  have first := digits c List.mem_cons_self
  have whole : (c :: rest).takeWhile Char.isDigit = c :: rest := List.takeWhile_eq_self_iff.mpr digits
  have value : Nat.ofDigitChars 10 (c :: rest) 0 = n := by
    rw [← shape]
    exact Nat.ofDigitChars_ten_toDigits
  rw [readInt, shape, List.dropWhile_cons_of_neg (by simp [not_space_of_isDigit first]), readSign_of_isDigit first]
  simp only [whole, value]
  rfl

end CactusDB.Library.Numerals
