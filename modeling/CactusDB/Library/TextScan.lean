import Mathlib.Algebra.Order.Ring.Nat
import Mathlib.Data.List.Infix

/-! Texts as character lists, with deterministic patterns over them. A pattern looks at the
start of a text and says how many characters it takes there. Searching and replacing scan the
text from the left, and a scan goes on right after the characters a match has taken. -/

namespace CactusDB.Library.TextScan

abbrev Text := List Char

/-- How many characters a pattern takes at the start of a text, `none` where it does not match. -/
abbrev Pattern := Text → Option Nat

def literal (word : Text) : Pattern := fun text =>
  if word.isPrefixOf text then some word.length else none

def many1 (accept : Char → Bool) : Pattern := fun text =>
  if (text.takeWhile accept).isEmpty then none else some (text.takeWhile accept).length

def andThen (first second : Pattern) : Pattern := fun text =>
  match first text with
  | none => none
  | some taken => (second (text.drop taken)).map (taken + ·)

def matchesFrom (pattern : Pattern) : Nat → Text → List Text
  | _, [] => []
  | skip + 1, _ :: rest => matchesFrom pattern skip rest
  | 0, c :: rest =>
    match pattern (c :: rest) with
    | some (taken + 1) => (c :: rest).take (taken + 1) :: matchesFrom pattern taken rest
    | _ => matchesFrom pattern 0 rest

def allMatches (pattern : Pattern) (text : Text) : List Text := matchesFrom pattern 0 text

/-- Every match of the pattern gives way to what `replacement` makes of it. -/
def replaceFrom (pattern : Pattern) (replacement : Text → Text) : Nat → Text → Text
  | _, [] => []
  | skip + 1, _ :: rest => replaceFrom pattern replacement skip rest
  | 0, c :: rest =>
    match pattern (c :: rest) with
    | some (taken + 1) =>
      replacement ((c :: rest).take (taken + 1)) ++ replaceFrom pattern replacement taken rest
    | _ => c :: replaceFrom pattern replacement 0 rest

def replaceAll (pattern : Pattern) (replacement text : Text) : Text :=
  replaceFrom pattern (fun _ => replacement) 0 text

def decimal (n : Nat) : Text := Nat.toDigits 10 n

example : replaceAll (andThen (literal "f".toList) (many1 Char.isDigit)) "g".toList
    "f(f12,f3)".toList = "f(g,g)".toList := by decide

end CactusDB.Library.TextScan
