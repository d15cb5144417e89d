import CactusDB.Core.PlanBuilder

/-! A parser for the expression texts that the rewrite rules write: columns, constants, calls and
comparisons, with an optional alias. Names are read in lower case. -/

namespace CactusDB.Core.SqlText
open Library.TextScan Expressions PlanBuilder

def isNameStart (c : Char) : Bool := c.isAlpha || c == '_'

def isNameChar (c : Char) : Bool := c.isAlphanum || c == '_'

def isWord (name : Text) : Bool := !name.isEmpty && name.all isNameChar

theorem not_mem_of_isWord {name : Text} {c : Char} (word : isWord name) (special : isNameChar c = false) :
    c ∉ name := by
  intro mem
  rw [isWord, Bool.and_eq_true, List.all_eq_true] at word
  rw [word.2 c mem] at special
  cases special

def skipBlanks (text : Text) : Text := text.dropWhile (· == ' ')

def lowerCase (text : Text) : Text := text.map Char.toLower

def digitsValue (digits : Text) : Nat :=
  digits.foldl (fun value digit => 10 * value + (digit.toNat - '0'.toNat)) 0

def parseNumber (text : Text) : Variant × Text :=
  let whole := text.takeWhile Char.isDigit
  match text.dropWhile Char.isDigit with
  | '.' :: rest =>
    let fraction := rest.takeWhile Char.isDigit
    (.double ⟨digitsValue (whole ++ fraction), fraction.length⟩, rest.dropWhile Char.isDigit)
  | rest => (.bigint (digitsValue whole), rest)

def parseComparison : Text → Option (Text × Text)
  | '<' :: '=' :: rest => some ("lte".toList, rest)
  | '>' :: '=' :: rest => some ("gte".toList, rest)
  | '<' :: '>' :: rest => some ("neq".toList, rest)
  | '!' :: '=' :: rest => some ("neq".toList, rest)
  | '<' :: rest => some ("lt".toList, rest)
  | '>' :: rest => some ("gt".toList, rest)
  | '=' :: rest => some ("eq".toList, rest)
  | _ => none

mutual
def parsePrimary : Nat → Text → Option (TypedExpr × Text)
  | 0, _ => none
  | fuel + 1, text =>
    match skipBlanks text with
    | [] => none
    | c :: rest =>
      if isNameStart c then
        let name := lowerCase ((c :: rest).takeWhile isNameChar)
        match (c :: rest).dropWhile isNameChar with
        | '(' :: inner => (parseInputs fuel inner).map fun (inputs, after) => (.call name inputs, after)
        | after => some (.field name, after)
      else if c.isDigit then
        let (value, after) := parseNumber (c :: rest)
        some (.constant value, after)
      else none
def parseExpression : Nat → Text → Option (TypedExpr × Text)
  | 0, _ => none
  | fuel + 1, text =>
    match parsePrimary fuel text with
    | none => none
    | some (left, after) =>
      match parseComparison (skipBlanks after) with
      | none => some (left, after)
      | some (name, rest) =>
        (parsePrimary fuel rest).map fun (right, after) => (.call name [left, right], after)
def parseInputs : Nat → Text → Option (List TypedExpr × Text)
  | 0, _ => none
  | fuel + 1, text =>
    match parseExpression fuel text with
    | none => none
    | some (input, after) =>
      match skipBlanks after with
      | ')' :: rest => some ([input], rest)
      | ',' :: rest => (parseInputs fuel rest).map fun (inputs, after) => (input :: inputs, after)
      | _ => none
end

def parseAlias (text : Text) : Option (Option Text) :=
  match skipBlanks text with
  | [] => some none
  | a :: s :: ' ' :: rest =>
    if lowerCase [a, s] = "as".toList ∧ rest ≠ [] ∧ rest.all isNameChar then
      some (some (lowerCase rest))
    else none
  | _ => none

def parseItem (text : Text) : Option ParsedExpr :=
  match parseExpression (3 * text.length + 3) text with
  | none => none
  | some (expr, after) => (parseAlias after).map fun aliasName => ⟨expr, aliasName⟩

def sqlParser : SqlParser := ⟨parseItem⟩

example : (parseItem "mat_mul_block(v, w) AS mp".toList).map (fun item => (item.expr.toString, item.exprAlias)) =
    some ("mat_mul_block(ROW[\"v\"],ROW[\"w\"])".toList, some "mp".toList) := by decide +kernel

end CactusDB.Core.SqlText
