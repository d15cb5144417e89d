import CactusDB.Library.TextScan

/-! Typed expressions of a query plan and the text they print. The rewrite rules find and
rebuild expressions through this text. -/

namespace CactusDB.Core.Expressions
open Library.TextScan

inductive SqlType where
  | boolean
  | integer
  | bigint
  | real
  | double
  | varchar
  | timestamp
  | array (element : SqlType)
  deriving DecidableEq, Repr

def SqlType.toString : SqlType → Text
  | .boolean => "BOOLEAN".toList
  | .integer => "INTEGER".toList
  | .bigint => "BIGINT".toList
  | .real => "REAL".toList
  | .double => "DOUBLE".toList
  | .varchar => "VARCHAR".toList
  | .timestamp => "TIMESTAMP".toList
  | .array element => "ARRAY<".toList ++ element.toString ++ ">".toList

/-- A floating-point constant, given by the decimal `mantissa / 10 ^ scale` that it prints as. -/
structure Decimal where
  mantissa : Int
  scale : Nat
  deriving DecidableEq, Repr

inductive Variant where
  | null
  | boolean (value : Bool)
  | bigint (value : Int)
  | double (value : Decimal)
  | varchar (value : Text)
  deriving DecidableEq, Repr

def signed (value : Int) (digits : Text) : Text :=
  if value < 0 then '-' :: digits else digits

def padded (width n : Nat) : Text :=
  List.replicate (width - (decimal n).length) '0' ++ decimal n

def Decimal.toText (value : Decimal) : Text :=
  let whole := decimal (value.mantissa.natAbs / 10 ^ value.scale)
  let fraction := padded value.scale (value.mantissa.natAbs % 10 ^ value.scale)
  signed value.mantissa (if value.scale = 0 then whole else whole ++ '.' :: fraction)

def quoted (name : Text) : Text :=
  '"' :: name.flatMap (fun c => if c = '"' then ['"', '"'] else [c]) ++ ['"']

theorem not_mem_quoted {c : Char} (other : c ≠ '"') {name : Text} (free : c ∉ name) : c ∉ quoted name := by
  simp only [quoted, List.mem_append, List.mem_cons, List.mem_flatMap, other, List.not_mem_nil, or_false, false_or]
  rintro ⟨each, mem, same⟩
  split at same <;> simp_all

def Variant.toJson : Variant → Text
  | .null => "null".toList
  | .boolean value => if value then "true".toList else "false".toList
  | .bigint value => signed value (decimal value.natAbs)
  | .double value => value.toText
  | .varchar value => '"' :: value ++ ['"']

/-- `field` reads a column of the input row; `argument` reads a variable bound by a lambda. -/
inductive TypedExpr where
  | field (name : Text)
  | argument (name : Text)
  | constant (value : Variant)
  | call (name : Text) (inputs : List TypedExpr)
  | cast (nullOnFailure : Bool) (type : SqlType) (input : TypedExpr)
  | lambda (signature : List (Text × SqlType)) (body : TypedExpr)

def signatureText (signature : List (Text × SqlType)) : Text :=
  "ROW<".toList ++
    List.intercalate [','] (signature.map fun entry => entry.1 ++ ':' :: entry.2.toString) ++ ['>']

open TypedExpr

mutual
def TypedExpr.toString : TypedExpr → Text
  | .field name => "ROW[".toList ++ quoted name ++ [']']
  | .argument name => quoted name
  | .constant value => value.toJson
  | .call name inputs => name ++ '(' :: listToString inputs ++ [')']
  | .cast nullOnFailure type input =>
    (if nullOnFailure then "try_cast ".toList else "cast ".toList) ++
      input.toString ++ " as ".toList ++ type.toString
  | .lambda signature body =>
    "lambda ".toList ++ signatureText signature ++ " -> ".toList ++ body.toString
def TypedExpr.listToString : List TypedExpr → Text
  | [] => []
  | [input] => input.toString
  | input :: rest => input.toString ++ ',' :: listToString rest
end

@[simp] theorem toString_field (name : Text) :
    (field name).toString = "ROW[".toList ++ quoted name ++ [']'] := rfl

@[simp] theorem toString_call (name : Text) (inputs : List TypedExpr) :
    (call name inputs).toString = name ++ '(' :: listToString inputs ++ [')'] := rfl

@[simp] theorem listToString_singleton (input : TypedExpr) :
    listToString [input] = input.toString := rfl

def TypedExpr.inputs : TypedExpr → List TypedExpr
  | .call _ inputs => inputs
  | .cast _ _ input => [input]
  | _ => []

mutual
def TypedExpr.firstInputs : TypedExpr → List TypedExpr
  | .call name inputs => if inputs.isEmpty then [] else .call name inputs :: headFirstInputs inputs
  | .cast nullOnFailure type input => .cast nullOnFailure type input :: input.firstInputs
  | _ => []
def TypedExpr.headFirstInputs : List TypedExpr → List TypedExpr
  | [] => []
  | input :: _ => input.firstInputs
end

mutual
def TypedExpr.fields : TypedExpr → List Text
  | .field name => [name]
  | .argument _ => []
  | .constant _ => []
  | .call _ inputs => listFields inputs
  | .cast _ _ input => input.fields
  | .lambda _ body => body.fields
def TypedExpr.listFields : List TypedExpr → List Text
  | [] => []
  | input :: rest => input.fields ++ listFields rest
end

example : (call "relu1".toList [.call "mat_mul0".toList [.field "v".toList]]).toString =
    "relu1(mat_mul0(ROW[\"v\"]))".toList := by decide

end CactusDB.Core.Expressions
