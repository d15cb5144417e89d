import CactusDB.Core.Expressions
import Mathlib.Data.List.DropRight

/-! Nested calls, read off the text of an expression by its parentheses. -/

namespace CactusDB.Optimizer.NestedCalls
open Library.TextScan List

def isBlank (c : Char) : Bool := c = ' ' || c = '\t' || c = '\n' || c = '\r'

def trim (text : Text) : Text := (text.dropWhile isBlank).rdropWhile isBlank

/-- The text between the first opening and the last closing parenthesis. When the last closing one
comes first, the length of the text wraps around, which gives all that follows. -/
def argumentText (input : Text) : Text :=
  let after := (input.dropWhile (· != '(')).drop 1
  if after.contains ')' then (after.rdropWhile (· != ')')).dropLast else after

/-- The loop of `parseDLExpressions`: every call loses a parenthesis, so that the length of a text is
enough fuel for it. -/
def parseDLFrom : Nat → Text → List (Text × Text)
  | 0, _ => []
  | fuel + 1, input =>
    if input.contains '(' && input.contains ')' then
      (trim (input.takeWhile (· != '(')), trim input) :: parseDLFrom fuel (trim (argumentText input))
    else []

/-- The names and the texts of nested calls, outermost first. -/
def parseDLExpressions (input : Text) : List (Text × Text) := parseDLFrom input.length input

example : parseDLExpressions "relu(mat_mul(ROW[\"v\"]))".toList =
    [("relu".toList, "relu(mat_mul(ROW[\"v\"]))".toList),
      ("mat_mul".toList, "mat_mul(ROW[\"v\"])".toList)] := by decide

def nest : List Text → Text → Text
  | [], inner => inner
  | name :: rest, inner => name ++ '(' :: nest rest inner ++ [')']

def nestedTexts : List Text → Text → List Text
  | [], _ => []
  | name :: rest, inner => nest (name :: rest) inner :: nestedTexts rest inner

def PlainChar (c : Char) : Prop := c ≠ '(' ∧ c ≠ ')' ∧ isBlank c = false

def Plain (name : Text) : Prop := ∀ c ∈ name, PlainChar c

instance (c : Char) : Decidable (PlainChar c) := inferInstanceAs (Decidable (_ ∧ _ ∧ _))

instance (name : Text) : Decidable (Plain name) := List.decidableBAll PlainChar name

structure Closed (inner : Text) : Prop where
  no_call : '(' ∉ inner
  trimmed : trim inner = inner

theorem trim_eq_self {text : Text} (first : ∀ c ∈ text.head?, isBlank c = false)
    (last : ∀ c ∈ text.getLast?, isBlank c = false) : trim text = text := by
  have front : text.dropWhile isBlank = text := by
    cases text with
    | nil => rfl
    | cons c rest => simp [first c rfl]
  unfold trim
  rw [front, rdropWhile_eq_self_iff]
  intro inhabited
  simp [last _ (getLast?_eq_some_getLast inhabited)]

variable {name : Text}

theorem trim_plain (plain : Plain name) : trim name = name :=
  trim_eq_self (fun _ found => (plain _ (mem_of_head? found)).2.2)
    fun _ found => (plain _ (mem_of_getLast? found)).2.2

theorem trim_call (plain : Plain name) (inner : Text) :
    trim (name ++ '(' :: inner ++ [')']) = name ++ '(' :: inner ++ [')'] := by
  apply trim_eq_self
  · intro c found
    cases name with
    | nil =>
      cases found
      rfl
    | cons first rest =>
      cases found
      exact (plain _ mem_cons_self).2.2
  · intro c found
    rw [getLast?_concat] at found
    cases found
    rfl

theorem argumentText_call (plain : Plain name) (inner : Text) :
    argumentText (name ++ '(' :: inner ++ [')']) = inner := by
  have stop : ∀ c ∈ name, (c != '(') = true := fun c mem => by simpa using (plain c mem).1
  simp [argumentText, dropWhile_append_of_pos stop]

theorem takeWhile_call (plain : Plain name) (inner : Text) :
    (name ++ '(' :: inner ++ [')']).takeWhile (· != '(') = name := by
  have stop : ∀ c ∈ name, (c != '(') = true := fun c mem => by simpa using (plain c mem).1
  simp [takeWhile_append_of_pos stop]

variable {inner : Text}

theorem trim_nest {names : List Text} (plain : ∀ name ∈ names, Plain name)
    (closed : Closed inner) : trim (nest names inner) = nest names inner := by
  cases names with
  | nil => exact closed.trimmed
  | cons name rest => exact trim_call (plain name mem_cons_self) (nest rest inner)

theorem parseDLFrom_nest (closed : Closed inner) :
    ∀ {names : List Text} {fuel : Nat}, (∀ name ∈ names, Plain name) → names.length ≤ fuel →
      parseDLFrom fuel (nest names inner) = names.zip (nestedTexts names inner) := by
  intro names
  induction names with
  | nil =>
    intro fuel _ _
    cases fuel with
    | zero => rfl
    | succ fuel => simp [parseDLFrom, nest, nestedTexts, closed.no_call]
  | cons name rest ih =>
    intro fuel plain enough
    cases fuel with
    | zero => exact absurd enough (Nat.not_succ_le_zero rest.length)
    | succ fuel =>
      have here : Plain name := plain name mem_cons_self
      have below : ∀ other ∈ rest, Plain other := fun other mem =>
        plain other (mem_cons_of_mem name mem)
      have brackets : ((nest (name :: rest) inner).contains '(' &&
          (nest (name :: rest) inner).contains ')') = true := by simp [nest]
      rw [parseDLFrom, if_pos brackets, nestedTexts, zip_cons_cons]
      simp only [nest, takeWhile_call here, argumentText_call here, trim_call here, trim_plain here,
        trim_nest below closed]
      rw [ih below (Nat.le_of_succ_le_succ enough)]

theorem length_le_nest (names : List Text) (inner : Text) : names.length ≤ (nest names inner).length := by
  induction names with
  | nil => exact Nat.zero_le _
  | cons name rest ih =>
    simp only [nest, length_cons, length_append, length_nil]
    omega

/-- Reading undoes printing. -/
theorem parseDLExpressions_nest {names : List Text} (plain : ∀ name ∈ names, Plain name) (closed : Closed inner) :
    parseDLExpressions (nest names inner) = names.zip (nestedTexts names inner) :=
  parseDLFrom_nest closed plain (length_le_nest names inner)

@[simp] theorem length_nestedTexts (names : List Text) (inner : Text) :
    (nestedTexts names inner).length = names.length := by
  induction names with
  | nil => rfl
  | cons name rest ih => simp [nestedTexts, ih]

end CactusDB.Optimizer.NestedCalls
