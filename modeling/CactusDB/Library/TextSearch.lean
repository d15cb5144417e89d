import CactusDB.Library.TextScan

/-! The first place of a pattern in a text, and parts of a text by position and length. -/

namespace CactusDB.Library.TextSearch
open TextScan

def find (pattern : Text) : Text → Option Nat
  | [] => if pattern.isEmpty then some 0 else none
  | c :: rest => if pattern.isPrefixOf (c :: rest) then some 0 else (find pattern rest).map (· + 1)

def contains (pattern text : Text) : Bool := (find pattern text).isSome

/-- The part of a text from a position on. A negative length is a very large one; a position behind the
end has no part. -/
def substr (text : Text) (position : Int) (count : Int) : Option Text :=
  if position < 0 ∨ (text.length : Int) < position then none
  else if count < 0 then some (text.drop position.toNat)
  else some ((text.drop position.toNat).take count.toNat)

section

variable {c : Char} {word : Text}

theorem find_begin (back : Text) : find (c :: word) (c :: word ++ back) = some 0 := by
  rw [List.cons_append, find, if_pos (by simp)]

variable {d : Char}

theorem find_step {rest : Text} (differs : ¬ c :: word <+: d :: rest) :
    find (c :: word) (d :: rest) = (find (c :: word) rest).map (· + 1) := by
  rw [find, if_neg (by rwa [List.isPrefixOf_iff_prefix])]

theorem find_other (other : c ≠ d) (rest : Text) :
    find (c :: word) (d :: rest) = (find (c :: word) rest).map (· + 1) := by
  apply find_step
  intro begins
  exact other (List.cons_prefix_cons.mp begins).1

variable {front : Text}

/-- A front without the first character of the pattern is passed. -/
theorem find_front (free : c ∉ front) (rest : Text) :
    find (c :: word) (front ++ rest) = (find (c :: word) rest).map (front.length + ·) := by
  induction front with
  | nil => simp
  | cons d front ih =>
    have other : c ≠ d := fun same => free (by simp [same])
    have later : c ∉ front := fun mem => free (by simp [mem])
    rw [List.cons_append, find_other other, ih later, Option.map_map, List.length_cons]
    congr 1
    funext position
    simp only [Function.comp_apply]
    omega

theorem find_at (free : c ∉ front) (back : Text) :
    find (c :: word) (front ++ (c :: word ++ back)) = some front.length := by
  rw [find_front free, find_begin]
  simp

theorem find_absent {pattern text : Text} (needed : d ∈ pattern) (free : d ∉ text) : find pattern text = none := by
  induction text with
  | nil =>
    cases pattern with
    | nil => cases needed
    | cons first rest => rfl
  | cons e text ih =>
    have later : d ∉ text := fun mem => free (by simp [mem])
    have differs : ¬ pattern.isPrefixOf (e :: text) := by
      rw [List.isPrefixOf_iff_prefix]
      intro begins
      exact free (begins.subset needed)
    rw [find, if_neg differs, ih later]
    rfl

theorem contains_at (free : c ∉ front) (back : Text) :
    contains (c :: word) (front ++ (c :: word ++ back)) = true := by
  rw [contains, find_at free]
  rfl

theorem contains_absent {pattern text : Text} (needed : d ∈ pattern) (free : d ∉ text) :
    contains pattern text = false := by
  rw [contains, find_absent needed free]
  rfl

end

section

variable {position count : Int}

theorem substr_between (front middle back : Text) (first : position = front.length)
    (width : count = middle.length) : substr (front ++ (middle ++ back)) position count = some middle := by
  subst first width
  have inside : ¬((front.length : Int) < 0 ∨ ((front ++ (middle ++ back)).length : Int) < front.length) := by
    simp only [List.length_append]
    omega
  rw [substr, if_neg inside, if_neg (by omega)]
  simp

/-- A negative length takes everything. -/
theorem substr_rest (front back : Text) (first : position = front.length)
    (negative : count < 0) : substr (front ++ back) position count = some back := by
  subst first
  have inside : ¬((front.length : Int) < 0 ∨ ((front ++ back).length : Int) < front.length) := by
    simp only [List.length_append]
    omega
  rw [substr, if_neg inside, if_pos negative]
  simp

end

example : find "->".toList "    0 -> 1".toList = some 6 := by decide

end CactusDB.Library.TextSearch
