import CactusDB.Library.KeyedWrites
import CactusDB.MlFunctions.DecisionTree

/-! The lines of a dump, and what the parser makes of each of them. -/

namespace CactusDB.MlFunctions.TreeDump
open Library TextScan TextSearch Numerals Fallible KeyedWrites DecisionTree
open Function

variable {K : Type}

def isNumeralChar (c : Char) : Bool := c.isDigit || ['+', '-', '.', 'e', 'E', 'i', 'n', 'f', 'a'].contains c

def isNumeral (text : Text) : Bool := text.all isNumeralChar

inductive DumpLine where
  | blank
  | opening
  | graph
  | closing
  | inner (id index : Nat) (numeral : Text)
  | leaf (id : Nat) (numeral : Text)
  | edge (parent child : Nat) (yes missing : Bool)
  deriving DecidableEq

def indent : Text := [' ', ' ', ' ', ' ']

def closeLabel : Text := ['"', ' ', ']']

def innerText (id index : Nat) (numeral : Text) : Text :=
  indent ++ decimal id ++ " [ label=\"f".toList ++ decimal index ++ ['<'] ++ numeral ++ closeLabel

def leafText (id : Nat) (numeral : Text) : Text :=
  indent ++ decimal id ++ " [ label=\"leaf=".toList ++ numeral ++ closeLabel

def branchText (yes missing : Bool) : Text :=
  (if yes then "yes".toList else "no".toList) ++ if missing then ", missing".toList else []

def colorText (missing : Bool) : Text := if missing then "#0000FF".toList else "#FF0000".toList

def edgeText (parent child : Nat) (yes missing : Bool) : Text :=
  indent ++ decimal parent ++ " -> ".toList ++ decimal child ++ " [label=\"".toList ++ branchText yes missing ++
    "\" color=\"".toList ++ colorText missing ++ "\"]".toList

def DumpLine.print : DumpLine → Text
  | .blank => []
  | .opening => "digraph \x7b".toList
  | .graph => "    graph [ rankdir=TB ]".toList
  | .closing => "\x7d".toList
  | .inner id index numeral => innerText id index numeral
  | .leaf id numeral => leafText id numeral
  | .edge parent child yes missing => edgeText parent child yes missing

open DumpLine

variable (id index parent child : Nat) (numeral : Text) (yes missing : Bool)

theorem print_inner : (inner id index numeral).print = innerText id index numeral := rfl

theorem print_leaf : (leaf id numeral).print = leafText id numeral := rfl

theorem print_edge :
    (edge parent child yes missing).print = edgeText parent child yes missing := rfl

theorem free_decimal {c : Char} (other : c.isDigit = false) (n : Nat) : c ∉ decimal n := by
  intro mem
  rw [isDigit_decimal mem] at other
  cases other

theorem free_numeral {text : Text} (plain : isNumeral text = true) {c : Char} (other : isNumeralChar c = false) :
    c ∉ text := by
  intro mem
  rw [isNumeral, List.all_eq_true] at plain
  rw [plain c mem] at other
  cases other

theorem stoi_decimal {n : Nat} (small : n < 2 ^ 31) : stoi (decimal n) = .ok (n : Int) := by
  rw [stoi, readInt_decimal]
  simp only
  rw [if_pos (by omega)]

theorem small_of_stoi {n : Nat} {value : Int} (read : stoi (decimal n) = .ok value) : n < 2 ^ 31 := by
  rw [stoi, readInt_decimal] at read
  simp only at read
  split at read
  case isTrue bounds => omega
  case isFalse => cases read

/-- The closing mark of a label is found behind its first one. -/
theorem find_closeLabel {front label : Text} (before : '"' ∉ front) (first : label.head? ≠ some ' ')
    (within : '"' ∉ label) : find closeLabel (front ++ '"' :: (label ++ closeLabel)) =
      some (front.length + 1 + label.length) := by
  have differs : ¬ closeLabel <+: '"' :: (label ++ closeLabel) := by
    intro begins
    cases label with
    | nil => exact absurd begins (by decide)
    | cons c label =>
      have same := (List.cons_prefix_cons.mp (List.cons_prefix_cons.mp begins).2).1
      exact first (congrArg some same.symm)
  have passed : find closeLabel (front ++ '"' :: (label ++ closeLabel)) =
      (find closeLabel ('"' :: (label ++ closeLabel))).map (front.length + ·) := find_front before _
  have step : find closeLabel ('"' :: (label ++ closeLabel)) =
      (find closeLabel (label ++ closeLabel)).map (· + 1) := find_step differs
  have here : find closeLabel (label ++ closeLabel) = some label.length := find_at within []
  rw [passed, step, here]
  simp only [Option.map_some, Option.some.injEq]
  omega

theorem part_between (front middle back : Text) {position count : Int} (first : position = front.length)
    (width : count = middle.length) : part (front ++ (middle ++ back)) position count = .ok middle := by
  rw [part, substr_between front middle back first width]

/-- The number of a node stands behind the indentation. -/
theorem part_id (back : Text) :
    part (indent ++ (decimal id ++ back)) 4 (((4 + (decimal id).length + 1 : Nat) : Int) - 1 - 4) =
      .ok (decimal id) := by
  have four : (4 : Int) = indent.length := rfl
  exact part_between indent (decimal id) back four (by omega)

/-- The word behind the number of a node. -/
theorem find_behind_id {c : Char} (digit : c.isDigit = false) (blank : c ≠ ' ') (word back : Text) :
    find (c :: word) (indent ++ (decimal id ++ ' ' :: (c :: word ++ back))) = some (4 + (decimal id).length + 1) := by
  have free : c ∉ indent ++ (decimal id ++ [' ']) := by simp [indent, free_decimal digit, blank]
  have shape : indent ++ (decimal id ++ ' ' :: (c :: word ++ back)) =
      indent ++ (decimal id ++ [' ']) ++ (c :: word ++ back) := by simp
  rw [shape, find_at free]
  simp [indent]
  omega

section

variable {id index : Nat} {numeral : Text}

def innerFront (id : Nat) : Text := indent ++ (decimal id ++ [' ', '[', ' ', 'l', 'a', 'b', 'e', 'l', '='])

theorem free_innerFront {c : Char} (digit : c.isDigit = false)
    (other : c ∉ [' ', '[', 'l', 'a', 'b', 'e', '=']) (id : Nat) : c ∉ innerFront id := by
  have number : c ∉ decimal id := free_decimal digit id
  simp only [List.mem_cons, List.not_mem_nil, or_false, not_or] at other
  simp [innerFront, indent, number, other]

theorem innerFront_append (id : Nat) (rest : Text) : innerFront id ++ rest =
    indent ++ (decimal id ++ ' ' :: '[' :: ' ' :: 'l' :: 'a' :: 'b' :: 'e' :: 'l' :: '=' :: rest) := by
  simp [innerFront]

theorem innerText_label :
    innerText id index numeral = innerFront id ++
      '"' :: (('f' :: (decimal index ++ '<' :: numeral)) ++ closeLabel) := by
  simp [innerText, innerFront]

theorem find_inner_bracket :
    find "[ label".toList (innerText id index numeral) = some (4 + (decimal id).length + 1) := by
  have pattern : "[ label".toList = '[' :: [' ', 'l', 'a', 'b', 'e', 'l'] := by decide
  rw [innerText_label, innerFront_append, pattern]
  exact find_behind_id id (by decide) (by decide) _ _

theorem find_inner_f : find "f".toList (innerText id index numeral) = some ((innerFront id).length + 1) := by
  have shape : innerText id index numeral =
      (innerFront id ++ ['"']) ++ ('f' :: [] ++ (decimal index ++ '<' :: (numeral ++ closeLabel))) := by
    simp [innerText_label]
  have front := free_innerFront (c := 'f') (by decide) (by decide) id
  have free : 'f' ∉ innerFront id ++ ['"'] := by simp [front]
  have pattern : "f".toList = 'f' :: [] := by decide
  rw [shape, pattern, find_at free]
  simp

theorem find_inner_less :
    find "<".toList (innerText id index numeral) =
      some ((innerFront id).length + 2 + (decimal index).length) := by
  have shape : innerText id index numeral =
      (innerFront id ++ ('"' :: 'f' :: decimal index)) ++ ('<' :: [] ++ (numeral ++ closeLabel)) := by
    simp [innerText_label]
  have front := free_innerFront (c := '<') (by decide) (by decide) id
  have number : '<' ∉ decimal index := free_decimal (by decide) index
  have free : '<' ∉ innerFront id ++ ('"' :: 'f' :: decimal index) := by simp [front, number]
  have pattern : "<".toList = '<' :: [] := by decide
  rw [shape, pattern, find_at free]
  simp
  omega

theorem find_inner_close (plain : isNumeral numeral = true) (id index : Nat) :
    find "\" ]".toList (innerText id index numeral) =
      some ((innerFront id).length + 3 + (decimal index).length + numeral.length) := by
  have front := free_innerFront (c := '"') (by decide) (by decide) id
  have number : '"' ∉ decimal index := free_decimal (by decide) index
  have within : '"' ∉ 'f' :: (decimal index ++ '<' :: numeral) := by
    simp [number, free_numeral plain (c := '"') (by decide)]
  have pattern : "\" ]".toList = closeLabel := by decide
  rw [innerText_label, pattern, find_closeLabel front (by simp) within]
  simp
  omega

theorem processInnerNode_print (stod : Text → Except Failure K) (tree : Nodes K) (small : id < 2 ^ 31)
    (plain : isNumeral numeral = true) :
    processInnerNode stod tree (innerText id index numeral) =
      (stoi (decimal index) >>= fun indexID => stod numeral >>= fun threshold =>
        setNode tree id fun _ => innerNode indexID threshold) := by
  have nodeID : part (innerText id index numeral) 4 (((4 + (decimal id).length + 1 : Nat) : Int) - 1 - 4) =
      .ok (decimal id) := by
    rw [innerText_label, innerFront_append]
    exact part_id id _
  have indexID : part (innerText id index numeral) ((((innerFront id).length + 1 : Nat) : Int) + 1)
      ((((innerFront id).length + 2 + (decimal index).length : Nat) : Int) - ((innerFront id).length + 1 : Nat) - 1) =
        .ok (decimal index) := by
    have shape : innerText id index numeral =
        (innerFront id ++ ['"', 'f']) ++ (decimal index ++ '<' :: (numeral ++ closeLabel)) := by
      simp [innerText_label]
    rw [shape, part_between _ _ _ (by simp; omega) (by omega)]
  have threshold : part (innerText id index numeral)
      ((((innerFront id).length + 2 + (decimal index).length : Nat) : Int) + 1)
      ((((innerFront id).length + 3 + (decimal index).length + numeral.length : Nat) : Int) -
        ((innerFront id).length + 2 + (decimal index).length : Nat) - 1) = .ok numeral := by
    have shape : innerText id index numeral =
        (innerFront id ++ ('"' :: 'f' :: (decimal index ++ ['<']))) ++ (numeral ++ closeLabel) := by
      simp [innerText_label]
    rw [shape, part_between _ _ _ (by simp; omega) (by omega)]
  unfold processInnerNode
  simp only [find_inner_bracket, find_inner_f, find_inner_less, find_inner_close plain]
  rw [nodeID, indexID, threshold]
  simp only [bind, Except.bind, stoi_decimal small]

end

section

variable {id : Nat} {numeral : Text}

/-- What is read of the numeral of a leaf: all but its last three characters, or everything up to the end
of the line when it has fewer. -/
def leafPart (numeral : Text) : Text :=
  if numeral.length < 3 then numeral ++ closeLabel else numeral.take (numeral.length - 3)

theorem leafText_label :
    leafText id numeral = innerFront id ++ '"' :: ((['l', 'e', 'a', 'f', '='] ++ numeral) ++ closeLabel) := by
  simp [leafText, innerFront]

theorem find_leaf_bracket : find "[".toList (leafText id numeral) = some (4 + (decimal id).length + 1) := by
  have pattern : "[".toList = '[' :: [] := by decide
  rw [leafText_label, innerFront_append, pattern]
  exact find_behind_id id (by decide) (by decide) _ _

/-- The word `label` does not begin like `leaf`. -/
theorem find_behind_label (tail rest : Text) :
    find ('l' :: 'e' :: 'a' :: 'f' :: tail) (['l', 'a', 'b', 'e', 'l', '=', '"'] ++ rest) =
      (find ('l' :: 'e' :: 'a' :: 'f' :: tail) rest).map (· + 7) := by
  simp [find, Option.map_map, comp_def]

theorem find_leaf (tail back : Text) (id : Nat) :
    find ('l' :: 'e' :: 'a' :: 'f' :: tail) (innerFront id ++ '"' :: ('l' :: 'e' :: 'a' :: 'f' :: tail ++ back)) =
      some ((innerFront id).length + 1) := by
  have shape : innerFront id ++ '"' :: ('l' :: 'e' :: 'a' :: 'f' :: tail ++ back) =
      (indent ++ (decimal id ++ [' ', '[', ' '])) ++
        (['l', 'a', 'b', 'e', 'l', '=', '"'] ++ ('l' :: 'e' :: 'a' :: 'f' :: tail ++ back)) := by
    simp [innerFront]
  have number : 'l' ∉ decimal id := free_decimal (by decide) id
  have free : 'l' ∉ indent ++ (decimal id ++ [' ', '[', ' ']) := by simp [indent, number]
  rw [shape, find_front free, find_behind_label, find_begin]
  simp [innerFront, indent]

theorem find_leaf_close (plain : isNumeral numeral = true) (id : Nat) :
    find "\" ]".toList (leafText id numeral) = some ((innerFront id).length + 6 + numeral.length) := by
  have front := free_innerFront (c := '"') (by decide) (by decide) id
  have within : '"' ∉ ['l', 'e', 'a', 'f', '='] ++ numeral := by
    simp [free_numeral plain (c := '"') (by decide)]
  have pattern : "\" ]".toList = closeLabel := by decide
  rw [leafText_label, pattern, find_closeLabel front (by simp) within]
  simp
  omega

theorem processLeafNode_print (stod : Text → Except Failure K) (tree : Nodes K) (small : id < 2 ^ 31)
    (plain : isNumeral numeral = true) :
    processLeafNode stod tree (leafText id numeral) =
      (stod (leafPart numeral) >>= fun leafValue => setNode tree id fun _ => leafNode leafValue) := by
  have nodeID : part (leafText id numeral) 4 (((4 + (decimal id).length + 1 : Nat) : Int) - 1 - 4) =
      .ok (decimal id) := by
    rw [leafText_label, innerFront_append]
    exact part_id id _
  have start : find "leaf=".toList (leafText id numeral) = some ((innerFront id).length + 1) := by
    have pattern : "leaf=".toList = 'l' :: 'e' :: 'a' :: 'f' :: ['='] := by decide
    rw [leafText_label, pattern, List.append_assoc]
    exact find_leaf ['='] (numeral ++ closeLabel) id
  have value : part (leafText id numeral) ((((innerFront id).length + 1 : Nat) : Int) + 5)
      ((((innerFront id).length + 6 + numeral.length : Nat) : Int) - 3 - ((innerFront id).length + 1 : Nat) - 5) =
        .ok (leafPart numeral) := by
    have shape : leafText id numeral =
        (innerFront id ++ ['"', 'l', 'e', 'a', 'f', '=']) ++ (numeral ++ closeLabel) := by
      simp [leafText_label]
    unfold leafPart
    split
    case isTrue short =>
      rw [shape, part, substr_rest _ _ (by simp; omega) (by omega)]
    case isFalse long =>
      have cut : numeral ++ closeLabel =
          numeral.take (numeral.length - 3) ++ (numeral.drop (numeral.length - 3) ++ closeLabel) := by
        rw [← List.append_assoc, List.take_append_drop]
      rw [shape, cut, part_between _ _ _ (by simp; omega) (by simp; omega)]
  unfold processLeafNode
  simp only [find_leaf_bracket, start, find_leaf_close plain]
  rw [nodeID, value]
  simp only [bind, Except.bind, stoi_decimal small]

end

section

variable {parent child : Nat} {yes missing : Bool}

theorem edgeText_eq : edgeText parent child yes missing =
    indent ++ (decimal parent ++ (' ' :: ('-' :: ['>'] ++ ' ' :: (decimal child ++ ' ' :: '[' :: ("label=\"".toList ++
      (branchText yes missing ++ ("\" color=\"".toList ++ (colorText missing ++ "\"]".toList)))))))) := by
  simp [edgeText]

theorem find_edge_arrow :
    find "->".toList (edgeText parent child yes missing) = some (4 + (decimal parent).length + 1) := by
  have pattern : "->".toList = '-' :: ['>'] := by decide
  rw [edgeText_eq, pattern]
  exact find_behind_id parent (by decide) (by decide) _ _

theorem find_edge_bracket :
    find "[".toList (edgeText parent child yes missing) =
      some (4 + (decimal parent).length + 4 + (decimal child).length + 1) := by
  have shape : edgeText parent child yes missing =
      (indent ++ (decimal parent ++ ([' ', '-', '>', ' '] ++ (decimal child ++ [' '])))) ++ ('[' :: [] ++
        ("label=\"".toList ++ (branchText yes missing ++ ("\" color=\"".toList ++
          (colorText missing ++ "\"]".toList))))) := by
    simp [edgeText_eq]
  have first : '[' ∉ decimal parent := free_decimal (by decide) parent
  have second : '[' ∉ decimal child := free_decimal (by decide) child
  have free : '[' ∉ indent ++ (decimal parent ++ ([' ', '-', '>', ' '] ++ (decimal child ++ [' ']))) := by
    simp [indent, first, second]
  have pattern : "[".toList = '[' :: [] := by decide
  rw [shape, pattern, find_at free]
  simp [indent]
  omega

theorem contains_edge_missing :
    contains "yes, missing".toList (edgeText parent child yes missing) = (yes && missing) := by
  have first (c : Char) (digit : c.isDigit = false) : c ∉ decimal parent := free_decimal digit parent
  have second (c : Char) (digit : c.isDigit = false) : c ∉ decimal child := free_decimal digit child
  cases missing with
  | false =>
    have free : 'm' ∉ edgeText parent child yes false := by
      cases yes <;> simp [edgeText, indent, branchText, colorText, first, second]
    rw [contains_absent (by decide) free, Bool.and_false]
  | true =>
    cases yes with
    | false =>
      have free : 'y' ∉ edgeText parent child false true := by
        simp [edgeText, indent, branchText, colorText, first, second]
      rw [contains_absent (by decide) free, Bool.false_and]
    | true =>
      have shape : edgeText parent child true true =
          (indent ++ (decimal parent ++ (" -> ".toList ++ (decimal child ++ " [label=\"".toList)))) ++
            ('y' :: "es, missing".toList ++ ("\" color=\"".toList ++ (colorText true ++ "\"]".toList))) := by
        simp [edgeText, branchText]
      have free : 'y' ∉ indent ++ (decimal parent ++ (" -> ".toList ++ (decimal child ++ " [label=\"".toList))) := by
        simp [indent, first, second]
      have pattern : "yes, missing".toList = 'y' :: "es, missing".toList := by decide
      rw [shape, pattern, contains_at free, Bool.and_self]

theorem processRelationship_print (tree : Nodes K) (parentSmall : parent < 2 ^ 31) (childSmall : child < 2 ^ 31) :
    processRelationship tree (edgeText parent child yes missing) =
      setNode tree parent fun node => node.addEdge (yes && missing) child := by
  have parentID : part (edgeText parent child yes missing) 4
      (((4 + (decimal parent).length + 1 : Nat) : Int) - 1 - 4) = .ok (decimal parent) := by
    rw [edgeText_eq]
    exact part_id parent _
  have childID : part (edgeText parent child yes missing) (((4 + (decimal parent).length + 1 : Nat) : Int) + 3)
      (((4 + (decimal parent).length + 4 + (decimal child).length + 1 : Nat) : Int) - 1 -
        (4 + (decimal parent).length + 1 : Nat) - 3) = .ok (decimal child) := by
    have shape : edgeText parent child yes missing = (indent ++ (decimal parent ++ [' ', '-', '>', ' '])) ++
        (decimal child ++ (" [label=\"".toList ++ (branchText yes missing ++
          ("\" color=\"".toList ++ (colorText missing ++ "\"]".toList))))) := by
      simp [edgeText]
    rw [shape, part_between _ _ _ (by simp [indent]; omega) (by omega)]
  unfold processRelationship
  simp only [find_edge_arrow, find_edge_bracket, contains_edge_missing]
  rw [parentID, childID]
  simp only [bind, Except.bind, stoi_decimal parentSmall, stoi_decimal childSmall]

end

section

def DumpLine.lineClass : DumpLine → Option LineClass
  | .inner _ _ _ => some .innerNode
  | .leaf _ _ => some .leafNode
  | .edge _ _ _ _ => some .relationship
  | _ => none

def linesWith (lineClass : LineClass) (lines : List DumpLine) : List DumpLine :=
  lines.filter fun line => line.lineClass = some lineClass

def DumpLine.isPlain : DumpLine → Bool
  | .inner _ _ numeral => isNumeral numeral
  | .leaf _ numeral => isNumeral numeral
  | _ => true

/-- A node is no brace, no heading and no edge. -/
theorem classify_node (id : Nat) {label : Text} (graph : 'g' ∉ label) (brace : '\x7d' ∉ label) (arrow : '>' ∉ label) :
    classify (innerFront id ++ '"' :: (label ++ closeLabel)) =
      if contains "leaf".toList (innerFront id ++ '"' :: (label ++ closeLabel)) then some .leafNode
      else if contains "label".toList (innerFront id ++
        '"' :: (label ++ closeLabel)) then some .innerNode else none := by
  have free {c : Char} (digit : c.isDigit = false) (mark : c ∉ [' ', '[', 'l', 'a', 'b', 'e', '=', '"', ']'])
      (inside : c ∉ label) : c ∉ innerFront id ++ '"' :: (label ++ closeLabel) := by
    simp only [List.mem_cons, List.not_mem_nil, or_false, not_or] at mark
    simp [innerFront, indent, closeLabel, free_decimal digit, mark, inside]
  have heading : contains "graph".toList _ = false := contains_absent (by decide) (free (by decide) (by decide) graph)
  have closing : contains "\x7d".toList _ = false := contains_absent (by decide) (free (by decide) (by decide) brace)
  have edge : contains "->".toList _ = false := contains_absent (by decide) (free (by decide) (by decide) arrow)
  rw [classify, heading, closing, edge]
  simp

variable {numeral : Text}

section

variable (plain : isNumeral numeral = true)
include plain

theorem classify_inner (id index : Nat) : classify (innerText id index numeral) = some .innerNode := by
  have shape : innerText id index numeral = (indent ++ (decimal id ++ [' ', '[', ' '])) ++
      (['l', 'a', 'b', 'e', 'l', '=', '"'] ++ ('f' :: (decimal index ++ '<' :: (numeral ++ closeLabel)))) := by
    simp [innerText]
  have number : 'l' ∉ decimal id := free_decimal (by decide) id
  have front : 'l' ∉ indent ++ (decimal id ++ [' ', '[', ' ']) := by simp [indent, number]
  have label : contains "label".toList (innerText id index numeral) = true := by
    rw [shape]
    exact contains_at front _
  have leaf : contains "leaf".toList (innerText id index numeral) = false := by
    have pattern : "leaf".toList = 'l' :: 'e' :: 'a' :: 'f' :: [] := by decide
    have back : 'l' ∉ 'f' :: (decimal index ++ '<' :: (numeral ++ closeLabel)) := by
      simp [closeLabel, free_decimal (c := 'l') (by decide) index, free_numeral plain (c := 'l') (by decide)]
    rw [contains, shape, pattern, find_front front, find_behind_label, find_absent List.mem_cons_self back]
    rfl
  have free {c : Char} (other : isNumeralChar c = false) (mark : c ≠ 'f' ∧ c ≠ '<') :
      c ∉ 'f' :: (decimal index ++ '<' :: numeral) := by
    have digit : c.isDigit = false := (Bool.or_eq_false_iff.mp other).1
    simp [free_decimal digit, free_numeral plain other, mark]
  rw [innerText_label] at label leaf ⊢
  rw [classify_node id (free (by decide) (by decide)) (free (by decide) (by decide)) (free (by decide) (by decide)),
    leaf, label]
  rfl

theorem classify_leaf (id : Nat) : classify (leafText id numeral) = some .leafNode := by
  have leaf : contains "leaf".toList (leafText id numeral) = true := by
    have found := find_leaf [] ('=' :: (numeral ++ closeLabel)) id
    have pattern : "leaf".toList = 'l' :: 'e' :: 'a' :: 'f' :: [] := by decide
    rw [contains, leafText_label, pattern]
    exact congrArg Option.isSome found
  have free {c : Char} (other : isNumeralChar c = false) (mark : c ∉ ['l', 'e', 'a', 'f', '=']) :
      c ∉ ['l', 'e', 'a', 'f', '='] ++ numeral := List.not_mem_append mark (free_numeral plain other)
  rw [leafText_label] at leaf ⊢
  rw [classify_node id (free (by decide) (by decide)) (free (by decide) (by decide)) (free (by decide) (by decide)),
    leaf]
  rfl

end

theorem classify_edge : classify (edgeText parent child yes missing) = some .relationship := by
  have free (c : Char) (digit : c.isDigit = false) (mark : c = 'p' ∨ c = '\x7d') :
      c ∉ edgeText parent child yes missing := by
    have first : c ∉ decimal parent := free_decimal digit parent
    have second : c ∉ decimal child := free_decimal digit child
    rcases mark with rfl | rfl <;> cases yes <;> cases missing <;>
      simp [edgeText, indent, branchText, colorText, first, second]
  have arrow : contains "->".toList (edgeText parent child yes missing) = true := by
    rw [contains, find_edge_arrow]
    rfl
  have kept : ¬((edgeText parent child yes missing).length = 0 ∨
      contains "graph".toList (edgeText parent child yes missing) ∨
      contains "\x7d".toList (edgeText parent child yes missing)) := by
    rw [contains_absent (by decide) (free 'p' (by decide) (.inl rfl)),
      contains_absent (by decide) (free '\x7d' (by decide) (.inr rfl))]
    simp [edgeText, indent]
  rw [classify, if_neg kept, if_pos arrow]

theorem classify_print {line : DumpLine} (plain : line.isPlain = true) : classify line.print = line.lineClass := by
  cases line with
  | blank => decide
  | opening => decide
  | graph => decide
  | closing => decide
  | inner id index numeral => exact classify_inner plain id index
  | leaf id numeral => exact classify_leaf plain id
  | edge parent child yes missing => exact classify_edge parent child yes missing

/-- Each class gets its own lines, in the order of the dump. -/
theorem linesOf_print (lineClass : LineClass) {lines : List DumpLine} (plain : ∀ line ∈ lines, line.isPlain = true) :
    linesOf lineClass (lines.map print) = (linesWith lineClass lines).map print := by
  rw [linesOf, linesWith, List.filter_map]
  congr 1
  apply List.filter_congr
  intro line mem
  rw [comp_apply, classify_print (plain line mem)]

end

variable (stod : Text → Except Failure K)

namespace DumpLine

def target : DumpLine → Nat
  | .inner id _ _ => id
  | .leaf id _ => id
  | .edge parent _ _ _ => parent
  | _ => 0

def write : DumpLine → Node K → Node K
  | .inner _ index numeral, node =>
    match stod numeral with
    | .ok threshold => innerNode index threshold
    | .error _ => node
  | .leaf _ numeral, node =>
    match stod (leafPart numeral) with
    | .ok leafValue => leafNode leafValue
    | .error _ => node
  | .edge _ child yes missing, node => node.addEdge (yes && missing) child
  | _, node => node

def Readable : DumpLine → Prop
  | .inner id index numeral => id < maxNumNodesPerTree ∧ index < 2 ^ 31 ∧ ∃ threshold, stod numeral = .ok threshold
  | .leaf id numeral => id < maxNumNodesPerTree ∧ ∃ leafValue, stod (leafPart numeral) = .ok leafValue
  | .edge parent child _ _ => parent < maxNumNodesPerTree ∧ child < maxNumNodesPerTree
  | _ => True

end DumpLine

theorem setNode_inside (tree : Nodes K) {id : Nat} (limit : id < maxNumNodesPerTree) (change : Node K → Node K) :
    setNode tree id change = .ok (update tree id (change (tree id))) := by
  have within : inside (id : Int) := by
    unfold inside
    omega
  rw [setNode, if_pos within, Int.toNat_natCast]

theorem small_of_limit {id : Nat} (limit : id < maxNumNodesPerTree) : id < 2 ^ 31 := by
  unfold maxNumNodesPerTree at limit
  omega

variable {stod}

variable {line : DumpLine} {lines : List DumpLine}

theorem processInnerNode_write (inner : line.lineClass = some .innerNode)
    (plain : line.isPlain = true) (readable : line.Readable stod) (tree : Nodes K) :
    processInnerNode stod tree line.print =
      .ok (update tree line.target (line.write stod (tree line.target))) := by
  cases line with
  | inner id index numeral =>
    obtain ⟨limit, indexSmall, threshold, read⟩ := readable
    rw [print_inner, processInnerNode_print stod tree (small_of_limit limit) plain, stoi_decimal indexSmall, read]
    simp only [bind, Except.bind, setNode_inside tree limit, write, read]
    rfl
  | _ => cases inner

theorem processLeafNode_write (leaf : line.lineClass = some .leafNode)
    (plain : line.isPlain = true) (readable : line.Readable stod) (tree : Nodes K) :
    processLeafNode stod tree line.print =
      .ok (update tree line.target (line.write stod (tree line.target))) := by
  cases line with
  | leaf id numeral =>
    obtain ⟨limit, leafValue, read⟩ := readable
    rw [print_leaf, processLeafNode_print stod tree (small_of_limit limit) plain, read]
    simp only [bind, Except.bind, setNode_inside tree limit, write, read]
    rfl
  | _ => cases leaf

theorem processRelationship_write (edge : line.lineClass = some .relationship)
    (readable : line.Readable stod) (tree : Nodes K) :
    processRelationship tree line.print =
      .ok (update tree line.target (line.write stod (tree line.target))) := by
  cases line with
  | edge parent child yes missing =>
    obtain ⟨limit, childLimit⟩ := readable
    rw [print_edge, processRelationship_print tree (small_of_limit limit) (small_of_limit childLimit),
      setNode_inside tree limit]
    rfl
  | _ => cases edge

def processed (lines : List DumpLine) : List DumpLine :=
  linesWith .innerNode lines ++ (linesWith .leafNode lines ++ linesWith .relationship lines)

theorem lineClass_of_mem {lineClass : LineClass}
    (mem : line ∈ linesWith lineClass lines) : line.lineClass = some lineClass := by
  simpa using (List.mem_filter.mp mem).2

/-- A dump whose lines can all be read is the writes of its lines. -/
theorem constructTreeFromPath_print (plain : ∀ line ∈ lines, line.isPlain = true)
    (readable : ∀ line ∈ lines, line.Readable stod) (tree : Nodes K) :
    constructTreeFromPath stod (lines.map print) tree =
      .ok (amend target (write stod) tree (processed lines)) := by
  have isLine {lineClass : LineClass} {line : DumpLine} (mem : line ∈ linesWith lineClass lines) : line ∈ lines :=
    List.mem_of_mem_filter mem
  have each {lineClass : LineClass} {process : Nodes K → Text → Except Failure (Nodes K)}
      (writes : ∀ line : DumpLine, line.lineClass = some lineClass → line.isPlain = true → line.Readable stod →
        ∀ tree, process tree line.print = .ok (update tree line.target (line.write stod (tree line.target))))
      (memory : Nodes K) : (linesOf lineClass (lines.map print)).foldlM process memory =
        .ok (amend target (write stod) memory (linesWith lineClass lines)) := by
    rw [linesOf_print _ plain, List.foldlM_map]
    exact foldlM_amend _ (fun line mem => writes line (lineClass_of_mem mem) (plain line (isLine mem))
      (readable line (isLine mem))) memory
  have inner := each fun _ => processInnerNode_write
  have leaves := each fun _ => processLeafNode_write
  have edges := each fun _ edge _ => processRelationship_write edge
  rw [constructTreeFromPath, processInnerNodes, inner, processed, amend_append, amend_append]
  simp only [bind, Except.bind, processLeafNodes, processRelationships, leaves, edges]

/-- A dump that is parsed has been read line by line. -/
theorem readable_of_construct (plain : ∀ line ∈ lines, line.isPlain = true)
    {tree array : Nodes K} (done : constructTreeFromPath stod (lines.map print) tree = .ok array)
    (small : ∀ line ∈ lines, line.target < maxNumNodesPerTree) (mem : line ∈ lines)
    (edge : line.lineClass ≠ some .relationship) : line.Readable stod := by
  obtain ⟨inner, first, done⟩ := exists_of_bind_ok done
  obtain ⟨leaves, second, done⟩ := exists_of_bind_ok done
  rw [processInnerNodes, linesOf_print _ plain, List.foldlM_map] at first
  rw [processLeafNodes, linesOf_print _ plain, List.foldlM_map] at second
  cases line with
  | inner id index numeral =>
    have limit : id < maxNumNodesPerTree := small _ mem
    have numeralPlain : isNumeral numeral = true := plain _ mem
    have here : DumpLine.inner id index numeral ∈ linesWith .innerNode lines := List.mem_filter.mpr ⟨mem, rfl⟩
    obtain ⟨before, after, step⟩ := exists_of_foldlM_ok first here
    rw [print_inner, processInnerNode_print stod before (small_of_limit limit) numeralPlain] at step
    obtain ⟨indexID, readIndex, step⟩ := exists_of_bind_ok step
    obtain ⟨threshold, read, step⟩ := exists_of_bind_ok step
    exact ⟨limit, small_of_stoi readIndex, threshold, read⟩
  | leaf id numeral =>
    have limit : id < maxNumNodesPerTree := small _ mem
    have numeralPlain : isNumeral numeral = true := plain _ mem
    have here : leaf id numeral ∈ linesWith .leafNode lines := List.mem_filter.mpr ⟨mem, rfl⟩
    obtain ⟨before, after, step⟩ := exists_of_foldlM_ok second here
    rw [print_leaf, processLeafNode_print stod before (small_of_limit limit) numeralPlain] at step
    obtain ⟨leafValue, read, step⟩ := exists_of_bind_ok step
    exact ⟨limit, leafValue, read⟩
  | edge parent child yes missing => exact absurd rfl edge
  | _ => trivial

end CactusDB.MlFunctions.TreeDump
