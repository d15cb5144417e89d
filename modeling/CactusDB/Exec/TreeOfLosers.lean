import CactusDB.Library.LoserTree
import CactusDB.Common.BitUtil

/-! The merge of ordered streams with a tree of losers. -/

namespace CactusDB.Exec

structure TreeOfLosers (ε α : Type) where
  streams : List (List α)
  firstStream : Nat
  values : List (Option ε)
  lastIndex : Option Nat

namespace TreeOfLosers
open Library.LoserTree Common.BitUtil

section

variable {α : Type}

def head (streams : List (List α)) (index : Nat) : Option α := (streams.getD index []).head?

def hasData (streams : List (List α)) (index : Nat) : Bool := (head streams index).isSome

def lessThan (less : α → α → Bool) (streams : List (List α)) (left right : Nat) : Bool :=
  match head streams left, head streams right with
  | some one, some other => less one other
  | _, _ => false

def compareStreams (compare : α → α → Int) (streams : List (List α)) (left right : Nat) : Int :=
  match head streams left, head streams right with
  | some one, some other => compare one other
  | _, _ => 0

def pop (streams : List (List α)) (index : Nat) : List (List α) := streams.modify index List.tail

end

section

def fillLevels (numStreams size levelSize : Nat) (positive : 0 < levelSize) : Nat × Nat :=
  if levelSize < numStreams then fillLevels numStreams (size + levelSize) (levelSize * 2)
    (Nat.mul_pos positive (by decide))
  else (size, levelSize)
termination_by numStreams - levelSize

def firstStreamOf (numStreams : Nat) : Nat :=
  let (size, levelSize) := fillLevels numStreams 0 1 Nat.one_pos
  if numStreams = nextPowerOfTwo numStreams then size
  else
    let secondLastSize := levelSize / 2
    let overflow := numStreams - secondLastSize
    (size - secondLastSize) + overflow

variable {ε α : Type}

/-- Without streams the constructor fails. -/
def create (streams : List (List α)) : Option (TreeOfLosers ε α) :=
  if 1 ≤ streams.length then
    let firstStream := firstStreamOf streams.length
    some ⟨streams, firstStream, List.replicate firstStream none, none⟩
  else none

end

section

structure Method (ε α : Type) where
  index : ε → Nat
  enter : Nat → ε
  play : List (List α) → ε → ε → ε × ε
  replay : List (List α) → ε → ε → ε × ε

variable {ε α : Type} (method : Method ε α)

def entrant (streams : List (List α)) (index : Nat) : Option ε :=
  if hasData streams index then some (method.enter index) else none

def advance (tree : TreeOfLosers ε α) : Option ε × TreeOfLosers ε α :=
  match tree.lastIndex with
  | none =>
    -- Only one stream.
    if tree.values.isEmpty then (entrant method tree.streams 0, tree)
    else
      let result := first tree.firstStream (entrant method tree.streams) (method.play tree.streams) 0 tree.values
      (result.1, { tree with values := result.2, lastIndex := result.1.map method.index })
  | some last =>
    let result := propagate (method.replay tree.streams) (parent (tree.firstStream + last))
      (entrant method tree.streams last) tree.values
    (result.1, { tree with values := result.2, lastIndex := result.1.map method.index })

end

section

variable {α : Type} (less : α → α → Bool) (compare : α → α → Int)

section

variable (streams : List (List α))

def matchFirst (left right : Nat) : Nat × Nat :=
  if lessThan less streams left right then (left, right) else (right, left)

def matchAgain (node value : Nat) : Nat × Nat :=
  if lessThan less streams node value then (node, value) else (value, node)

def matchFirstWithEquals (left right : Nat × Bool) : (Nat × Bool) × (Nat × Bool) :=
  let comparison := compareStreams compare streams left.1 right.1
  if comparison = 0 then ((left.1, true), right)
  else if comparison < 0 then (left, right)
  else (right, left)

def matchAgainWithEquals (node value : Nat × Bool) : (Nat × Bool) × (Nat × Bool) :=
  let comparison := compareStreams compare streams node.1 value.1
  if comparison = 0 then ((value.1, true), node)
  else if comparison < 0 then (node, value)
  else (value, node)

end

def merging : Method Nat α := ⟨id, id, matchFirst less, matchAgain less⟩

def mergingWithEquals : Method (Nat × Bool) α :=
  ⟨Prod.fst, fun index => (index, false), matchFirstWithEquals compare, matchAgainWithEquals compare⟩

def next (tree : TreeOfLosers Nat α) : Option Nat × TreeOfLosers Nat α := advance (merging less) tree

def nextWithEquals (tree : TreeOfLosers (Nat × Bool) α) : Option (Nat × Bool) × TreeOfLosers (Nat × Bool) α :=
  advance (mergingWithEquals compare) tree

end

variable {ε α : Type} (call : TreeOfLosers ε α → Option ε × TreeOfLosers ε α) (index : ε → Nat)

def turn (tree : TreeOfLosers ε α) : Option (ε × α) × TreeOfLosers ε α :=
  let (result, tree) := call tree
  match result with
  | none => (none, tree)
  | some entry => ((head tree.streams (index entry)).map (entry, ·),
      { tree with streams := pop tree.streams (index entry) })

def turns : Nat → TreeOfLosers ε α → TreeOfLosers ε α
  | 0, tree => tree
  | count + 1, tree => turns count (turn call index tree).2

def output (tree : TreeOfLosers ε α) (count : Nat) : Option (ε × α) := (turn call index (turns call index count tree)).1

end TreeOfLosers

end CactusDB.Exec
