import CactusDB.Library.Numerals
import CactusDB.Library.TextSearch

/-! Decision trees that are read from a dump: the lines of the dump are sorted into three classes, each
class fills in a part of the array of nodes, and a prediction follows the links of the array. -/

namespace CactusDB.MlFunctions.DecisionTree
open Library TextScan TextSearch Numerals

variable {K : Type}

/-- The threshold of an inner node and the value of a leaf share their place. -/
structure Node (K : Type) where
  value : K
  indexID : Int
  leftChild : Int
  rightChild : Int
  isLeaf : Bool
  isMissTrackLeft : Bool
  deriving DecidableEq

inductive Failure where
  | invalidArgument
  | outOfRange
  | exit (message : Text)
  /-- The array is read or written outside of its bounds. -/
  | undefined
  deriving DecidableEq

def maxNumNodesPerTree : Nat := 512

/-- Nodes that no line has filled in hold whatever was in the memory. -/
abbrev Nodes (K : Type) := Nat → Node K

def stoi (text : Text) : Except Failure Int :=
  match readInt text with
  | none => .error .invalidArgument
  | some value => if -2 ^ 31 ≤ value ∧ value < 2 ^ 31 then .ok value else .error .outOfRange

def part (line : Text) (position count : Int) : Except Failure Text :=
  match substr line position count with
  | some text => .ok text
  | none => .error .outOfRange

def inside (nodeID : Int) : Prop := 0 ≤ nodeID ∧ nodeID < maxNumNodesPerTree

instance (nodeID : Int) : Decidable (inside nodeID) := inferInstanceAs (Decidable (_ ∧ _))

def setNode (tree : Nodes K) (nodeID : Int) (change : Node K → Node K) : Except Failure (Nodes K) :=
  if inside nodeID then .ok (Function.update tree nodeID.toNat (change (tree nodeID.toNat)))
  else .error .undefined

inductive LineClass where
  | relationship
  | leafNode
  | innerNode
  deriving DecidableEq, Repr

def classify (line : Text) : Option LineClass :=
  if line.length = 0 ∨ contains "graph".toList line ∨ contains "\x7d".toList line then none
  else if contains "->".toList line then some .relationship
  else if contains "leaf".toList line then some .leafNode
  else if contains "label".toList line then some .innerNode
  else none

def linesOf (lineClass : LineClass) (lines : List Text) : List Text :=
  lines.filter fun line => classify line = some lineClass

section

-- `std::stod` and the conversion to `float`

variable (stod : Text → Except Failure K)

def innerNode (indexID : Int) (threshold : K) : Node K := ⟨threshold, indexID, -1, -1, false, false⟩

def leafNode (leafValue : K) : Node K := ⟨leafValue, -1, -1, -1, true, true⟩

def processInnerNode (tree : Nodes K) (currentLine : Text) : Except Failure (Nodes K) := do
  let nodeID ← match find "[ label".toList currentLine with
    | some findEndPosition => do stoi (← part currentLine 4 (findEndPosition - 1 - 4))
    | none => .error (.exit "[ERROR] Error in extracting inner node nodeID\n".toList)
  let indexID ← match find "f".toList currentLine, find "<".toList currentLine with
    | some findStartPosition, some findEndPosition => do
      stoi (← part currentLine (findStartPosition + 1) (findEndPosition - findStartPosition - 1))
    | _, _ => .error (.exit "[Error] Error in extracting inner node indexID\n".toList)
  let threshold ← match find "<".toList currentLine, find "\" ]".toList currentLine with
    | some findStartPosition, some findEndPosition => do
      stod (← part currentLine (findStartPosition + 1) (findEndPosition - findStartPosition - 1))
    | _, _ => .error (.exit "[ERROR] Error in extracting inner node threshold\n".toList)
  setNode tree nodeID fun _ => innerNode indexID threshold

/-- Three characters too few are taken for the value. -/
def processLeafNode (tree : Nodes K) (currentLine : Text) : Except Failure (Nodes K) := do
  let nodeID ← match find "[".toList currentLine with
    | some findEndPosition => do stoi (← part currentLine 4 (findEndPosition - 1 - 4))
    | none => .error (.exit "[ERROR] Error in extracting leaf node nodeID\n".toList)
  let leafValue ← match find "leaf=".toList currentLine, find "\" ]".toList currentLine with
    | some findStartPosition, some findEndPosition => do
      stod (← part currentLine (findStartPosition + 5) (findEndPosition - 3 - findStartPosition - 5))
    | _, _ => .error (.exit "Error in extracting leaf node leafValue\n".toList)
  setNode tree nodeID fun _ => leafNode leafValue

/-- The first edge of a node leads to its left child, the second one to its right child. -/
def Node.addEdge (node : Node K) (missTrackLeft : Bool) (childNodeID : Int) : Node K :=
  let tagged := if missTrackLeft then { node with isMissTrackLeft := true } else node
  if tagged.leftChild = -1 then { tagged with leftChild := childNodeID }
  else if tagged.rightChild = -1 then { tagged with rightChild := childNodeID }
  else tagged

def processRelationship (tree : Nodes K) (currentLine : Text) : Except Failure (Nodes K) :=
  match find "->".toList currentLine with
  | none => .error (.exit "Error in extracting parentNodeID\n".toList)
  | some findMidPosition => do
    let parentNodeID ← stoi (← part currentLine 4 (findMidPosition - 1 - 4))
    let childNodeID ← match find "[".toList currentLine with
      | some findEndPosition => do
        stoi (← part currentLine (findMidPosition + 3) (findEndPosition - 1 - findMidPosition - 3))
      | none => .error (.exit "Error in extracting childNodeID\n".toList)
    setNode tree parentNodeID fun node =>
      node.addEdge (contains "yes, missing".toList currentLine) childNodeID

def processInnerNodes (innerNodes : List Text) (tree : Nodes K) : Except Failure (Nodes K) :=
  innerNodes.foldlM (processInnerNode stod) tree

def processLeafNodes (leafNodes : List Text) (tree : Nodes K) : Except Failure (Nodes K) :=
  leafNodes.foldlM (processLeafNode stod) tree

def processRelationships (relationships : List Text) (tree : Nodes K) : Except Failure (Nodes K) :=
  relationships.foldlM processRelationship tree

def constructTreeFromPath (lines : List Text) (tree : Nodes K) : Except Failure (Nodes K) := do
  let inner ← processInnerNodes stod (linesOf .innerNode lines) tree
  let leaves ← processLeafNodes stod (linesOf .leafNode lines) inner
  processRelationships (linesOf .relationship lines) leaves

end

variable [LinearOrder K]

/-- A feature that is not a number is less than no threshold. -/
def nextNode (node : Node K) (feature : Option K) : Int :=
  match feature with
  | some featureValue => if featureValue < node.value then node.leftChild else node.rightChild
  | none => node.rightChild

def nextNodeMissing (node : Node K) (feature : Option K) : Int :=
  match feature with
  | some featureValue => if featureValue < node.value then node.leftChild else node.rightChild
  | none => if node.isMissTrackLeft then node.leftChild else node.rightChild

/-- The loop of a prediction, for a number of rounds. It has no result when it has not come to a leaf by
then, or when it leaves the array. -/
def follow (next : Node K → Option K → Int) (tree : Nodes K) (features : Int → Option K) : Nat → Int → Option Nat
  | 0, _ => none
  | rounds + 1, curIndex =>
    if inside curIndex then
      let node := tree curIndex.toNat
      if node.isLeaf then some curIndex.toNat
      else follow next tree features rounds (next node (features node.indexID))
    else none

variable (tree : Nodes K) (features : Int → Option K) (rounds : Nat)

def followSingle : Option Nat :=
  follow nextNode tree features rounds 0

def followMissing : Option Nat :=
  follow nextNodeMissing tree features rounds 0

def predictSingle : Option K :=
  (followSingle tree features rounds).map fun leaf => (tree leaf).value

def predictMissing : Option K :=
  (followMissing tree features rounds).map fun leaf => (tree leaf).value

end CactusDB.MlFunctions.DecisionTree
