import CactusDB.Library.TextScan
import Mathlib

/-! Labels that gather the labels of ever larger subtrees of a plan. -/

namespace CactusDB.Query2Vec.SubtreeFeatures
open Library.TextScan List

/-- What the label of a node without machine learning is made of, as it is printed. -/
structure PlanNode where
  nodeType : Text
  tableId : Text
  filterColId : Text
  filterOpId : Text
  filterOpVal : Text
  join : Text
  aggKeys : List Text

inductive Plan where
  | node (node : PlanNode) (children : List Plan)

def joined (parts : List Text) : Text := List.intercalate ['_'] parts

def initalNodeLabel (node : PlanNode) : Text :=
  if node.nodeType = "TableScanNode".toList then joined [node.nodeType, node.tableId]
  else if node.nodeType = "FilterNode".toList then
    joined [node.nodeType, node.filterColId, node.filterOpId, node.filterOpVal]
  else if node.nodeType = "ProjectNode".toList then node.nodeType
  else if node.nodeType = "HashJoinNode".toList ∨ node.nodeType = "NestedLoopJoinNode".toList then
    joined [node.nodeType, node.join]
  else if node.nodeType = "AggregationNode".toList then joined [node.nodeType, joined node.aggKeys]
  else node.nodeType

/-- The label of a node after so many iterations. -/
def label : Nat → Plan → Text
  | 0, .node node _ => initalNodeLabel node
  | i + 1, .node node children =>
    joined [label i (.node node children), joined ((children.map (label i) : Multiset Text).sort (· ≤ ·))]

mutual
def nodeList : Plan → List Plan
  | .node node children => .node node children :: nodeLists children
def nodeLists : List Plan → List Plan
  | [] => []
  | plan :: rest => nodeList plan ++ nodeLists rest
end

def labelHistory (numIterations : Nat) (plan : Plan) : List Text := (range (numIterations + 1)).map (label · plan)

def getWlSubtreeFeatures (numIterations : Nat) (root : Plan) : Multiset Text :=
  (nodeList root).flatMap (labelHistory numIterations)

/-- Children change places, here and further down. -/
inductive Shuffled : List Plan → List Plan → Prop
  | nil : Shuffled [] []
  | cons {children others rest later : List Plan} (node : PlanNode) (below : Shuffled children others)
    (beside : Shuffled rest later) : Shuffled (.node node children :: rest) (.node node others :: later)
  | swap (first second : Plan) (rest : List Plan) : Shuffled (first :: second :: rest) (second :: first :: rest)
  | trans {plans middle others : List Plan} (one : Shuffled plans middle) (two : Shuffled middle others) :
    Shuffled plans others

variable {plans others : List Plan} {node : PlanNode}

theorem label_eq (below : ∀ i, (plans.map (label i)).Perm (others.map (label i))) (i : Nat) :
    label i (.node node plans) = label i (.node node others) := by
  induction i with
  | zero => rfl
  | succ i ih => rw [label, label, ih, Multiset.coe_eq_coe.mpr (below i)]

theorem Shuffled.labels (shuffled : Shuffled plans others) (i : Nat) :
    (plans.map (label i)).Perm (others.map (label i)) := by
  induction shuffled generalizing i with
  | nil => exact .nil
  | cons node _ _ below beside =>
    rw [map_cons, map_cons, label_eq below]
    exact (beside i).cons _
  | swap => exact .swap ..
  | trans _ _ one two => exact (one i).trans (two i)

theorem Shuffled.features (shuffled : Shuffled plans others) (numIterations : Nat) :
    ((nodeLists plans).flatMap (labelHistory numIterations)).Perm
      ((nodeLists others).flatMap (labelHistory numIterations)) := by
  induction shuffled with
  | nil => exact .nil
  | @cons children moved rest later node inner _ below beside =>
    have own : labelHistory numIterations (.node node children) = labelHistory numIterations (.node node moved) :=
      map_congr_left fun i _ => label_eq inner.labels i
    simp only [nodeLists, nodeList, flatMap_append, flatMap_cons, own]
    exact (below.append_left _).append beside
  | swap first second rest =>
    simp only [nodeLists, flatMap_append, ← append_assoc]
    exact perm_append_comm.append_right _
  | trans _ _ one two => exact one.trans two

/-- The places of children do not matter, and every node is counted once for each iteration and once for
its first label. -/
theorem getWlSubtreeFeatures_shuffled {plan other : Plan} (shuffled : Shuffled [plan] [other]) (numIterations : Nat) :
    getWlSubtreeFeatures numIterations plan = getWlSubtreeFeatures numIterations other ∧
      (getWlSubtreeFeatures numIterations plan).card = (numIterations + 1) * (nodeList plan).length := by
  constructor
  · rw [getWlSubtreeFeatures, getWlSubtreeFeatures, Multiset.coe_eq_coe]
    simpa [nodeLists] using shuffled.features numIterations
  · simp [getWlSubtreeFeatures, length_flatMap, labelHistory, Nat.mul_comm]

def scanOf (tableId : Text) : Plan := .node ⟨"TableScanNode".toList, tableId, [], [], [], [], []⟩ []

def joinOf (left right : Plan) : Plan := .node ⟨"HashJoinNode".toList, [], [], [], [], "INNER".toList, []⟩ [left, right]

theorem getWlSubtreeFeatures_swapped_join : getWlSubtreeFeatures 2 (joinOf (scanOf ['0']) (scanOf ['1'])) =
    getWlSubtreeFeatures 2 (joinOf (scanOf ['1']) (scanOf ['0'])) :=
  (getWlSubtreeFeatures_shuffled (.cons _ (.swap ..) .nil) 2).1

end CactusDB.Query2Vec.SubtreeFeatures
