import CactusDB.Library.OrderedDict
import Mathlib.Data.List.Chain

/-! The tree of a Monte Carlo search and one iteration of its training loop. Nodes refer to each other
by their place in the list of nodes. How a child is selected and what an expansion brings differs
between the searches and is a parameter, as is the reward that the simulation returns. -/

namespace CactusDB.Mcts.SearchTree
open Library.OrderedDict

/-- The exceptions that end a training. `endless` is a loop that has not come to its end within the
number of nodes, `dangling` a link to a node that is not there. -/
inductive Failure where
  | indexError
  | valueError
  | zeroDivisionError
  | keyError
  | endless
  | dangling
  deriving DecidableEq, Repr

structure Node (A R : Type) where
  children : List Nat
  numVisit : Nat
  reward : R
  parent : Option Nat
  actionSpace : Dict A Bool
  isTerminal : Bool
  fromAction : Option A

/-- The flags of the nodes are kept beside them. -/
structure Tree (A R : Type) where
  nodes : List (Node A R)
  isFullyExpanded : Nat → Bool

structure Expansion (A : Type) where
  explored : Dict A Bool
  action : A
  actionSpace : Dict A Bool
  isTerminal : Option Bool

/-- The moves at a node may depend on its place, since the optimizer is asked anew there. -/
structure Moves (A R : Type) where
  select : Nat → List (Node A R) → Node A R → Except Failure Nat
  expand : Nat → Node A R → Except Failure (Expansion A)

variable {A R : Type}

def Node.new [Zero R] (parent : Option Nat) (actionSpace : Dict A Bool) (isTerminal : Option Bool)
    (fromAction : Option A) : Node A R where
  children := []
  numVisit := 0
  reward := 0
  parent := parent
  actionSpace := actionSpace
  isTerminal := isTerminal.getD (actionSpace.length == 0)
  fromAction := fromAction

def Node.allExpanded (node : Node A R) : Bool := node.children.length == node.actionSpace.length

def Node.visit [Add R] (reward : R) (node : Node A R) : Node A R :=
  { node with numVisit := node.numVisit + 1, reward := node.reward + reward }

def Tree.checkAndUpdateIsFullyExpanded (tree : Tree A R) (id : Nat) (node : Node A R) : Tree A R :=
  { tree with isFullyExpanded := fun other => if other = id then node.allExpanded else tree.isFullyExpanded other }

def attach [Zero R] (nodes : List (Node A R)) (id : Nat) (node : Node A R) (expansion : Expansion A) :
    List (Node A R) :=
  nodes.set id { node with actionSpace := expansion.explored, children := node.children ++ [nodes.length] } ++
    [Node.new (some id) expansion.actionSpace expansion.isTerminal (some expansion.action)]

def Tree.attach [Zero R] (tree : Tree A R) (id : Nat) (node : Node A R) (expansion : Expansion A) : Tree A R where
  nodes := SearchTree.attach tree.nodes id node expansion
  isFullyExpanded := fun other =>
    if other = tree.nodes.length then expansion.actionSpace.length == 0 else tree.isFullyExpanded other

def descend [Zero R] (moves : Moves A R) : Nat → Tree A R → Nat → Except Failure (Tree A R × List Nat)
  | 0, _, _ => .error .endless
  | fuel + 1, tree, id =>
    match tree.nodes[id]? with
    | none => .error .dangling
    | some node =>
      if node.isTerminal then .ok (tree, [id])
      else
        let tree := tree.checkAndUpdateIsFullyExpanded id node
        if tree.isFullyExpanded id then
          match moves.select id tree.nodes node with
          | .error failure => .error failure
          | .ok child =>
            match descend moves fuel tree child with
            | .error failure => .error failure
            | .ok (after, path) => .ok (after, id :: path)
        else
          match moves.expand id node with
          | .error failure => .error failure
          | .ok expansion => .ok (tree.attach id node expansion, [id, tree.nodes.length])

def backPropagate [Add R] (reward : R) : Nat → List (Node A R) → Option Nat → Except Failure (List (Node A R))
  | _, nodes, none => .ok nodes
  | 0, _, some _ => .error .endless
  | fuel + 1, nodes, some id =>
    match nodes[id]? with
    | none => .error .dangling
    | some node => backPropagate reward fuel (nodes.set id (node.visit reward)) node.parent

def iterate [Zero R] [Add R] (moves : Moves A R) (reward : R) (tree : Tree A R) :
    Except Failure (Tree A R × List Nat) :=
  match descend moves tree.nodes.length tree 0 with
  | .error failure => .error failure
  | .ok (tree, path) =>
    match backPropagate reward tree.nodes.length tree.nodes path.getLast? with
    | .error failure => .error failure
    | .ok nodes => .ok ({ tree with nodes := nodes }, path)

abbrev Log (R : Type) := List (List Nat × R)

def train [Zero R] [Add R] : List (Moves A R × R) → Tree A R × Log R → Except Failure (Tree A R × Log R)
  | [], state => .ok state
  | (moves, reward) :: rest, (tree, log) =>
    match iterate moves reward tree with
    | .error failure => .error failure
    | .ok (after, path) => train rest (after, log ++ [(path, reward)])

def fresh [Zero R] (actionSpace : Dict A Bool) (isTerminal : Option Bool) : Tree A R where
  nodes := [Node.new none actionSpace isTerminal none]
  isFullyExpanded := fun _ => actionSpace.length == 0

@[simp] theorem checkAndUpdate_nodes (tree : Tree A R) (id : Nat) (node : Node A R) :
    (tree.checkAndUpdateIsFullyExpanded id node).nodes = tree.nodes := rfl

@[simp] theorem checkAndUpdate_flag (tree : Tree A R) (id : Nat) (node : Node A R) :
    (tree.checkAndUpdateIsFullyExpanded id node).isFullyExpanded id = node.allExpanded := by
  simp [Tree.checkAndUpdateIsFullyExpanded]

variable [Zero R]

def grown (nodes : List (Node A R)) : Option (Nat × Node A R × Expansion A) → List (Node A R)
  | none => nodes
  | some (id, node, expansion) => attach nodes id node expansion

/-- How a descent comes to its end: at a terminal node, or with a new child of a node that is not
fully expanded, after selections in nodes that are. -/
inductive Descends (moves : Moves A R) (nodes : List (Node A R)) :
    Nat → List Nat → Option (Nat × Node A R × Expansion A) → Prop where
  | stop {id : Nat} {node : Node A R} (found : nodes[id]? = some node) (terminal : node.isTerminal = true) :
      Descends moves nodes id [id] none
  | grow {id : Nat} {node : Node A R} {expansion : Expansion A} (found : nodes[id]? = some node)
      (inner : node.isTerminal = false) (room : node.allExpanded = false)
      (expanded : moves.expand id node = .ok expansion) :
      Descends moves nodes id [id, nodes.length] (some (id, node, expansion))
  | pass {id child : Nat} {node : Node A R} {path : List Nat} {growth : Option (Nat × Node A R × Expansion A)}
      (found : nodes[id]? = some node) (inner : node.isTerminal = false) (full : node.allExpanded = true)
      (selected : moves.select id nodes node = .ok child)
      (below : Descends moves nodes child path growth) :
      Descends moves nodes id (id :: path) growth

variable {moves : Moves A R} {fuel id : Nat} {tree after : Tree A R} {path : List Nat}

/-- What a round of the loop can do: stop at a terminal node, go on in a selected child, or add one. -/
theorem descend_succ_cases (success : descend moves (fuel + 1) tree id = .ok (after, path)) :
    ∃ node, tree.nodes[id]? = some node ∧
      ((node.isTerminal = true ∧ after = tree ∧ path = [id]) ∨
        (node.isTerminal = false ∧ node.allExpanded = true ∧ ∃ child below,
          moves.select id tree.nodes node = .ok child ∧
          descend moves fuel (tree.checkAndUpdateIsFullyExpanded id node) child = .ok (after, below) ∧
          path = id :: below) ∨
        (node.isTerminal = false ∧ node.allExpanded = false ∧ ∃ expansion, moves.expand id node = .ok expansion ∧
          after = (tree.checkAndUpdateIsFullyExpanded id node).attach id node expansion ∧
          path = [id, tree.nodes.length])) := by
  unfold descend at success
  split at success
  · simp at success
  · next node found =>
      refine ⟨node, found, ?_⟩
      by_cases terminal : node.isTerminal = true
      · simp only [terminal, if_true, Except.ok.injEq, Prod.mk.injEq] at success
        exact .inl ⟨terminal, success.1.symm, success.2.symm⟩
      · have inner : node.isTerminal = false := by simpa using terminal
        right
        simp only [inner, Bool.false_eq_true, if_false, checkAndUpdate_flag, checkAndUpdate_nodes] at success
        split at success
        · next full =>
            split at success
            · simp at success
            · next child selected =>
                split at success
                · simp at success
                · next below outcome =>
                    cases success
                    exact .inl ⟨inner, full, child, below, selected, outcome, rfl⟩
        · next room =>
            split at success
            · simp at success
            · next expansion expanded =>
                cases success
                exact .inr ⟨inner, by simpa using room, expansion, expanded, rfl, rfl⟩

theorem descends_of_descend (success : descend moves fuel tree id = .ok (after, path)) :
    ∃ growth, Descends moves tree.nodes id path growth ∧ after.nodes = grown tree.nodes growth := by
  induction fuel generalizing id tree after path with
  | zero => simp [descend] at success
  | succ fuel ih =>
    obtain ⟨node, found, ⟨terminal, rfl, rfl⟩ | ⟨inner, full, child, below, selected, outcome, rfl⟩ |
      ⟨inner, room, expansion, expanded, rfl, rfl⟩⟩ := descend_succ_cases success
    · exact ⟨none, .stop found terminal, rfl⟩
    · obtain ⟨growth, descends, nodes⟩ := ih outcome
      exact ⟨growth, .pass found inner full selected descends, nodes⟩
    · exact ⟨_, .grow found inner room expanded, rfl⟩

end CactusDB.Mcts.SearchTree
