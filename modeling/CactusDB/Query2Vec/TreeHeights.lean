import Mathlib

/-! The numbering of a plan tree and the heights of its nodes, query2Vec/dataset.py. -/

namespace CactusDB.Query2Vec.TreeHeights
open List

structure TreeNode (α : Type) where
  feature : α
  children : List (TreeNode α)

variable {α : Type}

namespace TreeNode

mutual
/-- The length of the longest way down to a leaf. -/
def height : TreeNode α → Nat
  | ⟨_, children⟩ => heights children
def heights : List (TreeNode α) → Nat
  | [] => 0
  | child :: rest => max (height child + 1) (heights rest)
end

def level (root : TreeNode α) : Nat → List (TreeNode α)
  | 0 => [root]
  | depth + 1 => (level root depth).flatMap TreeNode.children

def levelOrder (root : TreeNode α) : List (TreeNode α) := (range (root.height + 1)).flatMap root.level

end TreeNode

open TreeNode (height level levelOrder)

theorem sum_sizeOf_lt (trees : List (TreeNode α)) : (trees.map sizeOf).sum < sizeOf trees := by
  induction trees with
  | nil => simp
  | cons tree rest ih =>
    simp only [map_cons, sum_cons, cons.sizeOf_spec]
    omega

theorem sum_sizeOf_children (tree : TreeNode α) : (tree.children.map sizeOf).sum < sizeOf tree := by
  obtain ⟨feature, children⟩ := tree
  have below := sum_sizeOf_lt children
  simp only [TreeNode.mk.sizeOf_spec]
  omega

/-- The lists that `topo_sort` returns. -/
structure Topology (α : Type) where
  adjList : List (Nat × Nat)
  numChild : List Nat
  features : List α

def visit (toVisit : List (TreeNode α × Nat)) (nextId : Nat) (topology : Topology α) : Topology α :=
  match toVisit with
  | [] => topology
  | (node, idx) :: rest =>
    let numbered := node.children.zipIdx nextId
    visit (rest ++ numbered) (nextId + node.children.length)
      { adjList := topology.adjList ++ numbered.map fun entry => (idx, entry.2),
        numChild := topology.numChild ++ [node.children.length],
        features := topology.features ++ [node.feature] }
termination_by (toVisit.map fun entry => sizeOf entry.1).sum
decreasing_by
  have less := sum_sizeOf_children node
  rw [← zipIdx_map_fst nextId node.children, map_map] at less
  simp only [map_append, sum_append, map_cons, sum_cons]
  rw [Nat.add_comm]
  exact Nat.add_lt_add_right less _

def topoSort (root : TreeNode α) : Topology α := visit [(root, 0)] 1 ⟨[], [], []⟩

/-- `uneval_nodes` and `node_order`. -/
structure Evaluation where
  unevalNodes : Nat → Bool
  nodeOrder : Nat → Nat

def evalRound (adjList : List (Nat × Nat)) (n : Nat) (now : Evaluation) : Evaluation :=
  let unreadyParents := (adjList.filter fun edge => now.unevalNodes edge.2).map Prod.fst
  let node2eval := fun id => now.unevalNodes id && !unreadyParents.contains id
  { unevalNodes := fun id => now.unevalNodes id && !node2eval id,
    nodeOrder := fun id => if node2eval id then n else now.nodeOrder id }

/-- The `while` loop with a bound on its rounds. -/
def evalRounds (adjList : List (Nat × Nat)) (treeSize : Nat) : Nat → Nat → Evaluation → Option (List Nat)
  | 0, _, _ => none
  | rounds + 1, n, now =>
    if (range treeSize).any now.unevalNodes then evalRounds adjList treeSize rounds (n + 1) (evalRound adjList n now)
    else some ((range treeSize).map now.nodeOrder)

def calculateHeight (adjList : List (Nat × Nat)) (treeSize rounds : Nat) : Option (List Nat) :=
  if treeSize = 1 then some [0]
  else evalRounds adjList treeSize rounds 0 ⟨fun _ => true, fun _ => 0⟩

/-- The features, the heights and the adjacency list. -/
def node2dict (root : TreeNode α) (rounds : Nat) : Option (List α × List Nat × List (Nat × Nat)) :=
  let topology := topoSort root
  (calculateHeight topology.adjList topology.features.length rounds).map fun heights =>
    (topology.features, heights, topology.adjList)

def edges : Nat → Nat → List (TreeNode α) → List (Nat × Nat)
  | _, _, [] => []
  | idx, nextId, node :: rest =>
    (range' nextId node.children.length).map (idx, ·) ++ edges (idx + 1) (nextId + node.children.length) rest

/-- What is in the queue comes first, and behind it the children of all nodes. -/
def BreadthFirst (queue nodes : List (TreeNode α)) : Prop := nodes = queue ++ nodes.flatMap TreeNode.children

theorem BreadthFirst.eq_nil {nodes : List (TreeNode α)} (order : BreadthFirst [] nodes) : nodes = [] := by
  have below (trees : List (TreeNode α)) :
      trees = [] ∨ ((trees.flatMap TreeNode.children).map sizeOf).sum < (trees.map sizeOf).sum := by
    induction trees with
    | nil => exact .inl rfl
    | cons tree rest ih =>
      have less := sum_sizeOf_children tree
      right
      rw [flatMap_cons, map_append, sum_append, map_cons, sum_cons]
      rcases ih with rfl | ih
      · simpa using less
      · omega
  refine (below nodes).resolve_right fun less => ?_
  rw [← nil_append (nodes.flatMap _), ← order] at less
  exact Nat.lt_irrefl _ less

theorem visit_eq {queue nodes : List (TreeNode α)} (order : BreadthFirst queue nodes) (idx : Nat) {nextId : Nat}
    (next : nextId = idx + queue.length) (topology : Topology α) :
    visit (queue.zipIdx idx) nextId topology =
      { adjList := topology.adjList ++ edges idx nextId nodes,
        numChild := topology.numChild ++ nodes.map (·.children.length),
        features := topology.features ++ nodes.map TreeNode.feature } := by
  cases queue with
  | nil =>
    rw [order.eq_nil]
    simp [visit, edges]
  | cons node rest =>
    obtain ⟨later, rfl⟩ : ∃ later, nodes = node :: later := ⟨_, order⟩
    have below : BreadthFirst (rest ++ node.children) later := by
      simpa [BreadthFirst] using (cons.inj order).2
    have queued : (rest ++ node.children).zipIdx (idx + 1) = rest.zipIdx (idx + 1) ++ node.children.zipIdx nextId := by
      rw [zipIdx_append, next, length_cons, Nat.add_right_comm, Nat.add_assoc]
    have ids : (node.children.zipIdx nextId).map (fun entry => (idx, entry.2)) =
        (range' nextId node.children.length).map (idx, ·) := by
      rw [← zipIdx_map_snd, map_map]
      rfl
    rw [length_cons] at next
    rw [zipIdx_cons, visit, ← queued, visit_eq below (idx + 1) (by rw [length_append]; omega), ids]
    simp [edges]
termination_by nodes.length

theorem heights_le_iff (trees : List (TreeNode α)) (n : Nat) :
    TreeNode.heights trees ≤ n ↔ ∀ tree ∈ trees, tree.height < n := by
  induction trees with
  | nil => simp [TreeNode.heights]
  | cons tree rest ih => rw [TreeNode.heights, Nat.max_le, ih, forall_mem_cons, Nat.succ_le_iff]

theorem height_le_iff (tree : TreeNode α) (n : Nat) : tree.height ≤ n ↔ ∀ child ∈ tree.children, child.height < n := by
  obtain ⟨feature, children⟩ := tree
  exact heights_le_iff children n

theorem height_of_mem_level {root node : TreeNode α} {depth : Nat} (mem : node ∈ root.level depth) :
    node.height + depth ≤ root.height := by
  induction depth generalizing node with
  | zero => rw [mem_singleton.mp mem, Nat.add_zero]
  | succ depth ih =>
    obtain ⟨parent, above, child⟩ := mem_flatMap.mp mem
    have less := (height_le_iff parent parent.height).mp le_rfl node child
    have bound := ih above
    omega

theorem levelOrder_breadthFirst (root : TreeNode α) : BreadthFirst [root] root.levelOrder := by
  have empty : root.level (root.height + 1) = [] := by
    refine eq_nil_iff_forall_not_mem.mpr fun node mem => ?_
    have bound := height_of_mem_level mem
    omega
  have shifted : (range (root.height + 1)).flatMap (fun depth => root.level (depth + 1)) =
      (range root.height).flatMap fun depth => root.level (depth + 1) := by
    rw [range_succ, flatMap_append, flatMap_singleton, empty, append_nil]
  unfold BreadthFirst TreeNode.levelOrder
  rw [flatMap_assoc]
  refine Eq.trans ?_ (congrArg ([root] ++ ·) shifted.symm)
  rw [range_succ_eq_map, flatMap_cons, flatMap_map]
  rfl

theorem map_snd_edges (idx nextId : Nat) (nodes : List (TreeNode α)) :
    (edges idx nextId nodes).map Prod.snd = range' nextId (nodes.flatMap TreeNode.children).length := by
  induction nodes generalizing idx nextId with
  | nil => rfl
  | cons node rest ih =>
    rw [edges, map_append, ih, map_map, flatMap_cons, length_append, ← range'_append_1]
    congr 1
    exact map_id _

/-- An edge for each child, in the order of the nodes. -/
def childEdges (nodes : List (TreeNode α)) (idx : Nat) : List (Nat × Option (TreeNode α)) :=
  (nodes.zipIdx idx).flatMap fun entry => entry.1.children.map fun child => (entry.2, some child)

theorem edges_children (before nodes : List (TreeNode α)) (idx : Nat) :
    (edges idx before.length nodes).map
        (fun edge => (edge.1, (before ++ nodes.flatMap TreeNode.children)[edge.2]?)) = childEdges nodes idx := by
  induction nodes generalizing before idx with
  | nil => rfl
  | cons node rest ih =>
    have here : (range' before.length node.children.length).map (fun i =>
        (idx, (before ++ (node.children ++ rest.flatMap TreeNode.children))[i]?)) =
          node.children.map fun child => (idx, some child) := by
      refine ext_getElem (by simp) fun i less _ => ?_
      have inside : i < node.children.length := by simpa using less
      simp [getElem?_append_right, getElem?_append_left, inside]
    have later := ih (before ++ node.children) (idx + 1)
    rw [length_append, append_assoc] at later
    rw [edges, map_append, map_map, flatMap_cons, later]
    exact congrArg (· ++ childEdges rest (idx + 1)) here

section Heights

variable {nodes : List (TreeNode α)} {adjList : List (Nat × Nat)} {n : Nat} {now : Evaluation}

/-- The edges lead from each node to its children. -/
def Links (nodes : List (TreeNode α)) (adjList : List (Nat × Nat)) : Prop :=
  adjList.map (fun edge => (edge.1, nodes[edge.2]?)) = childEdges nodes 0

/-- The nodes that are lower than `n` have their height, the others wait. -/
def EvaluatedBelow (nodes : List (TreeNode α)) (n : Nat) (now : Evaluation) : Prop :=
  ∀ i node, nodes[i]? = some node →
    (now.unevalNodes i = true ↔ n ≤ node.height) ∧ (node.height < n → now.nodeOrder i = node.height)

theorem mem_childEdges {i : Nat} {target : Option (TreeNode α)} :
    (i, target) ∈ childEdges nodes 0 ↔ ∃ node, nodes[i]? = some node ∧ target ∈ node.children.map some := by
  simp only [childEdges, mem_flatMap, mem_map, Prod.mk.injEq]
  constructor
  · rintro ⟨⟨node, _⟩, mem, child, inside, rfl, same⟩
    exact ⟨node, by simpa using mk_mem_zipIdx_iff_getElem?.mp mem, child, inside, same⟩
  · rintro ⟨node, found, child, inside, same⟩
    exact ⟨(node, i), mk_mem_zipIdx_iff_getElem?.mpr found, child, inside, rfl, same⟩

/-- A node is unready exactly when its height is above the round's. -/
theorem unready_iff (links : Links nodes adjList) (before : EvaluatedBelow nodes n now) {i : Nat} {node : TreeNode α}
    (found : nodes[i]? = some node) :
    i ∈ (adjList.filter fun edge => now.unevalNodes edge.2).map Prod.fst ↔ n < node.height := by
  rw [← not_le, height_le_iff]
  constructor
  · intro mem low
    obtain ⟨edge, kept, rfl⟩ := mem_map.mp mem
    obtain ⟨mem, waits⟩ := mem_filter.mp kept
    obtain ⟨_, same, target⟩ := mem_childEdges.mp (links ▸ mem_map_of_mem mem)
    obtain rfl := Option.some.inj (found.symm.trans same)
    obtain ⟨child, inside, same⟩ := mem_map.mp target
    exact absurd ((before edge.2 child same.symm).1.mp waits) (not_le.mpr (low child inside))
  · intro high
    by_contra ready
    refine high fun child inside => ?_
    have linked : (i, some child) ∈ childEdges nodes 0 := mem_childEdges.mpr ⟨node, found, mem_map_of_mem inside⟩
    rw [← links] at linked
    obtain ⟨edge, mem, target⟩ := mem_map.mp linked
    obtain ⟨rfl, same⟩ := Prod.mk.inj target
    by_contra waits
    exact ready (mem_map.mpr ⟨edge, mem_filter.mpr ⟨mem, (before edge.2 child same).1.mpr (not_lt.mp waits)⟩, rfl⟩)

theorem evalRound_evaluates (links : Links nodes adjList) (before : EvaluatedBelow nodes n now) :
    EvaluatedBelow nodes (n + 1) (evalRound adjList n now) := by
  intro i node found
  obtain ⟨waits, done⟩ := before i node found
  have unready := unready_iff links before found
  unfold evalRound
  by_cases high : n < node.height
  · simp [unready.mpr high, waits]
    omega
  · have ready := mt unready.mp high
    refine ⟨by simp [ready]; omega, fun less => ?_⟩
    rcases Nat.lt_or_eq_of_le (Nat.lt_succ_iff.mp less) with low | same
    · simpa [ready, mt waits.mp (not_le.mpr low)] using done low
    · simp [ready, waits.mpr (Nat.le_of_eq same.symm), same]

theorem evalRounds_eq (links : Links nodes adjList) {bound : Nat} (low : ∀ node ∈ nodes, node.height < bound)
    {rounds : Nat} (less : n ≤ bound) (enough : bound < n + rounds) (before : EvaluatedBelow nodes n now) :
    evalRounds adjList nodes.length rounds n now = some (nodes.map height) := by
  induction rounds generalizing n now with
  | zero => omega
  | succ rounds ih =>
    rw [evalRounds]
    split
    case isTrue some =>
      obtain ⟨i, mem, waits⟩ := any_eq_true.mp some
      have found := getElem?_eq_getElem (mem_range.mp mem)
      have high := (before i _ found).1.mp waits
      have below := low _ (getElem_mem (mem_range.mp mem))
      exact ih (by omega) (by omega) (evalRound_evaluates links before)
    case isFalse none =>
      refine congrArg some (ext_getElem (by simp) fun i left right => ?_)
      have inside : i < nodes.length := by simpa using left
      have here := before i _ (getElem?_eq_getElem inside)
      have done : nodes[i].height < n := by
        by_contra high
        exact none (any_eq_true.mpr ⟨i, mem_range.mpr inside, here.1.mpr (not_lt.mp high)⟩)
      simpa using here.2 done

end Heights

theorem topoSort_eq (root : TreeNode α) :
    topoSort root = ⟨edges 0 1 root.levelOrder, root.levelOrder.map (·.children.length),
      root.levelOrder.map TreeNode.feature⟩ :=
  visit_eq (levelOrder_breadthFirst root) 0 rfl ⟨[], [], []⟩

theorem links_levelOrder (root : TreeNode α) : Links root.levelOrder (edges 0 1 root.levelOrder) := by
  have linked := edges_children [root] root.levelOrder 0
  rwa [← levelOrder_breadthFirst root] at linked

theorem calculateHeight_eq (root : TreeNode α) (more : Nat) :
    calculateHeight (edges 0 1 root.levelOrder) root.levelOrder.length (root.height + 2 + more) =
      some (root.levelOrder.map height) := by
  have low : ∀ node ∈ root.levelOrder, node.height < root.height + 1 := by
    intro node mem
    obtain ⟨depth, -, mem⟩ := mem_flatMap.mp mem
    have bound := height_of_mem_level mem
    omega
  unfold calculateHeight
  split
  case isTrue single =>
    have split : root.levelOrder = _ := levelOrder_breadthFirst root
    have none : root.levelOrder.flatMap TreeNode.children = [] := by
      refine length_eq_zero_iff.mp ?_
      have length := congrArg List.length split
      rw [length_append, single, length_singleton] at length
      omega
    rw [none, append_nil] at split
    rw [split, flatMap_singleton] at none
    have zero : root.height = 0 := Nat.le_zero.mp ((height_le_iff root 0).mpr (by simp [none]))
    rw [split, map_singleton, zero]
  case isFalse =>
    exact evalRounds_eq (links_levelOrder root) low (Nat.zero_le _) (by omega) (by simp [EvaluatedBelow])

/-- The nodes are numbered level by level, every node but the root is the end of one edge, the edges lead to the
children, and every node gets its height. -/
theorem node2dict_heights (root : TreeNode α) (more : Nat) :
    let nodes := root.levelOrder
    ∃ adjList, node2dict root (root.height + 2 + more) = some (nodes.map TreeNode.feature, nodes.map height, adjList) ∧
      (topoSort root).numChild = nodes.map (·.children.length) ∧
      adjList.map Prod.snd = range' 1 (nodes.length - 1) ∧ Links nodes adjList := by
  intro nodes
  refine ⟨edges 0 1 nodes, ?_, by rw [topoSort_eq], ?_, links_levelOrder root⟩
  · simp only [node2dict, topoSort_eq, length_map, calculateHeight_eq, Option.map_some, nodes]
  · have length := congrArg List.length (levelOrder_breadthFirst root)
    rw [length_append] at length
    rw [map_snd_edges, show nodes.length - 1 = _ from Nat.sub_eq_of_eq_add' length]

end CactusDB.Query2Vec.TreeHeights
