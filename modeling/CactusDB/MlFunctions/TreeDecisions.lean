import CactusDB.Library.DecimalNumerals
import CactusDB.MlFunctions.TreeDump

/-! A decision tree, its dump, and the array that the parser makes of the dump. -/

namespace CactusDB.MlFunctions.TreeDecisions
open Library TextScan DecimalNumerals KeyedWrites DecisionTree TreeDump List DumpLine

variable {K : Type}

/-- A binary decision tree with the numerals that its dump shows. A missing feature goes to the yes side
or to the no side. -/
inductive SplitTree (K : Type) where
  | leaf (id : Nat) (numeral : Text) (value : K)
  | node (id index : Nat) (numeral : Text) (threshold : K) (missingYes : Bool) (yes no : SplitTree K)

namespace SplitTree

def id : SplitTree K → Nat
  | leaf id _ _ => id
  | node id _ _ _ _ _ _ => id

def subtrees : SplitTree K → List (SplitTree K)
  | tree@(leaf _ _ _) => [tree]
  | tree@(node _ _ _ _ _ yes no) => tree :: (yes.subtrees ++ no.subtrees)

def ids (tree : SplitTree K) : List Nat := tree.subtrees.map id

def nodeLine : SplitTree K → DumpLine
  | leaf id numeral _ => .leaf id numeral
  | node id index numeral _ _ _ _ => .inner id index numeral

def edgeLines : SplitTree K → List DumpLine
  | leaf _ _ _ => []
  | node id _ _ _ missingYes yes no => [.edge id yes.id true missingYes, .edge id no.id false (!missingYes)]

section

variable [LinearOrder K]

def goesYes (threshold : K) (missingYes : Bool) : Option K → Bool
  | some feature => decide (feature < threshold)
  | none => missingYes

def select (features : Int → Option K) : SplitTree K → SplitTree K
  | tree@(leaf _ _ _) => tree
  | node _ index _ threshold missingYes yes no =>
    if goesYes threshold missingYes (features index) then yes.select features else no.select features

/-- No test on the way of the tree takes a missing feature to the yes side. -/
def MissingGoesNo (features : Int → Option K) : SplitTree K → Prop
  | leaf _ _ _ => True
  | node _ index _ threshold missingYes yes no => (features index = none → missingYes = false) ∧
    if goesYes threshold missingYes (features index) then yes.MissingGoesNo features else no.MissingGoesNo features

theorem missingGoesNo_of_present {features : Int → Option K} (present : ∀ index, (features index).isSome)
    (tree : SplitTree K) : tree.MissingGoesNo features := by
  induction tree with
  | leaf => trivial
  | node id index numeral threshold missingYes yes no yesHyp noHyp =>
    refine ⟨fun missing => ?_, by split <;> assumption⟩
    have known := present index
    rw [missing] at known
    cases known

end

def height : SplitTree K → Nat
  | leaf _ _ _ => 0
  | node _ _ _ _ _ yes no => max yes.height no.height + 1

end SplitTree

open SplitTree (subtrees nodeLine edgeLines goesYes)

/-- The trees that a dump can show: the root is node 0, the nodes have numbers of their own below the
limit, and the numeral of a threshold denotes it. -/
structure Dumped (stod : Text → Except Failure K) (tree : SplitTree K) : Prop where
  root : tree.id = 0
  distinct : tree.ids.Nodup
  limit : ∀ id ∈ tree.ids, id < maxNumNodesPerTree
  numerals : ∀ subtree ∈ tree.subtrees, subtree.nodeLine.isPlain = true
  thresholds : ∀ id index numeral threshold missingYes yes no,
    SplitTree.node id index numeral threshold missingYes yes no ∈ tree.subtrees → stod numeral = .ok threshold

structure IsDump (tree : SplitTree K) (lines : List DumpLine) : Prop where
  nodes : (linesWith .innerNode lines ++ linesWith .leafNode lines).Perm (tree.subtrees.map nodeLine)
  edges : ∀ parent, ((linesWith .relationship lines).filter fun line => line.target = parent) =
    (tree.subtrees.flatMap edgeLines).filter fun line => line.target = parent

section

def dumpLines (nodes : List (SplitTree K)) : List DumpLine :=
  nodes.flatMap fun node => node.nodeLine :: (node.edgeLines ++ [.blank])

def SplitTree.dump (tree : SplitTree K) : List DumpLine :=
  .opening :: .graph :: .blank :: (dumpLines tree.subtrees ++ [.closing])

variable (lineClass : LineClass)

theorem linesWith_append (first second : List DumpLine) :
    linesWith lineClass (first ++ second) = linesWith lineClass first ++ linesWith lineClass second :=
  filter_append ..

theorem linesWith_edgeLines (node : SplitTree K) : linesWith .relationship node.edgeLines = node.edgeLines ∧
    linesWith .innerNode node.edgeLines = [] ∧ linesWith .leafNode node.edgeLines = [] := by
  cases node <;> exact ⟨rfl, rfl, rfl⟩

theorem dumpLines_cons (node : SplitTree K) (rest : List (SplitTree K)) :
    dumpLines (node :: rest) = [node.nodeLine] ++ (node.edgeLines ++ ([.blank] ++ dumpLines rest)) := by
  simp [dumpLines]

variable (nodes : List (SplitTree K))

theorem linesWith_dumpLines_edges :
    linesWith .relationship (dumpLines nodes) = nodes.flatMap edgeLines := by
  induction nodes with
  | nil => rfl
  | cons node rest ih =>
    have own : linesWith .relationship [node.nodeLine] = [] := by cases node <;> rfl
    rw [dumpLines_cons, linesWith_append, linesWith_append, linesWith_append, own, (linesWith_edgeLines node).1, ih]
    rfl

theorem linesWith_dumpLines_nodes :
    (linesWith .innerNode (dumpLines nodes) ++ linesWith .leafNode (dumpLines nodes)).Perm
      (nodes.map nodeLine) := by
  induction nodes with
  | nil => exact .refl _
  | cons node rest ih =>
    obtain ⟨_, noInner, noLeaf⟩ := linesWith_edgeLines node
    simp only [dumpLines_cons, linesWith_append, noInner, noLeaf, map_cons]
    cases node with
    | leaf id numeral value => exact perm_middle.trans (ih.cons _)
    | node id index numeral threshold missingYes yes no => exact ih.cons _

theorem linesWith_dump (tree : SplitTree K) :
    linesWith lineClass tree.dump = linesWith lineClass (dumpLines tree.subtrees) := by
  have whole : tree.dump = [.opening, .graph, .blank] ++ (dumpLines tree.subtrees ++ [.closing]) := rfl
  rw [whole, linesWith_append, linesWith_append]
  exact append_nil _

/-- Every tree has a dump. -/
theorem isDump_dump (tree : SplitTree K) : IsDump tree tree.dump where
  nodes := by
    rw [linesWith_dump, linesWith_dump]
    exact linesWith_dumpLines_nodes tree.subtrees
  edges parent := by rw [linesWith_dump, linesWith_dumpLines_edges]

end

section

theorem target_nodeLine (tree : SplitTree K) : tree.nodeLine.target = tree.id := by
  cases tree <;> rfl

theorem target_edgeLines {tree : SplitTree K} {line : DumpLine} (mem : line ∈ tree.edgeLines) :
    line.target = tree.id := by
  cases tree with
  | leaf id numeral value => cases mem
  | node id index numeral threshold missingYes yes no =>
    simp only [edgeLines, mem_cons, not_mem_nil, or_false] at mem
    rcases mem with rfl | rfl <;> rfl

theorem mem_subtrees_self (tree : SplitTree K) : tree ∈ tree.subtrees := by
  cases tree <;> simp [subtrees]

theorem mem_subtrees_yes {tree : SplitTree K} {id index : Nat} {numeral : Text} {threshold : K} {missingYes : Bool}
    {yes no : SplitTree K} (mem : SplitTree.node id index numeral threshold missingYes yes no ∈ tree.subtrees) :
    yes ∈ tree.subtrees ∧ no ∈ tree.subtrees := by
  induction tree with
  | leaf => simp [subtrees] at mem
  | node otherId otherIndex otherNumeral otherThreshold otherMissing left right leftHyp rightHyp =>
    simp only [subtrees, mem_cons, mem_append] at mem ⊢
    rcases mem with same | inLeft | inRight
    · cases same
      exact ⟨.inr (.inl (mem_subtrees_self _)), .inr (.inr (mem_subtrees_self _))⟩
    · exact ⟨.inr (.inl (leftHyp inLeft).1), .inr (.inl (leftHyp inLeft).2)⟩
    · exact ⟨.inr (.inr (rightHyp inRight).1), .inr (.inr (rightHyp inRight).2)⟩

variable {tree : SplitTree K} {lines : List DumpLine} {line : DumpLine}

theorem exists_subtree_of_nodeLine (dump : IsDump tree lines) (mem : line ∈ lines)
    (node : line.lineClass = some .innerNode ∨ line.lineClass = some .leafNode) :
    ∃ subtree ∈ tree.subtrees, subtree.nodeLine = line := by
  apply mem_map.mp
  rw [← dump.nodes.mem_iff, mem_append]
  rcases node with inner | leaf
  · exact .inl (mem_filter.mpr ⟨mem, by simpa using inner⟩)
  · exact .inr (mem_filter.mpr ⟨mem, by simpa using leaf⟩)

theorem exists_subtree_of_edgeLine (dump : IsDump tree lines) (mem : line ∈ lines)
    (edge : line.lineClass = some .relationship) : ∃ subtree ∈ tree.subtrees, line ∈ subtree.edgeLines := by
  apply mem_flatMap.mp
  have inDump : line ∈ (linesWith .relationship lines).filter fun other => other.target = line.target :=
    mem_filter.mpr ⟨mem_filter.mpr ⟨mem, by simpa using edge⟩, by simp⟩
  rw [dump.edges] at inDump
  exact mem_of_mem_filter inDump

variable {subtree : SplitTree K}

theorem mem_of_nodeLine (dump : IsDump tree lines) (mem : subtree ∈ tree.subtrees) : subtree.nodeLine ∈ lines := by
  have inTree : subtree.nodeLine ∈ tree.subtrees.map nodeLine := mem_map_of_mem mem
  rw [← dump.nodes.mem_iff, mem_append] at inTree
  rcases inTree with inner | leaf
  · exact mem_of_mem_filter inner
  · exact mem_of_mem_filter leaf

variable {stod : Text → Except Failure K}

variable (dumped : Dumped stod tree)
include dumped

theorem isPlain_of_dump (dump : IsDump tree lines) : ∀ line ∈ lines, line.isPlain = true := by
  intro line mem
  cases line with
  | inner id index numeral =>
    obtain ⟨subtree, inTree, same⟩ := exists_subtree_of_nodeLine dump mem (.inl rfl)
    exact same ▸ dumped.numerals subtree inTree
  | leaf id numeral =>
    obtain ⟨subtree, inTree, same⟩ := exists_subtree_of_nodeLine dump mem (.inr rfl)
    exact same ▸ dumped.numerals subtree inTree
  | _ => rfl

theorem limit_of_subtree (mem : subtree ∈ tree.subtrees) :
    subtree.id < maxNumNodesPerTree := dumped.limit subtree.id (mem_map_of_mem mem)

variable (dump : IsDump tree lines)
include dump

theorem target_of_dump : ∀ line ∈ lines, line.target < maxNumNodesPerTree := by
  intro line mem
  cases line with
  | inner id index numeral =>
    obtain ⟨subtree, inTree, same⟩ := exists_subtree_of_nodeLine dump mem (.inl rfl)
    rw [← same, target_nodeLine]
    exact limit_of_subtree dumped inTree
  | leaf id numeral =>
    obtain ⟨subtree, inTree, same⟩ := exists_subtree_of_nodeLine dump mem (.inr rfl)
    rw [← same, target_nodeLine]
    exact limit_of_subtree dumped inTree
  | edge parent child yes missing =>
    obtain ⟨subtree, inTree, inEdges⟩ := exists_subtree_of_edgeLine dump mem rfl
    rw [target_edgeLines inEdges]
    exact limit_of_subtree dumped inTree
  | _ => decide

/-- An edge leads from one node of the tree to another one. -/
theorem readable_edge (mem : line ∈ lines) (edge : line.lineClass = some .relationship) : line.Readable stod := by
  obtain ⟨subtree, inTree, inEdges⟩ := exists_subtree_of_edgeLine dump mem edge
  cases subtree with
  | leaf id numeral value => cases inEdges
  | node id index numeral threshold missingYes yes no =>
    have parent := limit_of_subtree dumped inTree
    have left := limit_of_subtree dumped (mem_subtrees_yes inTree).1
    have right := limit_of_subtree dumped (mem_subtrees_yes inTree).2
    simp only [edgeLines, mem_cons, not_mem_nil, or_false] at inEdges
    rcases inEdges with rfl | rfl
    · exact ⟨parent, left⟩
    · exact ⟨parent, right⟩

theorem readable_of_dump
    (readable : ∀ subtree ∈ tree.subtrees, subtree.nodeLine.Readable stod) : ∀ line ∈ lines, line.Readable stod := by
  intro line mem
  cases line with
  | inner id index numeral =>
    obtain ⟨subtree, inTree, same⟩ := exists_subtree_of_nodeLine dump mem (.inl rfl)
    exact same ▸ readable subtree inTree
  | leaf id numeral =>
    obtain ⟨subtree, inTree, same⟩ := exists_subtree_of_nodeLine dump mem (.inr rfl)
    exact same ▸ readable subtree inTree
  | edge parent child yes missing => exact readable_edge dumped dump mem rfl
  | _ => trivial

/-- A node sees its own line and then its edges. -/
theorem processed_at (mem : subtree ∈ tree.subtrees) :
    ((processed lines).filter fun line => line.target = subtree.id) = subtree.nodeLine :: subtree.edgeLines := by
  have nodes : ((linesWith .innerNode lines ++ linesWith .leafNode lines).filter fun line => line.target = subtree.id) =
      [subtree.nodeLine] := by
    have inTree : ((tree.subtrees.map nodeLine).filter fun line => line.target = subtree.id) =
        [subtree.nodeLine] := by
      rw [map_eq_flatMap]
      apply filter_flatMap_key dumped.distinct _ mem
      intro owner _ line here
      rw [mem_singleton.mp here, target_nodeLine]
    have permuted := dump.nodes.filter fun line => line.target = subtree.id
    rw [inTree] at permuted
    exact perm_singleton.mp permuted
  have edges : ((linesWith .relationship lines).filter fun line => line.target = subtree.id) = subtree.edgeLines := by
    rw [dump.edges]
    exact filter_flatMap_key dumped.distinct (fun owner _ line here => target_edgeLines here) mem
  rw [processed, ← append_assoc, filter_append, nodes, edges]
  rfl

end

section

variable {stod : Text → Except Failure K} {tree : SplitTree K} {array : Nodes K}

/-- The array holds the tree: each leaf with what was read of its numeral, each inner node with its
threshold, its children and its missing flag. -/
def Holds (stod : Text → Except Failure K) (array : Nodes K) : SplitTree K → Prop
  | .leaf id numeral _ => ∃ leafValue, stod (leafPart numeral) = .ok leafValue ∧ array id = leafNode leafValue
  | .node id index _ threshold missingYes yes no =>
    array id = ⟨threshold, index, yes.id, no.id, false, missingYes⟩ ∧ Holds stod array yes ∧ Holds stod array no

theorem addEdge_both (index : Nat) (threshold : K) (missingYes : Bool) (yes no : Nat) :
    ((innerNode (index : Int) threshold).addEdge (true && missingYes) yes).addEdge (false && !missingYes) no =
      ⟨threshold, index, yes, no, false, missingYes⟩ := by
  have taken : (yes : Int) ≠ -1 := by omega
  cases missingYes <;> simp [Node.addEdge, innerNode, taken]

theorem holds_of_dump (dumped : Dumped stod tree) {lines : List DumpLine} (dump : IsDump tree lines)
    (readable : ∀ subtree ∈ tree.subtrees, subtree.nodeLine.Readable stod) (memory : Nodes K) {subtree : SplitTree K}
    (mem : subtree ∈ tree.subtrees) :
    Holds stod (amend target (write stod) memory (processed lines)) subtree := by
  induction subtree with
  | leaf id numeral value =>
    obtain ⟨_, leafValue, read⟩ := readable _ mem
    refine ⟨leafValue, read, ?_⟩
    have own := processed_at dumped dump mem
    rw [SplitTree.id] at own
    rw [amend_apply, own]
    simp only [nodeLine, edgeLines, foldl_cons, foldl_nil, write, read]
  | node id index numeral threshold missingYes yes no yesHyp noHyp =>
    have read := dumped.thresholds _ _ _ _ _ _ _ mem
    have own := processed_at dumped dump mem
    rw [SplitTree.id] at own
    refine ⟨?_, yesHyp (mem_subtrees_yes mem).1, noHyp (mem_subtrees_yes mem).2⟩
    rw [amend_apply, own]
    simp only [nodeLine, edgeLines, foldl_cons, foldl_nil, write, read]
    exact addEdge_both index threshold missingYes yes.id no.id

variable {next : Node K → Option K → Int} {features : Int → Option K}

theorem follow_leaf {id : Nat} (limit : id < maxNumNodesPerTree) (leaf : (array id).isLeaf = true) (rounds : Nat) :
    follow next array features (rounds + 1) id = some id := by
  have within : inside (id : Int) := ⟨by omega, by omega⟩
  rw [follow, if_pos within, Int.toNat_natCast]
  simp [leaf]

theorem follow_inner {id : Nat} (limit : id < maxNumNodesPerTree) (inner : (array id).isLeaf = false) (rounds : Nat) :
    follow next array features (rounds + 1) id =
      follow next array features rounds (next (array id) (features (array id).indexID)) := by
  have within : inside (id : Int) := ⟨by omega, by omega⟩
  rw [follow, if_pos within, Int.toNat_natCast]
  simp [inner]

variable [LinearOrder K]

/-- On the way of the tree, the links are followed as the tree decides. -/
def AgreesOn (next : Node K → Option K → Int) (features : Int → Option K) : SplitTree K → Prop
  | .leaf _ _ _ => True
  | .node _ index _ threshold missingYes yes no =>
    (∀ left right : Int, next ⟨threshold, index, left, right, false, missingYes⟩ (features index) =
      if goesYes threshold missingYes (features index) then left else right) ∧
    if goesYes threshold missingYes (features index) then AgreesOn next features yes else AgreesOn next features no

theorem nextNodeMissing_agrees (features : Int → Option K) (tree : SplitTree K) :
    AgreesOn nextNodeMissing features tree := by
  induction tree with
  | leaf => trivial
  | node id index numeral threshold missingYes yes no yesHyp noHyp =>
    refine ⟨fun left right => ?_, by split <;> assumption⟩
    cases features index with
    | none => rfl
    | some value => simp [nextNodeMissing, goesYes]

theorem nextNode_agrees {tree : SplitTree K} (known : tree.MissingGoesNo features) :
    AgreesOn nextNode features tree := by
  induction tree with
  | leaf => trivial
  | node id index numeral threshold missingYes yes no yesHyp noHyp =>
    obtain ⟨here, below⟩ := known
    refine ⟨fun left right => ?_, ?_⟩
    · cases feature : features index with
      | none => rw [here feature]; rfl
      | some value => simp [nextNode, goesYes]
    · split at below
      case isTrue goes =>
        rw [if_pos goes]
        exact yesHyp below
      case isFalse goes =>
        rw [if_neg goes]
        exact noHyp below

/-- From the root of a tree that the array holds, the links lead to the leaf that the tree selects. -/
theorem follow_holds
    (agrees : AgreesOn next features tree) (limit : ∀ subtree ∈ tree.subtrees, subtree.id < maxNumNodesPerTree)
    (held : Holds stod array tree) {rounds : Nat} (enough : tree.height < rounds) :
    follow next array features rounds tree.id = some (tree.select features).id := by
  induction tree generalizing rounds with
  | leaf id numeral value =>
    obtain ⟨leafValue, _, stored⟩ := held
    have bound : id < maxNumNodesPerTree := limit _ (mem_subtrees_self _)
    cases rounds with
    | zero => omega
    | succ rounds => exact follow_leaf bound (by rw [stored]; rfl) rounds
  | node id index numeral threshold missingYes yes no yesHyp noHyp =>
    obtain ⟨stored, yesHeld, noHeld⟩ := held
    obtain ⟨here, below⟩ := agrees
    have bound : id < maxNumNodesPerTree := limit _ (mem_subtrees_self _)
    have yesLimit : ∀ subtree ∈ yes.subtrees, subtree.id < maxNumNodesPerTree :=
      fun subtree mem => limit subtree (by simp [subtrees, mem])
    have noLimit : ∀ subtree ∈ no.subtrees, subtree.id < maxNumNodesPerTree :=
      fun subtree mem => limit subtree (by simp [subtrees, mem])
    rw [SplitTree.height] at enough
    cases rounds with
    | zero => omega
    | succ rounds =>
      rw [SplitTree.id, follow_inner bound (by rw [stored]), stored, SplitTree.select]
      simp only [here yes.id no.id]
      cases goes : goesYes threshold missingYes (features index) with
      | true =>
        rw [goes] at below
        exact yesHyp below yesLimit yesHeld (by omega)
      | false =>
        rw [goes] at below
        exact noHyp below noLimit noHeld (by omega)

theorem mem_ids_select (tree : SplitTree K) : (tree.select features).id ∈ tree.ids := by
  induction tree with
  | leaf id numeral value => exact mem_cons_self
  | node id index numeral threshold missingYes yes no yesHyp noHyp =>
    rw [SplitTree.ids, subtrees, map_cons, map_append, SplitTree.select]
    split
    · exact mem_cons_of_mem _ (mem_append_left _ yesHyp)
    · exact mem_cons_of_mem _ (mem_append_right _ noHyp)

theorem nextNode_child (node : Node K) (feature : Option K) :
    nextNode node feature = node.leftChild ∨ nextNode node feature = node.rightChild := by
  cases feature with
  | none => exact .inr rfl
  | some value =>
    rw [nextNode]
    split
    · exact .inl rfl
    · exact .inr rfl

/-- The links never lead out of a tree. -/
theorem follow_mem_ids (limit : ∀ subtree ∈ tree.subtrees, subtree.id < maxNumNodesPerTree)
    (held : Holds stod array tree) {rounds found : Nat}
    (ended : follow nextNode array features rounds tree.id = some found) : found ∈ tree.ids := by
  induction tree generalizing rounds with
  | leaf id numeral value =>
    obtain ⟨leafValue, _, stored⟩ := held
    have bound : id < maxNumNodesPerTree := limit _ (mem_subtrees_self _)
    cases rounds with
    | zero => cases ended
    | succ rounds =>
      rw [SplitTree.id, follow_leaf bound (by rw [stored]; rfl) rounds] at ended
      rw [← Option.some.inj ended]
      exact mem_cons_self
  | node id index numeral threshold missingYes yes no yesHyp noHyp =>
    obtain ⟨stored, yesHeld, noHeld⟩ := held
    have bound : id < maxNumNodesPerTree := limit _ (mem_subtrees_self _)
    rw [SplitTree.ids, subtrees, map_cons, map_append]
    apply mem_cons_of_mem
    cases rounds with
    | zero => cases ended
    | succ rounds =>
      rw [SplitTree.id, follow_inner bound (by rw [stored]), stored] at ended
      rcases nextNode_child ⟨threshold, index, yes.id, no.id, false, missingYes⟩ (features index) with left | right
      · rw [left] at ended
        exact mem_append_left _ (yesHyp (fun subtree mem => limit subtree (by simp [subtrees, mem])) yesHeld ended)
      · rw [right] at ended
        exact mem_append_right _ (noHyp (fun subtree mem => limit subtree (by simp [subtrees, mem])) noHeld ended)

/-- A missing feature that the tree takes to the yes side leads the links to another leaf. -/
theorem missingGoesNo_of_follow (distinct : tree.ids.Nodup)
    (limit : ∀ subtree ∈ tree.subtrees, subtree.id < maxNumNodesPerTree) (held : Holds stod array tree) {rounds : Nat}
    (same : follow nextNode array features rounds tree.id = some (tree.select features).id) :
    tree.MissingGoesNo features := by
  induction tree generalizing rounds with
  | leaf => trivial
  | node id index numeral threshold missingYes yes no yesHyp noHyp =>
    obtain ⟨stored, yesHeld, noHeld⟩ := held
    have bound : id < maxNumNodesPerTree := limit _ (mem_subtrees_self _)
    have yesLimit : ∀ subtree ∈ yes.subtrees, subtree.id < maxNumNodesPerTree :=
      fun subtree mem => limit subtree (by simp [subtrees, mem])
    have noLimit : ∀ subtree ∈ no.subtrees, subtree.id < maxNumNodesPerTree :=
      fun subtree mem => limit subtree (by simp [subtrees, mem])
    rw [SplitTree.ids, subtrees, map_cons, map_append, nodup_cons] at distinct
    obtain ⟨yesDistinct, noDistinct, apart⟩ := nodup_append.mp distinct.2
    cases rounds with
    | zero => cases same
    | succ rounds =>
      rw [SplitTree.id, follow_inner bound (by rw [stored]), stored, SplitTree.select] at same
      cases feature : features index with
      | none =>
        rw [feature] at same
        cases missingYes with
        | true =>
          -- the tree goes to the yes side, the links to the no side
          have inNo := follow_mem_ids noLimit noHeld same
          exact absurd rfl (apart _ (mem_ids_select yes) _ inNo)
        | false => exact ⟨fun _ => rfl, by rw [feature]; exact noHyp noDistinct noLimit noHeld same⟩
      | some value =>
        rw [feature] at same
        refine ⟨fun missing => absurd (feature.symm.trans missing) (Option.some_ne_none value), ?_⟩
        rw [feature]
        by_cases less : value < threshold
        · simp only [nextNode, goesYes, less, decide_true, if_true] at same ⊢
          exact yesHyp yesDistinct yesLimit yesHeld same
        · simp only [nextNode, goesYes, less, decide_false, if_false] at same ⊢
          exact noHyp noDistinct noLimit noHeld same

end

variable [LinearOrder K] {stod : Text → Except Failure K} {tree : SplitTree K} {lines : List DumpLine}

/-- `predictMissing` comes to the leaf that the tree selects. -/
def MissingDecides (tree : SplitTree K) (features : Int → Option K) (array : Nodes K) : Prop :=
  ∀ rounds > tree.height, followMissing array features rounds = some (tree.select features).id

/-- So do `predictSingle` and `predict`. -/
def SingleDecides (tree : SplitTree K) (features : Int → Option K) (array : Nodes K) : Prop :=
  ∀ rounds > tree.height, followSingle array features rounds = some (tree.select features).id

section

variable {array : Nodes K} (dumped : Dumped stod tree) (held : Holds stod array tree) (features : Int → Option K)
include dumped held

theorem missingDecides_of_holds : MissingDecides tree features array := by
  intro rounds enough
  have root : (0 : Int) = tree.id := by rw [dumped.root]; rfl
  rw [followMissing, root]
  exact follow_holds (nextNodeMissing_agrees features tree) (fun subtree mem => limit_of_subtree dumped mem) held enough

theorem singleDecides_iff : SingleDecides tree features array ↔ tree.MissingGoesNo features := by
  have root : (0 : Int) = tree.id := by rw [dumped.root]; rfl
  constructor
  · intro decides
    have same := decides (tree.height + 1) (Nat.lt_succ_self _)
    rw [followSingle, root] at same
    exact missingGoesNo_of_follow dumped.distinct (fun subtree mem => limit_of_subtree dumped mem) held same
  · intro known rounds enough
    rw [followSingle, root]
    exact follow_holds (nextNode_agrees known) (fun subtree mem => limit_of_subtree dumped mem) held enough

end

/-- On a vector with or without missing features, the parsed array makes the decision of the tree exactly when
every line of a node can be read: the index of each test is below `2 ^ 31`, and what is left of each leaf's numeral
without its last three characters is still a number. Where the prediction does not look for missing features, none
is to be taken to the yes side either. -/
theorem parsed_decisions_iff (dumped : Dumped stod tree) (dump : IsDump tree lines) (memory : Nodes K)
    (features : Int → Option K) :
    ((∃ array, constructTreeFromPath stod (lines.map print) memory = .ok array ∧ MissingDecides tree features array) ↔
      ∀ subtree ∈ tree.subtrees, subtree.nodeLine.Readable stod) ∧
    ((∃ array, constructTreeFromPath stod (lines.map print) memory = .ok array ∧ SingleDecides tree features array) ↔
      (∀ subtree ∈ tree.subtrees, subtree.nodeLine.Readable stod) ∧ tree.MissingGoesNo features) := by
  have plain := isPlain_of_dump dumped dump
  have read : ∀ array, constructTreeFromPath stod (lines.map print) memory = .ok array →
      ∀ subtree ∈ tree.subtrees, subtree.nodeLine.Readable stod := by
    intro array done subtree mem
    apply readable_of_construct plain done (target_of_dump dumped dump) (mem_of_nodeLine dump mem)
    cases subtree <;> simp [nodeLine, lineClass]
  have parsed := fun readable => constructTreeFromPath_print plain (readable_of_dump dumped dump readable) memory
  have held := fun readable => holds_of_dump dumped dump readable memory (mem_subtrees_self tree)
  refine ⟨⟨fun ⟨array, done, _⟩ => read array done, fun readable =>
    ⟨_, parsed readable, missingDecides_of_holds dumped (held readable) features⟩⟩, ?_, ?_⟩
  · rintro ⟨array, done, decides⟩
    have readable := read array done
    cases done.symm.trans (parsed readable)
    exact ⟨readable, (singleDecides_iff dumped (held readable) features).mp decides⟩
  · rintro ⟨readable, known⟩
    exact ⟨_, parsed readable, (singleDecides_iff dumped (held readable) features).mpr known⟩

def exactStod (text : Text) : Except Failure ℚ :=
  match readDecimal text with
  | some value => .ok value
  | none => .error .invalidArgument

def sampleTree (yes no : Text) (yesValue noValue : ℚ) : SplitTree ℚ :=
  .node 0 0 "1".toList 1 true (.leaf 1 yes yesValue) (.leaf 2 no noValue)

theorem dumped_sampleTree {yes no : Text} (yesPlain : isNumeral yes = true) (noPlain : isNumeral no = true)
    (yesValue noValue : ℚ) : Dumped exactStod (sampleTree yes no yesValue noValue) where
  root := rfl
  distinct := by
    have ids : (sampleTree yes no yesValue noValue).ids = [0, 1, 2] := rfl
    rw [ids]
    decide
  limit := by
    have ids : (sampleTree yes no yesValue noValue).ids = [0, 1, 2] := rfl
    rw [ids]
    decide
  numerals := by
    intro subtree mem
    simp only [sampleTree, subtrees, cons_append, nil_append, mem_cons, not_mem_nil,
      or_false] at mem
    rcases mem with rfl | rfl | rfl
    · exact (by decide : isNumeral "1".toList = true)
    · exact yesPlain
    · exact noPlain
  thresholds := by
    intro id index numeral threshold missingYes left right mem
    simp only [sampleTree, subtrees, cons_append, nil_append, mem_cons, not_mem_nil,
      or_false, reduceCtorEq, SplitTree.node.injEq] at mem
    obtain ⟨_, _, rfl, rfl, _⟩ := mem
    decide +kernel

def blankNodes : Nodes ℚ := fun _ => leafNode 0

/-- A tree whose leaves are read and that decides as it was dumped, also without the feature, and where no feature
is missing in all predictions. -/
theorem short_leaves_parsed :
    let tree := sampleTree "0.5000".toList "-1".toList (1 / 2) (-1)
    (∃ array, constructTreeFromPath exactStod (tree.dump.map print) blankNodes = .ok array ∧
      MissingDecides tree (fun _ => none) array) ∧
    ∃ array, constructTreeFromPath exactStod (tree.dump.map print) blankNodes = .ok array ∧
      SingleDecides tree (fun _ => some 3) array := by
  intro tree
  have dumped : Dumped exactStod tree := dumped_sampleTree (by decide) (by decide) (1 / 2) (-1)
  have readable : ∀ subtree ∈ tree.subtrees, subtree.nodeLine.Readable exactStod := by
    intro subtree mem
    simp only [tree, sampleTree, subtrees, cons_append, nil_append, mem_cons, not_mem_nil, or_false] at mem
    rcases mem with rfl | rfl | rfl
    · exact ⟨by decide, by decide, 1, by decide +kernel⟩
    · exact ⟨by decide, 1 / 2, by decide +kernel⟩
    · exact ⟨by decide, -1, by decide +kernel⟩
  exact ⟨(parsed_decisions_iff dumped (isDump_dump _) blankNodes _).1.mpr readable,
    (parsed_decisions_iff dumped (isDump_dump _) blankNodes _).2.mpr
      ⟨readable, SplitTree.missingGoesNo_of_present (fun _ => rfl) tree⟩⟩

/-- Nothing is left of the leaf `0.5`, so that its tree is not parsed; and of a tree that is parsed, the
prediction that does not look for missing features takes them to the no side. -/
theorem leaf_numeral_refused : Dumped exactStod (sampleTree "0.5".toList "-1".toList (1 / 2) (-1)) ∧
      (constructTreeFromPath exactStod
        ((sampleTree "0.5".toList "-1".toList (1 / 2) (-1)).dump.map print) blankNodes).map (fun _ => ()) =
          .error .invalidArgument ∧
      (((constructTreeFromPath exactStod
        ((sampleTree "0.5000".toList "-1".toList (1 / 2) (-1)).dump.map print) blankNodes).toOption.bind
          fun array => followSingle array (fun _ => none) 2) = some 2 ∧
        ((sampleTree "0.5000".toList "-1".toList (1 / 2) (-1)).select fun _ => none).id = 1) :=
  ⟨dumped_sampleTree (by decide) (by decide) (1 / 2) (-1), by decide +kernel, by decide +kernel, rfl⟩

end CactusDB.MlFunctions.TreeDecisions
