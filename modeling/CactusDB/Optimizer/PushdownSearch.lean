import CactusDB.Core.Plan
import CactusDB.Library.TextSearch
import Mathlib.Data.List.Nodup

/-! The search for the node that a part of an expression is pushed down to. -/

namespace CactusDB.Optimizer.PushdownSearch
open Library TextScan TextSearch Core.Plan List
open PlanNode hiding id

def isAggregation (name : Text) : Bool := contains "Aggregation".toList name

/-- A pushdown passes joins, projections and filters. -/
def isPassed (name : Text) : Bool :=
  contains "Join".toList name || contains "Project".toList name || contains "Filter".toList name

section
variable (exprSources : List Text) (rootNodeId : PlanNodeId)

def numSourcesPresented (expressionAlias : List Text) : Nat := (exprSources.map expressionAlias.count).sum

def isPresented : Operator → Bool
  | .project projections => numSourcesPresented exprSources (projections.map Named.name) = exprSources.length
  | _ => false

mutual
/-- The returned id, and what the call leaves in `finalPushdownNodeId`. -/
def findPushdownNodeId : PlanNode → Option PlanNodeId → Nat → Option PlanNodeId × Option PlanNodeId
  | .mk curNodeId op sources, finalPushdownNodeId, distance =>
    if rootNodeId ≠ curNodeId ∧ isAggregation op.name then (none, finalPushdownNodeId)
    else pushdownAmong op.name distance sources
      (if rootNodeId ≠ curNodeId ∧ isPresented exprSources op then some curNodeId else none) finalPushdownNodeId
def pushdownAmong (curNodeName : Text) (distance : Nat) :
    List PlanNode → Option PlanNodeId → Option PlanNodeId → Option PlanNodeId × Option PlanNodeId
  | [], pushdownNodeId, finalPushdownNodeId => (pushdownNodeId, finalPushdownNodeId)
  | source :: rest, pushdownNodeId, finalPushdownNodeId =>
    let (returned, final) := findPushdownNodeId source finalPushdownNodeId (distance + 1)
    if isPassed curNodeName ∧ returned.isSome ∧ 1 < distance then
      pushdownAmong curNodeName distance rest pushdownNodeId returned
    else pushdownAmong curNodeName distance rest (returned <|> pushdownNodeId) final
end

/-- A way down without an aggregation on it. -/
inductive Clear : PlanNode → PlanNode → Prop
  | here {node : PlanNode} (open_ : ¬isAggregation node.name) : Clear node node
  | down {node child lower : PlanNode} (open_ : ¬isAggregation node.name) (mem : child ∈ node.sources)
      (clear : Clear child lower) : Clear node lower

def Below (start lower : PlanNode) : Prop := ∃ child ∈ start.sources, Clear child lower

def Covers (node : PlanNode) : Prop := ∀ column ∈ exprSources, column ∈ node.outputType

/-- The id that is given out names a legal node, and there is one if any node is legal. -/
def Right (start : PlanNode) (given : Option PlanNodeId) : Prop :=
  (∀ id, given = some id → ∃ lower, Below start lower ∧ lower.id = id ∧ Covers exprSources lower) ∧
    ((∃ lower, Below start lower ∧ Covers exprSources lower) → given.isSome)

mutual
/-- The projections with as many equal pairs as sources that a call can return: from the distance 2 on, none is
returned through a join, a projection or a filter. The last one of them is returned. -/
def returnable (distance : Nat) : PlanNode → List PlanNode
  | .mk id op sources =>
    if isAggregation op.name then []
    else (if isPresented exprSources op then [.mk id op sources] else []) ++
      if isPassed op.name ∧ 1 < distance then [] else returnableAmong (distance + 1) sources
def returnableAmong (distance : Nat) : List PlanNode → List PlanNode
  | [] => []
  | source :: rest => returnable distance source ++ returnableAmong distance rest
end

mutual
/-- Those that are kept in `finalPushdownNodeId` instead. -/
def keepable (distance : Nat) : PlanNode → List PlanNode
  | .mk _ op sources => if isAggregation op.name then [] else keepableAmong op.name distance sources
def keepableAmong (name : Text) (distance : Nat) : List PlanNode → List PlanNode
  | [] => []
  | source :: rest =>
    keepable (distance + 1) source ++
      (if isPassed name ∧ 1 < distance then returnable exprSources (distance + 1) source else []) ++
      keepableAmong name distance rest
end

/-- The last candidate has the columns, and there is a candidate if any node has them. -/
def Served (start : PlanNode) (candidates : List PlanNode) : Prop :=
  (∀ last, candidates.getLast? = some last → Covers exprSources last) ∧
    ((∃ lower, Below start lower ∧ Covers exprSources lower) → candidates ≠ [])

def lastId (candidates : List PlanNode) : Option PlanNodeId := candidates.getLast?.map PlanNode.id

theorem lastId_append (one other : List PlanNode) : lastId (one ++ other) = (lastId other <|> lastId one) := by
  unfold lastId
  rw [getLast?_append]
  cases other.getLast? <;> rfl

theorem lastId_nil : lastId [] = none := rfl

variable {exprSources rootNodeId}

mutual
theorem find_given : ∀ (node : PlanNode) (final : Option PlanNodeId) (distance : Nat), rootNodeId ∉ node.ids →
    findPushdownNodeId exprSources rootNodeId node final distance =
      (lastId (returnable exprSources distance node), lastId (keepable exprSources distance node) <|> final)
  | .mk curNodeId op sources, final, distance, inner => by
    simp only [ids, mem_cons, not_or] at inner
    rw [findPushdownNodeId, returnable, keepable]
    by_cases aggregation : isAggregation op.name
    · simp [inner.1, aggregation, lastId]
    · rw [if_neg fun both => aggregation both.2, if_neg aggregation, if_neg aggregation,
        pushdown_given op.name distance sources _ final inner.2, lastId_append]
      have own : (if rootNodeId ≠ curNodeId ∧ isPresented exprSources op then some curNodeId else none) =
          lastId (if isPresented exprSources op then [.mk curNodeId op sources] else []) := by
        by_cases presented : isPresented exprSources op <;> simp [presented, inner.1, lastId]
      rw [own]
      by_cases passed : isPassed op.name ∧ 1 < distance
      · rw [if_pos passed, if_pos passed]
        rfl
      · rw [if_neg passed, if_neg passed]
theorem pushdown_given (name : Text) (distance : Nat) :
    ∀ (sources : List PlanNode) (pushdown final : Option PlanNodeId), rootNodeId ∉ idsOfAll sources →
    pushdownAmong exprSources rootNodeId name distance sources pushdown final =
      ((if isPassed name ∧ 1 < distance then none else lastId (returnableAmong exprSources (distance + 1) sources)) <|>
          pushdown, lastId (keepableAmong exprSources name distance sources) <|> final)
  | [], pushdown, final, _ => by simp [pushdownAmong, returnableAmong, keepableAmong, lastId]
  | source :: rest, pushdown, final, inner => by
    simp only [idsOfAll, mem_append, not_or] at inner
    rw [pushdownAmong, find_given source final (distance + 1) inner.1, returnableAmong, keepableAmong]
    dsimp only
    rw [pushdown_given name distance rest _ _ inner.2, pushdown_given name distance rest _ _ inner.2,
      lastId_append, lastId_append, lastId_append]
    by_cases passed : isPassed name ∧ 1 < distance
    · simp only [if_pos passed]
      cases returned : lastId (returnable exprSources (distance + 1) source) with
      | none => simp [Option.or_assoc]
      | some lowest => simp [passed]
    · have other : ¬(isPassed name ∧ (lastId (returnable exprSources (distance + 1) source)).isSome ∧ 1 < distance) :=
        fun all => passed ⟨all.1, all.2.2⟩
      simp only [if_neg passed, if_neg other]
      simp [lastId_nil, Option.or_assoc]
end

theorem presented_iff {projections : List Named} (distinct : (projections.map Named.name).Nodup) :
    isPresented exprSources (.project projections) ↔ ∀ column ∈ exprSources, column ∈ projections.map Named.name := by
  have most : numSourcesPresented exprSources (projections.map Named.name) ≤ exprSources.length ∧
      (numSourcesPresented exprSources (projections.map Named.name) = exprSources.length ↔
        ∀ column ∈ exprSources, column ∈ projections.map Named.name) := by
    unfold numSourcesPresented
    induction exprSources with
    | nil => simp
    | cons column rest ih =>
      have once := nodup_iff_count.mp distinct column
      have present := @List.count_pos_iff _ _ _ column (projections.map Named.name)
      simp only [map_cons, sum_cons, length_cons, forall_mem_cons, ← ih.2, ← present]
      omega
  simpa [isPresented] using most.2

mutual
theorem clear_of_returnable : ∀ (node : PlanNode) (distance : Nat), ∀ lower ∈ returnable exprSources distance node,
    Clear node lower ∧ isPresented exprSources lower.op
  | .mk id op sources, distance, lower, mem => by
    rw [returnable] at mem
    split at mem
    case isTrue => cases mem
    case isFalse open_ =>
      rcases mem_append.mp mem with own | deeper
      · split at own
        case isTrue presented =>
          rw [mem_singleton.mp own]
          exact ⟨.here open_, presented⟩
        case isFalse => cases own
      · split at deeper
        case isTrue => cases deeper
        case isFalse =>
          obtain ⟨source, inSources, clear, presented⟩ := clear_of_returnableAmong sources (distance + 1) lower deeper
          exact ⟨.down open_ inSources clear, presented⟩
theorem clear_of_returnableAmong : ∀ (sources : List PlanNode) (distance : Nat),
    ∀ lower ∈ returnableAmong exprSources distance sources,
      ∃ source ∈ sources, Clear source lower ∧ isPresented exprSources lower.op
  | source :: rest, distance, lower, mem => by
    rw [returnableAmong] at mem
    rcases mem_append.mp mem with first | later
    · exact ⟨source, mem_cons_self, clear_of_returnable source distance lower first⟩
    · obtain ⟨other, inRest, clear⟩ := clear_of_returnableAmong rest distance lower later
      exact ⟨other, mem_cons_of_mem source inRest, clear⟩
end

mutual
theorem clear_of_keepable : ∀ (node : PlanNode) (distance : Nat), ∀ lower ∈ keepable exprSources distance node,
    Clear node lower ∧ isPresented exprSources lower.op
  | .mk id op sources, distance, lower, mem => by
    rw [keepable] at mem
    split at mem
    case isTrue => cases mem
    case isFalse open_ =>
      obtain ⟨source, inSources, clear, presented⟩ := clear_of_keepableAmong op.name distance sources lower mem
      exact ⟨.down open_ inSources clear, presented⟩
theorem clear_of_keepableAmong (name : Text) (distance : Nat) : ∀ (sources : List PlanNode),
    ∀ lower ∈ keepableAmong exprSources name distance sources,
      ∃ source ∈ sources, Clear source lower ∧ isPresented exprSources lower.op
  | source :: rest, lower, mem => by
    rw [keepableAmong, append_assoc] at mem
    rcases mem_append.mp mem with kept | mem
    · exact ⟨source, mem_cons_self, clear_of_keepable source (distance + 1) lower kept⟩
    · rcases mem_append.mp mem with returned | later
      · split at returned
        case isTrue => exact ⟨source, mem_cons_self, clear_of_returnable source (distance + 1) lower returned⟩
        case isFalse => cases returned
      · obtain ⟨other, inRest, clear⟩ := clear_of_keepableAmong name distance rest lower later
        exact ⟨other, mem_cons_of_mem source inRest, clear⟩
end

mutual
def nodes : PlanNode → List PlanNode
  | .mk id op sources => .mk id op sources :: nodesOfAll sources
def nodesOfAll : List PlanNode → List PlanNode
  | [] => []
  | source :: rest => nodes source ++ nodesOfAll rest
end

mutual
theorem map_id_nodes : ∀ node : PlanNode, (nodes node).map PlanNode.id = node.ids
  | .mk id op sources => by rw [nodes, ids, map_cons, map_id_nodesOfAll sources, id_mk]
theorem map_id_nodesOfAll : ∀ sources : List PlanNode, (nodesOfAll sources).map PlanNode.id = idsOfAll sources
  | [] => rfl
  | source :: rest => by rw [nodesOfAll, idsOfAll, map_append, map_id_nodes source, map_id_nodesOfAll rest]
end

theorem mem_nodesOfAll {lower source : PlanNode} {sources : List PlanNode} (inSources : source ∈ sources)
    (mem : lower ∈ nodes source) : lower ∈ nodesOfAll sources := by
  induction sources with
  | nil => cases inSources
  | cons first rest ih =>
    rw [nodesOfAll, mem_append]
    rcases mem_cons.mp inSources with rfl | later
    · exact .inl mem
    · exact .inr (ih later)

theorem Clear.mem_nodes {node lower : PlanNode} (clear : Clear node lower) : lower ∈ nodes node := by
  induction clear with
  | @here node _ =>
    obtain ⟨id, op, sources⟩ := node
    exact mem_cons_self
  | @down node child lower _ mem _ ih =>
    obtain ⟨id, op, sources⟩ := node
    exact mem_cons_of_mem _ (mem_nodesOfAll mem ih)

/-- Below the start, an id names one node. -/
theorem Below.eq_of_id {start one other : PlanNode} (distinct : (idsOfAll start.sources).Nodup)
    (first : Below start one) (second : Below start other) (same : one.id = other.id) : one = other := by
  obtain ⟨child, mem, clear⟩ := first
  obtain ⟨child', mem', clear'⟩ := second
  rw [← map_id_nodesOfAll] at distinct
  exact inj_on_of_nodup_map distinct (mem_nodesOfAll mem clear.mem_nodes) (mem_nodesOfAll mem' clear'.mem_nodes) same

theorem right_iff_served {start : PlanNode} (distinct : (idsOfAll start.sources).Nodup) {candidates : List PlanNode}
    (below : ∀ node ∈ candidates, Below start node) :
    Right exprSources start (lastId candidates) ↔ Served exprSources start candidates := by
  unfold Right Served lastId
  apply and_congr
  · constructor
    · intro sound last found
      obtain ⟨lower, inPlan, named, covers⟩ := sound last.id (by rw [found]; rfl)
      rwa [← Below.eq_of_id distinct inPlan (below last (mem_of_getLast? found)) named]
    · intro covers id given
      obtain ⟨last, found, rfl⟩ := Option.map_eq_some_iff.mp given
      exact ⟨last, below last (mem_of_getLast? found), rfl, covers last found⟩
  · rw [Option.isSome_map, getLast?_isSome]

/-- Each of the two ways to give out an id is right exactly if its last candidate has the columns, and there is
one if any node has them. -/
theorem pushdown_legal_iff (exprSources : List Text) (start : PlanNode) (distinct : start.ids.Nodup) :
    let given := findPushdownNodeId exprSources start.id start none 0
    (Right exprSources start given.1 ↔ Served exprSources start (returnableAmong exprSources 1 start.sources)) ∧
      (Right exprSources start given.2 ↔
        Served exprSources start (keepableAmong exprSources start.name 0 start.sources)) := by
  obtain ⟨top, op, sources⟩ := start
  rw [ids, nodup_cons] at distinct
  have given : findPushdownNodeId exprSources top (.mk top op sources) none 0 =
      (lastId (returnableAmong exprSources 1 sources), lastId (keepableAmong exprSources op.name 0 sources)) := by
    rw [findPushdownNodeId, if_neg (by simp), if_neg (by simp), pushdown_given op.name 0 sources none none distinct.1]
    simp
  have apart : (idsOfAll (PlanNode.mk top op sources).sources).Nodup := distinct.2
  rw [id_mk, given]
  constructor
  · apply right_iff_served apart
    intro node mem
    obtain ⟨source, inSources, clear, _⟩ := clear_of_returnableAmong sources 1 node mem
    exact ⟨source, inSources, clear⟩
  · apply right_iff_served apart
    intro node mem
    obtain ⟨source, inSources, clear, _⟩ := clear_of_keepableAmong op.name 0 sources node mem
    exact ⟨source, inSources, clear⟩

/-- With distinct column names in the candidates, only a missing candidate makes a way wrong. -/
theorem served_iff_of_distinct {start : PlanNode} {candidates : List PlanNode}
    (presented : ∀ node ∈ candidates, isPresented exprSources node.op)
    (distinct : ∀ node ∈ candidates, ∀ projections, node.op = .project projections →
      (projections.map Named.name).Nodup) :
    Served exprSources start candidates ↔ ((∃ lower, Below start lower ∧ Covers exprSources lower) →
      candidates ≠ []) := by
  refine ⟨And.right, fun complete => ⟨fun last found => ?_, complete⟩⟩
  have mem := mem_of_getLast? found
  have names := distinct last mem
  have own := presented last mem
  obtain ⟨id, op, sources⟩ := last
  cases op with
  | project projections =>
    intro column
    rw [outputType]
    exact (presented_iff (names projections rfl)).mp own column
  | _ => cases own

end

theorem pushdown_through_join :
    let named : String → Named := fun name => ⟨name.toList, .constant .null⟩
    let plan := PlanNode.mk 4 (.limit 0 1 true)
      [.mk 3 (.nestedLoopJoin .kInner none ["a".toList, "b".toList, "c".toList])
      [.mk 2 (.project [named "a", named "b"]) [.mk 0 (.tableScan ["a".toList]) []], .mk 1 (.project [named "c"]) []]]
    Right ["a".toList, "b".toList] plan (some 2) := by
  intro named plan
  refine (pushdown_legal_iff ["a".toList, "b".toList] plan (by decide)).1.mpr ⟨fun last found => ?_, fun _ => by decide⟩
  cases found
  exact (by decide : ∀ column ∈ ["a".toList, "b".toList], column ∈ ["a".toList, "b".toList])

/-- A projection with a column twice stands for one that has both columns. Behind a filter at the distance 2 a
projection is not returned, and behind one at the distance 1 it is not kept in `finalPushdownNodeId`. -/
theorem pushdown_illegal :
    let named : String → Named := fun name => ⟨name.toList, .constant .null⟩
    let filtered : PlanNode := .mk 2 (.filter (.constant .null)) [.mk 1 (.project [named "a"]) []]
    findPushdownNodeId ["a".toList, "b".toList] 2
        (.mk 2 (.limit 0 1 true) [.mk 1 (.project [named "a", named "a"]) []]) none 0 = (some 1, none) ∧
      findPushdownNodeId ["a".toList] 4 (.mk 4 (.limit 0 1 true) [.mk 3 (.limit 0 1 true) [filtered]]) none 0 =
        (none, some 1) ∧
      findPushdownNodeId ["a".toList] 3 (.mk 3 (.project [named "a"]) [filtered]) none 0 = (some 1, none) := by
  decide

end CactusDB.Optimizer.PushdownSearch
