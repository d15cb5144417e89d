import CactusDB.Core.Plan
import Mathlib.Data.List.Basic

/-! The ids between two nodes of a plan. -/

namespace CactusDB.Optimizer.PlanSearch
open Core.Plan List
open PlanNode hiding id

/-- A way down a plan to a node with the id, with the ids of the nodes that it passes. -/
inductive Path (id : PlanNodeId) : PlanNode → List PlanNodeId → Prop
  | here (op : Operator) (sources : List PlanNode) : Path id (.mk id op sources) []
  | down (top : PlanNodeId) (op : Operator) {sources : List PlanNode} {child : PlanNode} (mem : child ∈ sources)
      {passed : List PlanNodeId} (path : Path id child passed) : Path id (.mk top op sources) (top :: passed)

variable {passed : List PlanNodeId}

theorem Path.mem_ids {id : PlanNodeId} {node : PlanNode} (path : Path id node passed) : id ∈ node.ids := by
  induction path with
  | here => exact mem_cons_self
  | down top op mem path ih => exact mem_cons_of_mem top (mem_idsOfAll.mpr ⟨_, mem, ih⟩)

section
variable (sourceNodeId targetNodeId : PlanNodeId)

mutual
/-- The returned ids, and what the call leaves in `nodeIds`. -/
def findNodeIdsBetweenIds : PlanNode → List PlanNodeId → List PlanNodeId × List PlanNodeId
  | .mk planNodeId _ sources, nodeIds =>
    let nodeIds := if planNodeId ≠ sourceNodeId ∧ planNodeId ≠ targetNodeId then nodeIds ++ [planNodeId] else nodeIds
    if planNodeId = sourceNodeId then (nodeIds, nodeIds) else betweenAmong sources nodeIds
def betweenAmong : List PlanNode → List PlanNodeId → List PlanNodeId × List PlanNodeId
  | [], nodeIds => ([], nodeIds.dropLast)
  | child :: rest, nodeIds =>
    match findNodeIdsBetweenIds child nodeIds with
    | ([], nodeIds) => betweenAmong rest nodeIds
    | found => found
end

variable {sourceNodeId targetNodeId}

mutual
/-- A branch without the lower node takes the last id away if it has the upper one, and else leaves no trace. -/
theorem between_absent : ∀ (node : PlanNode) (nodeIds : List PlanNodeId), node.ids.Nodup → sourceNodeId ∉ node.ids →
    findNodeIdsBetweenIds sourceNodeId targetNodeId node nodeIds =
      ([], if targetNodeId ∈ node.ids then nodeIds.dropLast else nodeIds)
  | .mk top _ sources, nodeIds, distinct, noSource => by
    rw [ids, nodup_cons] at distinct
    simp only [ids, mem_cons, not_or] at noSource
    have below := fun nodeIds => @among_absent sources [] nodeIds (by simpa using distinct.2) noSource.2
    simp only [append_nil, betweenAmong] at below
    by_cases upper : top = targetNodeId
    · subst upper
      simp [findNodeIdsBetweenIds, below, ids, distinct.1, Ne.symm noSource.1]
    · by_cases inside : targetNodeId ∈ idsOfAll sources <;>
        simp [findNodeIdsBetweenIds, below, ids, Ne.symm noSource.1, upper, Ne.symm upper, inside]
theorem among_absent : ∀ (before rest : List PlanNode) (nodeIds : List PlanNodeId), (idsOfAll before).Nodup →
    sourceNodeId ∉ idsOfAll before → betweenAmong sourceNodeId targetNodeId (before ++ rest) nodeIds =
      betweenAmong sourceNodeId targetNodeId rest (if targetNodeId ∈ idsOfAll before then nodeIds.dropLast else nodeIds)
  | [], _, _, _, _ => by simp [idsOfAll]
  | child :: before, rest, nodeIds, distinct, noSource => by
    simp only [idsOfAll, mem_append, not_or] at noSource
    have parts := nodup_append.mp distinct
    rw [cons_append, betweenAmong, between_absent child nodeIds parts.1 noSource.1]
    dsimp only
    rw [among_absent before rest _ parts.2.1 noSource.2]
    by_cases inside : targetNodeId ∈ child.ids
    · have notAgain : targetNodeId ∉ idsOfAll before := fun again => parts.2.2 _ inside _ again rfl
      rw [if_pos inside, if_neg notAgain, idsOfAll, if_pos (mem_append_left _ inside)]
    · simp only [idsOfAll, mem_append, inside, if_false, false_or]
end

/-- Behind a branch that gave its list there is nothing to find, also where the list was empty and the loop
goes on. -/
theorem among_given {child : PlanNode} {after : List PlanNode} {nodeIds given : List PlanNodeId}
    (found : findNodeIdsBetweenIds sourceNodeId targetNodeId child nodeIds = (given, given))
    (distinct : (idsOfAll after).Nodup) (noSource : sourceNodeId ∉ idsOfAll after) :
    betweenAmong sourceNodeId targetNodeId (child :: after) nodeIds = (given, given) := by
  rw [betweenAmong, found]
  cases given with
  | cons => rfl
  | nil =>
    have rest := @among_absent sourceNodeId targetNodeId after [] [] distinct noSource
    rw [append_nil, dropLast_nil, ite_self] at rest
    exact rest

theorem idsOfAll_append (before after : List PlanNode) :
    idsOfAll (before ++ after) = idsOfAll before ++ idsOfAll after := by
  induction before with
  | nil => rfl
  | cons child before ih => rw [cons_append, idsOfAll, idsOfAll, ih, append_assoc]

/-- The branch that has the lower node, with those before and behind it. -/
structure Branch (sourceNodeId : PlanNodeId) (sources before : List PlanNode) (child : PlanNode)
    (after : List PlanNode) : Prop where
  split : sources = before ++ child :: after
  inside : child.ids.Nodup
  distinctBefore : (idsOfAll before).Nodup
  distinctAfter : (idsOfAll after).Nodup
  notBefore : sourceNodeId ∉ idsOfAll before
  notAfter : sourceNodeId ∉ idsOfAll after
  apart : ∀ id ∈ idsOfAll before, id ∉ child.ids

theorem Branch.of_mem {sources : List PlanNode} {child : PlanNode} (mem : child ∈ sources)
    (distinct : (idsOfAll sources).Nodup) (present : sourceNodeId ∈ child.ids) :
    ∃ before after, Branch sourceNodeId sources before child after := by
  obtain ⟨before, after, rfl⟩ := append_of_mem mem
  rw [idsOfAll_append, idsOfAll] at distinct
  obtain ⟨distinctBefore, rest, apart⟩ := nodup_append.mp distinct
  obtain ⟨inside, distinctAfter, behind⟩ := nodup_append.mp rest
  exact ⟨before, after, rfl, inside, distinctBefore, distinctAfter,
    fun again => apart _ again _ (mem_append_left _ present) rfl, fun again => behind _ present _ again rfl,
    fun id early late => apart _ early _ (mem_append_left _ late) rfl⟩

theorem Branch.mem_of_before {sources before after : List PlanNode} {child : PlanNode} {id : PlanNodeId}
    (branch : Branch sourceNodeId sources before child after) (early : id ∈ idsOfAll before) :
      id ∈ idsOfAll sources := by
  rw [branch.split, idsOfAll_append]
  exact mem_append_left _ early

theorem Branch.unique {sources before after before' after' : List PlanNode} {child child' : PlanNode}
    (branch : Branch sourceNodeId sources before child after) (split : sources = before' ++ child' :: after')
    (present : sourceNodeId ∈ child'.ids) : before' = before ∧ child' = child := by
  have notBefore : child' ∉ before := fun mem => branch.notBefore (mem_idsOfAll.mpr ⟨child', mem, present⟩)
  have notAfter : child' ∉ after := fun mem => branch.notAfter (mem_idsOfAll.mpr ⟨child', mem, present⟩)
  obtain ⟨rfl, rfl, _⟩ := (append_cons_inj_of_notMem notBefore notAfter).mp (branch.split.symm.trans split)
  exact ⟨rfl, rfl⟩

theorem Branch.among {sources before after : List PlanNode} {child : PlanNode} {nodeIds given : List PlanNodeId}
    (branch : Branch sourceNodeId sources before child after)
    (found : findNodeIdsBetweenIds sourceNodeId targetNodeId child
      (if targetNodeId ∈ idsOfAll before then nodeIds.dropLast else nodeIds) = (given, given)) :
    betweenAmong sourceNodeId targetNodeId sources nodeIds = (given, given) := by
  rw [branch.split, among_absent before _ _ branch.distinctBefore branch.notBefore]
  exact among_given found branch.distinctAfter branch.notAfter

theorem ne_of_below {top : PlanNodeId} {sources : List PlanNode} (above : top ∉ idsOfAll sources) {child : PlanNode}
    (mem : child ∈ sources) (path : Path sourceNodeId child passed) : top ≠ sourceNodeId :=
  fun same => above (same ▸ mem_idsOfAll.mpr ⟨child, mem, path.mem_ids⟩)

/-- What was collected above stays, and without the upper node all ids of the way are added. -/
theorem between_present (targetNodeId : PlanNodeId) {node : PlanNode} (path : Path sourceNodeId node passed)
    (nodeIds : List PlanNodeId) (distinct : node.ids.Nodup) :
    ∃ kept, findNodeIdsBetweenIds sourceNodeId targetNodeId node nodeIds = (nodeIds ++ kept, nodeIds ++ kept) ∧
      (targetNodeId ∉ node.ids → kept = passed) := by
  induction path generalizing nodeIds with
  | here => exact ⟨[], by simp [findNodeIdsBetweenIds], fun _ => rfl⟩
  | @down top op sources child mem passed path ih =>
    rw [ids, nodup_cons] at distinct
    obtain ⟨before, after, branch⟩ := Branch.of_mem mem distinct.2 path.mem_ids
    have other : top ≠ sourceNodeId := ne_of_below distinct.1 mem path
    by_cases upper : top = targetNodeId
    · subst upper
      have notBefore : top ∉ idsOfAll before := fun again => distinct.1 (branch.mem_of_before again)
      obtain ⟨kept, found, _⟩ := ih nodeIds branch.inside
      refine ⟨kept, ?_, fun absent => absurd mem_cons_self absent⟩
      simpa [findNodeIdsBetweenIds, other] using branch.among (by rwa [if_neg notBefore])
    · have pushed : findNodeIdsBetweenIds sourceNodeId targetNodeId (.mk top op sources) nodeIds =
          betweenAmong sourceNodeId targetNodeId sources (nodeIds ++ [top]) := by
        simp [findNodeIdsBetweenIds, other, upper]
      by_cases earlier : targetNodeId ∈ idsOfAll before
      · obtain ⟨kept, found, _⟩ := ih nodeIds branch.inside
        exact ⟨kept, pushed.trans (branch.among (by rwa [if_pos earlier, dropLast_concat])), fun absent =>
          absurd (mem_cons_of_mem top (branch.mem_of_before earlier)) absent⟩
      · obtain ⟨kept, found, all⟩ := ih (nodeIds ++ [top]) branch.inside
        refine ⟨top :: kept, ?_, fun absent => ?_⟩
        · rw [pushed, branch.among (by rwa [if_neg earlier]), append_assoc]
          rfl
        · rw [all fun again => absent (mem_cons_of_mem top (mem_idsOfAll.mpr ⟨child, mem, again⟩))]

/-- The ids behind the upper node on the way to the lower one, and none if the way does not pass it. -/
def Between (sourceNodeId targetNodeId : PlanNodeId) (node : PlanNode) (found : List PlanNodeId) : Prop :=
  (∀ above between, Path sourceNodeId node (above ++ targetNodeId :: between) → found = between) ∧
    ((¬∃ above between, Path sourceNodeId node (above ++ targetNodeId :: between)) → found = [])

/-- The search starts at the upper node, or finds nothing on its way to the lower one. -/
def StartsAbove (sourceNodeId targetNodeId : PlanNodeId) (node : PlanNode) : Prop :=
  sourceNodeId ∉ idsOfAll node.sources ∨ targetNodeId = node.id ∨
    ∃ before child after, node.sources = before ++ child :: after ∧ child.id = sourceNodeId ∧
      targetNodeId ∈ idsOfAll before

theorem Path.unique {node : PlanNode} (distinct : node.ids.Nodup) {one other : List PlanNodeId}
    (path : Path sourceNodeId node one) (again : Path sourceNodeId node other) : one = other := by
  induction path generalizing other with
  | here op sources =>
    rw [ids, nodup_cons] at distinct
    cases again with
    | here => rfl
    | down _ _ mem path => exact absurd rfl (ne_of_below distinct.1 mem path)
  | @down top op sources child mem passed path ih =>
    rw [ids, nodup_cons] at distinct
    cases again with
    | here => exact absurd rfl (ne_of_below distinct.1 mem path)
    | @down _ _ _ second mem' passed' path' =>
      obtain ⟨before, after, branch⟩ := Branch.of_mem mem distinct.2 path.mem_ids
      obtain ⟨before', after', split⟩ := append_of_mem mem'
      obtain ⟨_, rfl⟩ := branch.unique split path'.mem_ids
      rw [ih branch.inside path']

/-- Every node of a plan can be reached. -/
theorem Path.exists_of_mem {node : PlanNode} (mem : sourceNodeId ∈ node.ids) :
    ∃ passed, Path sourceNodeId node passed := by
  induction node with
  | mk top op sources ih =>
    rw [ids, mem_cons] at mem
    rcases mem with rfl | below
    · exact ⟨[], .here op sources⟩
    · obtain ⟨child, inSources, inside⟩ := mem_idsOfAll.mp below
      obtain ⟨passed, path⟩ := ih child inSources inside
      exact ⟨top :: passed, .down top op inSources path⟩

theorem Path.passed_subset {node : PlanNode} (path : Path sourceNodeId node passed) : passed ⊆ node.ids := by
  induction path with
  | here => exact nil_subset _
  | down top op mem path ih =>
    intro id inPassed
    rcases mem_cons.mp inPassed with rfl | later
    · exact mem_cons_self
    · exact mem_cons_of_mem top (mem_idsOfAll.mpr ⟨_, mem, ih later⟩)

/-- The upper node is not on the way to the lower one. -/
theorem between_of_absent {node : PlanNode} (distinct : node.ids.Nodup) (path : Path sourceNodeId node passed)
    (aside : targetNodeId ∉ passed) (found : List PlanNodeId) :
    Between sourceNodeId targetNodeId node found ↔ found = [] := by
  have never : ¬∃ above between, Path sourceNodeId node (above ++ targetNodeId :: between) := by
    rintro ⟨above, between, way⟩
    rw [path.unique distinct way] at aside
    exact aside (mem_append_right above mem_cons_self)
  exact ⟨fun exact => exact.2 never, fun none => ⟨fun above between way => absurd ⟨above, between, way⟩ never, fun _ =>
    none⟩⟩

section

variable {top : PlanNodeId} {op : Operator} {sources before after : List PlanNode} {child : PlanNode}
  (distinct : (PlanNode.mk top op sources).ids.Nodup) (branch : Branch sourceNodeId sources before child after)
  (path : Path sourceNodeId child passed)
include distinct branch path

theorem between_from_target (upper : targetNodeId = top) :
    findNodeIdsBetweenIds sourceNodeId targetNodeId (.mk top op sources) [] = (passed, passed) ∧
      Between sourceNodeId targetNodeId (.mk top op sources) passed := by
  subst upper
  have mem : child ∈ sources := branch.split ▸ mem_append_right before mem_cons_self
  have way := Path.down targetNodeId op mem path
  have apart := distinct
  rw [ids, nodup_cons] at apart
  have notInside : targetNodeId ∉ child.ids := fun again => apart.1 (mem_idsOfAll.mpr ⟨child, mem, again⟩)
  have notBefore : targetNodeId ∉ idsOfAll before := fun again => apart.1 (branch.mem_of_before again)
  obtain ⟨kept, found, all⟩ := between_present targetNodeId path [] branch.inside
  rw [all notInside, nil_append] at found
  refine ⟨?_, fun above between other => ?_, fun never => absurd ⟨[], passed, way⟩ never⟩
  · simpa [findNodeIdsBetweenIds, ne_of_below apart.1 mem path] using branch.among (by rwa [if_neg notBefore])
  · have same := way.unique distinct other
    cases above with
    | nil => exact (cons.inj same).2
    | cons first above =>
      have again : targetNodeId ∈ passed := (cons.inj same).2 ▸ mem_append_right above mem_cons_self
      exact absurd (path.passed_subset again) notInside

theorem between_from_above (other : targetNodeId ≠ top) : ∃ kept,
    findNodeIdsBetweenIds sourceNodeId targetNodeId (.mk top op sources) [] = (kept, kept) ∧
      (Between sourceNodeId targetNodeId (.mk top op sources) kept ↔
        child.id = sourceNodeId ∧ targetNodeId ∈ idsOfAll before) := by
  have mem : child ∈ sources := branch.split ▸ mem_append_right before mem_cons_self
  have way := Path.down top op mem path
  have apart := distinct
  rw [ids, nodup_cons] at apart
  have pushed : findNodeIdsBetweenIds sourceNodeId targetNodeId (.mk top op sources) [] =
      betweenAmong sourceNodeId targetNodeId sources [top] := by
    simp [findNodeIdsBetweenIds, ne_of_below apart.1 mem path, Ne.symm other]
  by_cases earlier : targetNodeId ∈ idsOfAll before
  · have notInside := branch.apart _ earlier
    obtain ⟨kept, found, all⟩ := between_present targetNodeId path [] branch.inside
    rw [all notInside, nil_append] at found
    have aside : targetNodeId ∉ top :: passed := by
      rw [mem_cons, not_or]
      exact ⟨other, fun again => notInside (path.passed_subset again)⟩
    refine ⟨passed, pushed.trans (branch.among (by rwa [if_pos earlier])), ?_⟩
    rw [between_of_absent distinct way aside]
    constructor
    · rintro rfl
      cases path with
      | here => exact ⟨rfl, earlier⟩
    · rintro ⟨named, _⟩
      obtain ⟨childId, childOp, below⟩ := child
      subst named
      exact path.unique branch.inside (.here childOp below)
  · obtain ⟨kept, found, _⟩ := between_present targetNodeId path [top] branch.inside
    refine ⟨top :: kept, pushed.trans (branch.among (by rwa [if_neg earlier])), ?_⟩
    refine iff_of_false (fun exact => ?_) fun both => earlier both.2
    by_cases onWay : targetNodeId ∈ top :: passed
    · obtain ⟨above, between, split⟩ := append_of_mem onWay
      have listed := exact.1 above between (split ▸ way)
      cases above with
      | nil => exact other (cons.inj split).1.symm
      | cons first above =>
        have again : top ∈ passed := by
          rw [(cons.inj split).2, ← listed]
          exact mem_append_right above (mem_cons_of_mem _ mem_cons_self)
        exact apart.1 (mem_idsOfAll.mpr ⟨child, mem, path.passed_subset again⟩)
    · cases (between_of_absent distinct way onWay _).mp exact

end

/-- The returned list, which is also the list left behind, is that of the ids strictly between the two nodes
exactly if the search starts at the upper one or finds nothing on its way to the lower one. -/
theorem between_exact_iff (node : PlanNode) (distinct : node.ids.Nodup) (sourceNodeId targetNodeId : PlanNodeId) :
    let found := findNodeIdsBetweenIds sourceNodeId targetNodeId node []
    found.2 = found.1 ∧
      (Between sourceNodeId targetNodeId node found.1 ↔ StartsAbove sourceNodeId targetNodeId node) := by
  obtain ⟨top, op, sources⟩ := node
  have apart := distinct
  rw [ids, nodup_cons] at apart
  by_cases below : sourceNodeId ∈ idsOfAll sources
  · obtain ⟨child, mem, inside⟩ := mem_idsOfAll.mp below
    obtain ⟨passed, path⟩ := Path.exists_of_mem inside
    obtain ⟨before, after, branch⟩ := Branch.of_mem mem apart.2 inside
    by_cases upper : targetNodeId = top
    · obtain ⟨found, exact⟩ := between_from_target distinct branch path upper
      rw [found]
      exact ⟨rfl, iff_of_true exact (.inr (.inl upper))⟩
    · obtain ⟨kept, found, exact⟩ := between_from_above distinct branch path upper
      rw [found]
      refine ⟨rfl, exact.trans ⟨fun both => .inr (.inr ⟨before, child, after, branch.split, both⟩), ?_⟩⟩
      rintro (absent | same | ⟨before', child', after', split, named, earlier⟩)
      · exact absurd below absent
      · exact absurd same upper
      · obtain ⟨childId, childOp, grandchildren⟩ := child'
        obtain ⟨rfl, rfl⟩ := branch.unique split (named ▸ mem_cons_self)
        exact ⟨named, earlier⟩
  · have found : findNodeIdsBetweenIds sourceNodeId targetNodeId (.mk top op sources) [] = ([], []) := by
      by_cases own : sourceNodeId = top
      · simp [findNodeIdsBetweenIds, own]
      · rw [between_absent _ _ distinct (by simp [ids, own, below]), dropLast_nil, ite_self]
    rw [found]
    refine ⟨rfl, iff_of_true ⟨fun above between way => ?_, fun _ => rfl⟩ (.inl below)⟩
    -- the way to the lower node would lead through a source
    generalize passes : above ++ targetNodeId :: between = passed at way
    cases way with
    | here => exact absurd passes (append_ne_nil_of_right_ne_nil above (cons_ne_nil _ _))
    | down _ _ mem path => exact absurd (mem_idsOfAll.mpr ⟨_, mem, path.mem_ids⟩) below

end

theorem between_in_branches :
    let plan := PlanNode.mk 5 (.limit 0 1 true) [.mk 4 (.values []) [],
      .mk 3 (.limit 0 1 true) [.mk 2 (.values []) [], .mk 1 (.limit 0 1 true) [.mk 0 (.values []) []]]]
    findNodeIdsBetweenIds 0 5 plan [] = ([3, 1], [3, 1]) ∧ Between 0 5 plan [3, 1] := by
  intro plan
  exact ⟨by decide, (between_exact_iff plan (by decide) 0 5).2.mpr (.inr (.inl rfl))⟩

/-- Searched from a node above the upper one, the ids above it are returned as well. -/
theorem ids_above_returned :
    findNodeIdsBetweenIds 0 2 (.mk 3 (.limit 0 1 true) [.mk 2 (.limit 0 1 true)
      [.mk 1 (.limit 0 1 true) [.mk 0 (.values []) []]]]) [] = ([3, 1], [3, 1]) := by
  decide

end CactusDB.Optimizer.PlanSearch
