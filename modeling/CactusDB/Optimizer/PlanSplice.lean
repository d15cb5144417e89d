import CactusDB.Library.TextScan

/-! Splicing a new source into a serialized plan, by the id of the source it takes the place of. -/

namespace CactusDB.Optimizer.PlanSplice
open Library.TextScan List

variable {A : Type}

/-- A node of a serialized plan with its attributes. The field of the sources is left out where a
node has none. -/
inductive SerializedPlan (A : Type) where
  | mk (id : Text) (attributes : A) (sources : List (SerializedPlan A))

def SerializedPlan.id : SerializedPlan A → Text
  | .mk id _ _ => id

def SerializedPlan.sources : SerializedPlan A → List (SerializedPlan A)
  | .mk _ _ sources => sources

mutual
def ids : SerializedPlan A → List Text
  | .mk id _ sources => id :: idsOfAll sources
def idsOfAll : List (SerializedPlan A) → List Text
  | [] => []
  | source :: rest => ids source ++ idsOfAll rest
end

section
variable (serializedNewSource : SerializedPlan A) (nodeId : Text)

mutual
def replaceSourceWithIdInSerializedPlan : SerializedPlan A → SerializedPlan A
  | .mk id attributes sources => .mk id attributes (replaceAmong sources)
def replaceAmong : List (SerializedPlan A) → List (SerializedPlan A)
  | [] => []
  | source :: rest =>
    if source.id = nodeId then serializedNewSource :: rest
    else replaceSourceWithIdInSerializedPlan source :: replaceAmong rest
end

/-- One node below the root with the id gives way to the new source, and all else stays. -/
inductive Spliced : SerializedPlan A → SerializedPlan A → Prop
  | source (id attributes front back) {old} (named : old.id = nodeId) :
      Spliced (.mk id attributes (front ++ old :: back)) (.mk id attributes (front ++ serializedNewSource :: back))
  | deeper (id attributes front back) {old new} (spliced : Spliced old new) :
      Spliced (.mk id attributes (front ++ old :: back)) (.mk id attributes (front ++ new :: back))

end

variable {serializedNewSource : SerializedPlan A} {nodeId : Text}

mutual
theorem replace_absent : ∀ plan : SerializedPlan A, nodeId ∉ idsOfAll plan.sources →
    replaceSourceWithIdInSerializedPlan serializedNewSource nodeId plan = plan
  | .mk id attributes sources, absent => by
    rw [replaceSourceWithIdInSerializedPlan, replaceAmong_absent sources absent]
theorem replaceAmong_absent : ∀ sources : List (SerializedPlan A), nodeId ∉ idsOfAll sources →
    replaceAmong serializedNewSource nodeId sources = sources
  | [], _ => rfl
  | .mk id attributes sources :: rest, absent => by
    simp only [idsOfAll, ids, cons_append, mem_cons, mem_append, not_or] at absent
    rw [replaceAmong, SerializedPlan.id, if_neg (Ne.symm absent.1), replaceAmong_absent rest absent.2.2,
      replace_absent (.mk id attributes sources) absent.2.1]
end

mutual
theorem replace_spliced : ∀ plan : SerializedPlan A, (ids plan).Nodup → nodeId ∈ idsOfAll plan.sources →
    Spliced serializedNewSource nodeId plan (replaceSourceWithIdInSerializedPlan serializedNewSource nodeId plan)
  | .mk id attributes sources, distinct, present =>
    replaceAmong_spliced id attributes [] sources (nodup_cons.mp distinct).2 present
theorem replaceAmong_spliced (id : Text) (attributes : A) : ∀ front sources : List (SerializedPlan A),
    (idsOfAll sources).Nodup → nodeId ∈ idsOfAll sources →
    Spliced serializedNewSource nodeId (.mk id attributes (front ++ sources))
      (.mk id attributes (front ++ replaceAmong serializedNewSource nodeId sources))
  | front, .mk own values inner :: rest, distinct, present => by
    have parts := nodup_append.mp distinct
    rw [replaceAmong]
    split
    next named => exact .source id attributes front rest named
    next other =>
      rcases mem_append.mp present with inside | later
      · -- the hit is deeper in this source, and no later source is touched
        have gone : nodeId ∉ idsOfAll rest := fun again => parts.2.2 _ inside _ again rfl
        rw [replaceAmong_absent rest gone]
        have inInner := (mem_cons.mp inside).resolve_left (Ne.symm other)
        exact .deeper id attributes front rest (replace_spliced (.mk own values inner) parts.1 inInner)
      · have gone : nodeId ∉ idsOfAll inner := fun again => parts.2.2 _ (mem_cons_of_mem own again) _ later rfl
        rw [replace_absent (.mk own values inner) gone]
        have spliced := replaceAmong_spliced id attributes (front ++ [.mk own values inner]) rest parts.2.1 later
        rwa [append_assoc, append_assoc] at spliced
end

/-- With distinct ids exactly the node that carries the id is replaced, unless it is the root. -/
theorem splices_exactly (plan new : SerializedPlan A) (nodeId : Text) (distinct : (ids plan).Nodup) :
    (nodeId ∈ idsOfAll plan.sources → Spliced new nodeId plan (replaceSourceWithIdInSerializedPlan new nodeId plan)) ∧
    (nodeId = plan.id ∨ nodeId ∉ ids plan → replaceSourceWithIdInSerializedPlan new nodeId plan = plan) := by
  refine ⟨replace_spliced plan distinct, fun outside => replace_absent plan ?_⟩
  obtain ⟨id, attributes, sources⟩ := plan
  rcases outside with rfl | absent
  · exact (nodup_cons.mp distinct).1
  · exact fun present => absent (mem_cons_of_mem id present)

def leaf (id : String) : SerializedPlan Unit := .mk id.toList () []

def joinOver (source : SerializedPlan Unit) : SerializedPlan Unit :=
  .mk "0".toList () [leaf "1", .mk "2".toList () [leaf "3", source, leaf "5"], leaf "6"]

theorem splices_source : Spliced (leaf "7") "4".toList (joinOver (leaf "4")) (joinOver (leaf "7")) :=
  (splices_exactly (joinOver (leaf "4")) (leaf "7") "4".toList (by decide)).1 (by decide)

end CactusDB.Optimizer.PlanSplice
