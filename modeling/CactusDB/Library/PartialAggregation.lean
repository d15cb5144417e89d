import Mathlib.Algebra.Order.Group.Multiset

/-! Aggregates that are computed in parts. An accumulator takes raw inputs and the intermediate
states of other accumulators in any order and any nesting; a history records what one
accumulator has taken. -/

namespace CactusDB.Library.PartialAggregation

structure Aggregate (ι σ μ : Type*) where
  fresh : σ
  addRawInput : σ → ι → σ
  extractAccumulator : σ → μ
  addIntermediateResult : σ → μ → σ

inductive History (ι : Type*) where
  | fresh
  | raw (before : History ι) (input : ι)
  | merge (before other : History ι)

variable {ι σ μ : Type*}

def History.inputs : History ι → Multiset ι
  | .fresh => 0
  | .raw before input => input ::ₘ before.inputs
  | .merge before other => before.inputs + other.inputs

/-- Every accumulator that is merged into another has been given an input. -/
def History.Given : History ι → Prop
  | .fresh => True
  | .raw before _ => before.Given
  | .merge before other => before.Given ∧ other.Given ∧ other.inputs ≠ 0

def Aggregate.run (aggregate : Aggregate ι σ μ) : History ι → σ
  | .fresh => aggregate.fresh
  | .raw before input => aggregate.addRawInput (aggregate.run before) input
  | .merge before other =>
    aggregate.addIntermediateResult (aggregate.run before)
      (aggregate.extractAccumulator (aggregate.run other))

def History.ofList (inputs : List ι) : History ι := inputs.foldl .raw .fresh

variable (inputs : List ι)

theorem History.inputs_foldl (before : History ι) :
    (inputs.foldl History.raw before).inputs = before.inputs + inputs := by
  induction inputs generalizing before with
  | nil => simp
  | cons input rest ih =>
    rw [List.foldl_cons, ih, History.inputs, Multiset.cons_add, ← Multiset.cons_coe,
      Multiset.add_cons]

theorem History.inputs_ofList : (History.ofList inputs).inputs = inputs := by
  rw [ofList, inputs_foldl, History.inputs, zero_add]

theorem History.given_foldl {before : History ι} (given : before.Given) : (inputs.foldl History.raw before).Given := by
  induction inputs generalizing before with
  | nil => exact given
  | cons input rest ih => exact @ih (.raw before input) given

theorem History.given_ofList : (History.ofList inputs).Given := @given_foldl _ inputs .fresh trivial

variable (aggregate : Aggregate ι σ μ)

theorem Aggregate.run_foldl (before : History ι) :
    aggregate.run (inputs.foldl History.raw before) =
      inputs.foldl aggregate.addRawInput (aggregate.run before) := by
  induction inputs generalizing before with
  | nil => rfl
  | cons input rest ih => exact ih (.raw before input)

theorem Aggregate.run_ofList :
    aggregate.run (History.ofList inputs) = inputs.foldl aggregate.addRawInput aggregate.fresh :=
  aggregate.run_foldl inputs .fresh

/-- The invariant rule: an accumulator stands for the inputs of its history, however they were
routed, when each single step keeps this. `Legal` restricts the inputs and passes to parts. -/
theorem Aggregate.run_denotes (Denotes : σ → Multiset ι → Prop)
    (Legal : Multiset ι → Prop) (part : ∀ {some all}, some ≤ all → Legal all → Legal some)
    (fresh : Denotes aggregate.fresh 0)
    (raw : ∀ {state inputs input}, Denotes state inputs → Legal (input ::ₘ inputs) →
      Denotes (aggregate.addRawInput state input) (input ::ₘ inputs))
    (merge : ∀ {state other inputs others}, Denotes state inputs → Denotes other others →
      Legal (inputs + others) →
      Denotes (aggregate.addIntermediateResult state (aggregate.extractAccumulator other))
        (inputs + others)) (history : History ι) (legal : Legal history.inputs) :
    Denotes (aggregate.run history) history.inputs := by
  induction history with
  | fresh => exact fresh
  | raw before input ih => exact raw (ih (part (Multiset.le_cons_self _ _) legal)) legal
  | merge before other ihBefore ihOther =>
    exact merge (ihBefore (part (Multiset.le_add_right _ _) legal))
      (ihOther (part (Multiset.le_add_left _ _) legal)) legal

end CactusDB.Library.PartialAggregation
