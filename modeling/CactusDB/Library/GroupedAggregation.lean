import Mathlib.Algebra.Order.Group.Multiset
import CactusDB.Library.Fallible

/-! Batches of rows that belong to different groups. A batch is worked off row by row, and each row
changes the accumulator of its own group only. -/

namespace CactusDB.Library.GroupedAggregation

open Fallible

variable {G ι σ ε : Type} [DecidableEq G]

def received (groups : Nat → G) (gives : Nat → Multiset ι) (rows : List Nat) (group : G) : Multiset ι :=
  ((rows.filter fun row => groups row = group).map gives).sum

variable {groups : Nat → G} {gives : Nat → Multiset ι} {rows : List Nat} {group : G} {row : Nat}

@[simp] theorem received_nil : received groups gives [] group = 0 := rfl

theorem received_cons_own (own : groups row = group) :
    received groups gives (row :: rows) group = gives row + received groups gives rows group := by
  simp [received, own]

theorem received_cons_foreign (foreign : groups row ≠ group) :
    received groups gives (row :: rows) group = received groups gives rows group := by
  simp [received, foreign]

/-- The invariant rule for one group of a batch: its own rows keep the meaning of the accumulator, and
those of other groups leave it alone. `Legal` restricts the inputs and passes to parts. -/
theorem foldlM_denotes {step : (G → σ) → Nat → Except ε (G → σ)} (Denotes : σ → Multiset ι → Prop)
    (Legal : Multiset ι → Prop) (part : ∀ {some all}, some ≤ all → Legal all → Legal some)
    (own : ∀ row ∈ rows, groups row = group → ∀ {before after inputs}, step before row = .ok after →
      Denotes (before group) inputs → Legal (inputs + gives row) → Denotes (after group) (inputs + gives row))
    (foreign : ∀ row ∈ rows, groups row ≠ group → ∀ {before after}, step before row = .ok after →
      after group = before group)
    {before after : G → σ} (done : rows.foldlM step before = .ok after) {inputs : Multiset ι}
    (denotes : Denotes (before group) inputs) (legal : Legal (inputs + received groups gives rows group)) :
    Denotes (after group) (inputs + received groups gives rows group) := by
  induction rows generalizing before inputs with
  | nil =>
    obtain rfl : before = after := Except.ok.inj done
    simpa using denotes
  | cons row rest ih =>
    rw [List.foldlM_cons] at done
    obtain ⟨middle, first, later⟩ := exists_of_bind_ok done
    have restOwn := fun other mem => own other (List.mem_cons_of_mem row mem)
    have restForeign := fun other mem => foreign other (List.mem_cons_of_mem row mem)
    by_cases here : groups row = group
    · rw [received_cons_own here, ← add_assoc] at legal ⊢
      have head : Legal (inputs + gives row) := part (Multiset.le_add_right _ _) legal
      exact ih restOwn restForeign later (own row List.mem_cons_self here first denotes head) legal
    · rw [received_cons_foreign here] at legal ⊢
      exact ih restOwn restForeign later (foreign row List.mem_cons_self here first ▸ denotes) legal

end CactusDB.Library.GroupedAggregation
