import Mathlib.Data.List.Basic

/-! Steps that may fail, one after another and in loops. -/

namespace CactusDB.Library.Fallible
open List

universe u v w

variable {ε α β γ σ : Type} {first : Except ε α}

theorem ok_bind (value : α) (next : α → Except ε β) : (Except.ok value >>= next) = next value := rfl

theorem exists_of_bind_ok {next : α → Except ε β} {result : β}
    (done : (first >>= next) = .ok result) : ∃ middle, first = .ok middle ∧ next middle = .ok result := by
  cases first with
  | error problem => cases done
  | ok middle => exact ⟨middle, rfl, done⟩

theorem exists_of_map_ok {change : α → β} {result : β}
    (done : first.map change = .ok result) : ∃ middle, first = .ok middle ∧ change middle = result := by
  cases first with
  | error problem => cases done
  | ok middle => exact ⟨middle, rfl, Except.ok.inj done⟩

theorem mapM_eq_pure {m : Type u → Type v} [Monad m] [LawfulMonad m] {γ : Type w} {α : Type u} {rounds : List γ}
    {step : γ → m α} {value : γ → α}
    (each : ∀ round ∈ rounds, step round = pure (value round)) : rounds.mapM step = pure (rounds.map value) := by
  induction rounds with
  | nil => rfl
  | cons round rest ih =>
    have later := ih fun other mem => each other (mem_cons_of_mem round mem)
    rw [mapM_cons, each round mem_cons_self, later]
    simp

theorem mapM_eq_none {γ : Type w} {α : Type u} {step : γ → Option α} {round : γ} {rounds : List γ}
    (mem : round ∈ rounds) (fails : step round = none) : rounds.mapM step = none := by
  induction rounds with
  | nil => cases mem
  | cons first rest ih =>
    rw [mapM_cons]
    cases mem with
    | head =>
      rw [fails]
      rfl
    | tail _ behind =>
      rw [ih behind]
      cases step first <;> rfl

variable {step : γ → Option α} {round : γ}

/-- What a loop finds, round by round. -/
theorem mapM_eq_some_iff {rounds : List γ} {values : List α} :
    rounds.mapM step = some values ↔ rounds.map step = values.map some := by
  induction rounds generalizing values with
  | nil => cases values <;> simp
  | cons round rest ih =>
    rw [mapM_cons, map_cons]
    cases found : step round with
    | none => cases values <;> simp
    | some value =>
      cases later : rest.mapM step with
      | none =>
        cases values with
        | nil => simp
        | cons first others =>
          have other : rest.map step ≠ others.map some := fun same => by simp [ih.mpr same] at later
          simp [other]
      | some found =>
        have rounds := ih.mp later
        cases values with
        | nil => simp
        | cons first others =>
          simp [rounds, map_inj_right]

variable {step : γ → Except ε α}

/-- A loop goes through when every round does, and what it collects goes with its rounds. -/
theorem exists_mapM_forall₂ {rounds : List γ} {Good : γ → α → Prop}
    (each : ∀ round ∈ rounds, ∃ value, step round = .ok value ∧ Good round value) :
    ∃ values, rounds.mapM step = .ok values ∧ List.Forall₂ Good rounds values := by
  induction rounds with
  | nil => exact ⟨[], rfl, .nil⟩
  | cons round rest ih =>
    obtain ⟨value, first, good⟩ := each round mem_cons_self
    obtain ⟨values, later, others⟩ := ih fun other mem => each other (mem_cons_of_mem round mem)
    refine ⟨value :: values, ?_, .cons good others⟩
    rw [mapM_cons, first, later]
    rfl

theorem mapM_cons_ok {rest : List γ} {collected : List α} (done : (round :: rest).mapM step = .ok collected) :
    ∃ value values, step round = .ok value ∧ rest.mapM step = .ok values ∧ collected = value :: values := by
  rw [mapM_cons] at done
  obtain ⟨value, first, done⟩ := exists_of_bind_ok done
  obtain ⟨values, later, done⟩ := exists_of_bind_ok done
  exact ⟨value, values, first, later, (Except.ok.inj done).symm⟩

/-- What a loop collects came from its rounds. -/
theorem exists_of_mem_mapM {rounds : List γ} {collected : List α}
    (done : rounds.mapM step = .ok collected) {result : α} (mem : result ∈ collected) :
    ∃ round ∈ rounds, step round = .ok result := by
  induction rounds generalizing collected with
  | nil =>
    cases done
    cases mem
  | cons round rest ih =>
    obtain ⟨value, values, first, later, rfl⟩ := mapM_cons_ok done
    cases mem with
    | head => exact ⟨round, mem_cons_self, first⟩
    | tail _ behind =>
      obtain ⟨other, inRest, same⟩ := ih later behind
      exact ⟨other, mem_cons_of_mem round inRest, same⟩

/-- A loop fails when one of its rounds does. -/
theorem mapM_fails {rounds : List γ} (mem : round ∈ rounds) {problem : ε} (failed : step round = .error problem) :
    ∃ problem, rounds.mapM step = .error problem := by
  cases done : rounds.mapM step with
  | error problem => exact ⟨problem, rfl⟩
  | ok collected =>
    induction rounds generalizing collected with
    | nil => cases mem
    | cons first rest ih =>
      obtain ⟨value, values, head, later, _⟩ := mapM_cons_ok done
      cases mem with
      | head => cases head.symm.trans failed
      | tail _ behind =>
        obtain ⟨_, stopped⟩ := ih behind values later
        cases stopped

/-- A loop over a state goes through when every round does, from all states that keep an invariant. -/
theorem foldlM_succeeds {rounds : List γ} (step : σ → γ → Except ε σ) (Good : σ → Prop)
    (each : ∀ round ∈ rounds, ∀ before, Good before → ∃ after, step before round = .ok after ∧ Good after)
    (before : σ) (good : Good before) : ∃ after, rounds.foldlM step before = .ok after := by
  induction rounds generalizing before with
  | nil => exact ⟨before, rfl⟩
  | cons round rest ih =>
    obtain ⟨middle, first, kept⟩ := each round mem_cons_self before good
    obtain ⟨after, done⟩ := ih (fun other mem => each other (mem_cons_of_mem round mem)) middle kept
    refine ⟨after, ?_⟩
    rw [foldlM_cons, first]
    exact done

/-- A loop whose rounds leave the state as it is does so as a whole. -/
theorem foldlM_unchanged {rounds : List γ} {step : σ → γ → Except ε σ} {state : σ}
    (each : ∀ round ∈ rounds, step state round = .ok state) : rounds.foldlM step state = .ok state := by
  induction rounds with
  | nil => rfl
  | cons round rest ih =>
    rw [foldlM_cons, each round mem_cons_self]
    exact ih fun other mem => each other (mem_cons_of_mem round mem)

/-- A loop over a state that goes through went through each of its rounds. -/
theorem exists_of_foldlM_ok {rounds : List γ} {step : σ → γ → Except ε σ} {before after : σ}
    (done : rounds.foldlM step before = .ok after) (mem : round ∈ rounds) :
    ∃ first second, step first round = .ok second := by
  induction rounds generalizing before with
  | nil => cases mem
  | cons other rest ih =>
    rw [foldlM_cons] at done
    obtain ⟨middle, head, tail⟩ := exists_of_bind_ok done
    cases mem with
    | head => exact ⟨before, middle, head⟩
    | tail _ behind => exact ih tail behind

end CactusDB.Library.Fallible
