import Mathlib.Logic.Basic

/-! Actions on a state that may stop with an error; the state reached so far is kept when an action
stops. Two rules of reasoning: a preorder that every part of an action respects is respected by the
whole, and what one part of an action brings about, and the other parts do not undo, is brought
about by the whole when it succeeds. -/

namespace CactusDB.Library.Stateful

abbrev Procedure (ε σ α : Type) := ExceptT ε (StateM σ) α

variable {ε σ α β : Type}

def run (action : Procedure ε σ α) (state : σ) : Except ε α × σ := action state

@[simp] theorem run_pure (value : α) (state : σ) :
    run (pure value : Procedure ε σ α) state = (.ok value, state) := rfl

@[simp] theorem run_throw (error : ε) (state : σ) :
    run (throw error : Procedure ε σ α) state = (.error error, state) := rfl

@[simp] theorem run_get (state : σ) : run (get : Procedure ε σ σ) state = (.ok state, state) := rfl

@[simp] theorem run_set (new state : σ) :
    run (set new : Procedure ε σ PUnit) state = (.ok ⟨⟩, new) := rfl

@[simp] theorem run_modify (change : σ → σ) (state : σ) :
    run (modify change : Procedure ε σ PUnit) state = (.ok ⟨⟩, change state) := rfl

theorem run_bind (action : Procedure ε σ α) (next : α → Procedure ε σ β) (state : σ) :
    run (action >>= next) state =
      match run action state with
      | (.ok value, after) => run (next value) after
      | (.error error, after) => (.error error, after) := by
  have unfolded : run (action >>= next) state =
      (ExceptT.bindCont (m := StateM σ) next) (run action state).1 (run action state).2 := rfl
  rw [unfolded]
  rcases run action state with ⟨_ | _, after⟩ <;> rfl

variable {action : Procedure ε σ α} {next : α → Procedure ε σ β}

theorem run_bind_ok {state after : σ} {value : β} (success : run (action >>= next) state = (.ok value, after)) :
    ∃ first middle, run action state = (.ok first, middle) ∧
      run (next first) middle = (.ok value, after) := by
  rw [run_bind] at success
  split at success
  · next first middle outcome => exact ⟨first, middle, outcome, success⟩
  · simp at success

section

variable {τ : Type} (part : σ → τ) (put : τ → σ → σ) (action : Procedure ε τ α)
include τ

def zoom : Procedure ε σ α :=
  fun state => ((run action (part state)).1, put (run action (part state)).2 state)

@[simp] theorem run_zoom (state : σ) :
    run (zoom part put action) state =
      ((run action (part state)).1, put (run action (part state)).2 state) := rfl

end

/-- Whatever the outcome, the states before and after are related. -/
def Respects (rel : σ → σ → Prop) (action : Procedure ε σ α) : Prop :=
  ∀ state, rel state (run action state).2

/-- On success the result stands in a relation to the states before and after. -/
def Returns (post : σ → α → σ → Prop) (action : Procedure ε σ α) : Prop :=
  ∀ state value after, run action state = (.ok value, after) → post state value after

/-- On success the states before and after are related. -/
abbrev Ensures (rel : σ → σ → Prop) (action : Procedure ε σ α) : Prop :=
  Returns (fun before _ after => rel before after) action

variable {rel goal : σ → σ → Prop}

theorem Respects.ensures (respects : Respects rel action) : Ensures rel action := by
  intro state value after success
  have step := respects state
  rwa [success] at step

/-- A property of actions that passes from the parts to the whole. -/
structure Composes (holds : ∀ {α : Type}, Procedure ε σ α → Prop) : Prop where
  pure : ∀ {α : Type} (value : α), holds (pure value : Procedure ε σ α)
  bind : ∀ {α β : Type} {action : Procedure ε σ α} {next : α → Procedure ε σ β}, holds action →
    (∀ value, holds (next value)) → holds (action >>= next)

structure Stable (rel : σ → σ → Prop) : Prop where
  refl : ∀ state, rel state state
  trans : ∀ {a b c}, rel a b → rel b c → rel a c

namespace Stable

section

variable (stable : Stable rel)
include stable

theorem pure (value : α) : Respects rel (pure value : Procedure ε σ α) := stable.refl

theorem throw (error : ε) : Respects rel (throw error : Procedure ε σ α) := stable.refl

theorem get : Respects rel (get : Procedure ε σ σ) := stable.refl

theorem bind (first : Respects rel action) (rest : ∀ value, Respects rel (next value)) :
    Respects rel (action >>= next) := by
  intro state
  have step := first state
  rw [run_bind]
  split
  · next value middle outcome =>
      rw [outcome] at step
      exact stable.trans step (rest value middle)
  · next error middle outcome => rwa [outcome] at step

theorem composes : Composes fun {α} => Respects (ε := ε) (α := α) rel := ⟨stable.pure, stable.bind⟩

end

theorem of_invariant (invariant : σ → Prop) :
    Stable fun before after => invariant before → invariant after where
  refl _ holds := holds
  trans first second holds := second (first holds)

end Stable

theorem respects_modify {change : σ → σ} (step : ∀ state, rel state (change state)) :
    Respects rel (modify change : Procedure ε σ PUnit) := step

theorem respects_zoom {τ : Type} {part : σ → τ} {put : τ → σ → σ} {inner : τ → τ → Prop}
    {action : Procedure ε τ α} (respects : Respects inner action)
    (lift : ∀ state new, inner (part state) new → rel state (put new state)) :
    Respects rel (zoom part put action) :=
  fun state => lift state _ (respects (part state))

theorem returns_throw {post : σ → α → σ → Prop} (error : ε) : Returns post (throw error : Procedure ε σ α) := by
  intro state value after success
  simp at success

theorem returns_bind {early : σ → α → σ → Prop} {late : α → σ → β → σ → Prop} {post : σ → β → σ → Prop}
    (first : Returns early action) (rest : ∀ value, Returns (late value) (next value))
    (join : ∀ a value b result c, early a value b → late value b result c → post a result c) :
    Returns post (action >>= next) := by
  intro state value after success
  obtain ⟨result, middle, start, finish⟩ := run_bind_ok success
  exact join _ _ _ _ _ (first state result middle start) (rest result middle value after finish)

/-- A preorder on states and a goal that steps along the preorder do not undo. -/
structure Keeps (rel goal : σ → σ → Prop) : Prop where
  stable : Stable rel
  weaken : ∀ {a b}, goal a b → rel a b
  before : ∀ {a b c}, rel a b → goal b c → goal a c
  after : ∀ {a b c}, goal a b → rel b c → goal a c

namespace Keeps

variable {action : Procedure ε σ α} {next : α → Procedure ε σ β}

variable (keeps : Keeps rel goal)
include keeps

theorem pure (value : α) : Ensures rel (pure value : Procedure ε σ α) :=
  (keeps.stable.pure value).ensures

theorem bind (first : Ensures rel action) (rest : ∀ value, Ensures rel (next value)) : Ensures rel (action >>= next):=
  returns_bind first rest fun _ _ _ _ _ => keeps.stable.trans

theorem composes : Composes fun {α} => Ensures (ε := ε) (α := α) rel := ⟨keeps.pure, keeps.bind⟩

theorem bind_first (first : Ensures goal action)
    (rest : ∀ value, Ensures rel (next value)) : Ensures goal (action >>= next) :=
  returns_bind first rest fun _ _ _ _ _ => keeps.after

theorem bind_rest (first : Ensures rel action)
    (rest : ∀ value, Ensures goal (next value)) : Ensures goal (action >>= next) :=
  returns_bind first rest fun _ _ _ _ _ => keeps.before

theorem ensures (reached : Ensures goal action) : Ensures rel action :=
  fun state value after success => keeps.weaken (reached state value after success)

end Keeps

end CactusDB.Library.Stateful
