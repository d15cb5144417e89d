import Mathlib.Data.List.Chain
import Mathlib.Data.List.Nodup

/-! Aggregation of rows that are clustered by their grouping keys. Groups are given out when there are enough of
them, and the rows of memory in which they stood are used again. -/

namespace CactusDB.Exec.StreamingAggregation
open List Function

variable {R V A O ι : Type}

structure AggregateInfo (R A O : Type) where
  mask : R → Bool
  empty : A
  add : A → R → A
  extract : A → O

structure Aggregation (R V A O ι : Type) where
  groupingKeys : List (R → V)
  aggregates : ι → AggregateInfo R A O
  outputBatchSize : Nat
  positive : 0 < outputBatchSize

structure Batch (R : Type) where
  rows : List R
  filled : rows ≠ []

/-- A group is the number of the row of memory that holds its keys and accumulators. The vector `groups_` is cut into
the groups in use, `numGroups_` of them, and those that can be used again. -/
structure State (R V A ι : Type) where
  groups : List Nat
  reusable : List Nat
  numRows : Nat
  keys : Nat → List V
  accumulators : ι → Nat → A
  prevInput : Option (Batch R)
  input : Option (Batch R)
  noMoreInput : Bool

structure Output (V O ι : Type) where
  keys : List V
  values : ι → O

def create (keys : Nat → List V) (accumulators : ι → Nat → A) : State R V A ι :=
  ⟨[], [], 0, keys, accumulators, none, none, false⟩

def State.addInput (state : State R V A ι) (input : Batch R) : State R V A ι := { state with input := some input }

def State.isFinished (state : State R V A ι) : Bool :=
  state.noMoreInput && state.input.isNone && state.groups.isEmpty

namespace Aggregation

variable (plan : Aggregation R V A O ι)

section

variable (state : State R V A ι)

def equalKeys [DecidableEq V] (row other : R) : Bool := plan.groupingKeys.all fun key => key row = key other

def keysOf (row : R) : List V := plan.groupingKeys.map (· row)

def nextGroup : Nat × List Nat × Nat :=
  match state.reusable with
  | group :: reusable => (group, reusable, state.numRows)
  | [] => (state.numRows, [], state.numRows + 1)

def startNewGroup (row : R) : Nat × State R V A ι :=
  let (group, reusable, numRows) := nextGroup state
  (group, { state with
    groups := state.groups ++ [group], reusable, numRows, keys := update state.keys group (plan.keysOf row) })

variable [DecidableEq V]

def assignFrom (state : State R V A ι) (first : R) (group : Nat) : List R → List Nat × State R V A ι
  | [] => ([], state)
  | row :: rest =>
    if plan.equalKeys first row then
      let (groups, after) := assignFrom state first group rest
      (group :: groups, after)
    else
      let (newGroup, next) := plan.startNewGroup state row
      let (groups, after) := assignFrom next row newGroup rest
      (newGroup :: groups, after)

/-- There is no result if the last group is read where there is none. -/
def assignGroups (input : Batch R) : Option (List Nat × State R V A ι) :=
  match state.prevInput with
  | some prevInput => do
    let prevGroup ← state.groups.getLast?
    return plan.assignFrom state (prevInput.rows.getLast prevInput.filled) prevGroup input.rows
  | none =>
    let first := input.rows.head input.filled
    let (newGroup, next) := plan.startNewGroup state first
    let (groups, after) := plan.assignFrom next first newGroup input.rows.tail
    return (newGroup :: groups, after)

def initializeNewGroups (numPrevGroups : Nat) : State R V A ι :=
  { state with accumulators := fun i group =>
      if group ∈ state.groups.drop numPrevGroups then (plan.aggregates i).empty else state.accumulators i group }

def addRow (i : ι) (accumulators : Nat → A) (entry : R × Nat) : Nat → A :=
  if (plan.aggregates i).mask entry.1 then
    update accumulators entry.2 ((plan.aggregates i).add (accumulators entry.2) entry.1)
  else accumulators

def evaluateAggregates (input : List R) (inputGroups : List Nat) : State R V A ι :=
  { state with accumulators := fun i => (input.zip inputGroups).foldl (plan.addRow i) (state.accumulators i) }

def createOutput (numGroups : Nat) : List (Output V O ι) :=
  (state.groups.take numGroups).map fun group =>
    ⟨state.keys group, fun i => (plan.aggregates i).extract (state.accumulators i group)⟩

def giveOut : Option (List (Output V O ι)) × State R V A ι :=
  if plan.outputBatchSize < state.groups.length then
    (some (plan.createOutput state plan.outputBatchSize), { state with
      groups := state.groups.drop plan.outputBatchSize
      reusable := state.reusable ++ state.groups.take plan.outputBatchSize })
  else (none, state)

def getOutput : Option (Option (List (Output V O ι)) × State R V A ι) :=
  match state.input with
  | none =>
    if state.noMoreInput ∧ 0 < state.groups.length then
      some (some (plan.createOutput state state.groups.length),
        { state with groups := [], reusable := state.groups ++ state.reusable })
    else some (none, state)
  | some input => do
    let (inputGroups, assigned) ← plan.assignGroups state input
    let started := plan.initializeNewGroups assigned state.groups.length
    let evaluated := plan.evaluateAggregates started input.rows inputGroups
    return plan.giveOut { evaluated with prevInput := some input, input := none }

def process (state : State R V A ι) : List (Batch R) → Option (List (Output V O ι) × State R V A ι)
  | [] => some ([], state)
  | batch :: batches => do
    let (output, next) ← plan.getOutput (state.addInput batch)
    let (later, after) ← process next batches
    return (output.getD [] ++ later, after)

def run (batches : List (Batch R)) : Option (List (Output V O ι) × State R V A ι) := do
  let (outputs, after) ← plan.process state batches
  let (last, final) ← plan.getOutput { after with noMoreInput := true }
  return (outputs ++ last.getD [], final)

end

section

/-- The longest stretches of rows with the same keys. -/
structure Runs (rows : List R) (runs : List (List R)) : Prop where
  whole : runs.flatten = rows
  filled : ∀ run ∈ runs, run ≠ []
  equal : ∀ run ∈ runs, ∃ keys, ∀ row ∈ run, plan.keysOf row = keys
  apart : runs.IsChain fun run next => ∀ row ∈ run.getLast?, ∀ other ∈ next.head?, plan.keysOf row ≠ plan.keysOf other

def folded (i : ι) (run : List R) : A :=
  (run.filter (plan.aggregates i).mask).foldl (plan.aggregates i).add (plan.aggregates i).empty

/-- A group is given out with the keys of a run and the aggregates of its rows. -/
def Summary (run : List R) (output : Output V O ι) : Prop :=
  (∀ row ∈ run, plan.keysOf row = output.keys) ∧
    ∀ i, output.values i = (plan.aggregates i).extract (plan.folded i run)

variable {plan} {rows run : List R} {runs : List (List R)} {row other : R}

theorem Runs.same (known : plan.Runs rows (runs ++ [run]))
    (equal : ∀ other ∈ run, plan.keysOf other = plan.keysOf row) :
    plan.Runs (rows ++ [row]) (runs ++ [run ++ [row]]) := by
  have present : run ≠ [] := known.filled run (by simp)
  have before := isChain_append.mp known.apart
  refine ⟨by simp [← known.whole], ?_, ?_, isChain_append.mpr ⟨before.1, .singleton _, ?_⟩⟩
  · exact forall_mem_append.mpr ⟨(forall_mem_append.mp known.filled).1, by simp⟩
  · refine forall_mem_append.mpr ⟨(forall_mem_append.mp known.equal).1, forall_mem_singleton.mpr ⟨plan.keysOf row, ?_⟩⟩
    exact forall_mem_append.mpr ⟨equal, forall_mem_singleton.mpr rfl⟩
  · intro earlier inside next last
    obtain rfl : next = run ++ [row] := by simpa using last.symm
    rw [head?_append_of_ne_nil _ present]
    exact before.2.2 earlier inside run rfl

theorem Runs.next (known : plan.Runs rows runs)
    (apart : ∀ run ∈ runs.getLast?, ∀ other ∈ run.getLast?, plan.keysOf other ≠ plan.keysOf row) :
    plan.Runs (rows ++ [row]) (runs ++ [[row]]) := by
  refine ⟨by simp [known.whole], ?_, ?_, isChain_append.mpr ⟨known.apart, .singleton _, ?_⟩⟩
  · exact forall_mem_append.mpr ⟨known.filled, by simp⟩
  · exact forall_mem_append.mpr ⟨known.equal, by simp⟩
  · intro run last next only other inside entry first
    obtain rfl : next = [row] := by simpa using only.symm
    obtain rfl : entry = row := by simpa using first.symm
    exact apart run last other inside

theorem Runs.last_mem (known : plan.Runs rows (runs ++ [run])) (last : rows.getLast? = some row) : row ∈ run := by
  have present : run ≠ [] := known.filled run (by simp)
  rw [← known.whole, flatten_append, flatten_singleton, getLast?_append_of_ne_nil _ present] at last
  exact mem_of_getLast? last

end

section

variable (given : Nat → List R) (old : List Nat) (entries : List (R × Nat))

def assigned (group : Nat) : List R := (entries.filter fun entry => entry.2 = group).map Prod.fst

def extended (group : Nat) : List R :=
  if group ∈ old then given group ++ assigned entries group else assigned entries group

variable {given old entries} {group : Nat} {row : R}

theorem extended_own (inside : group ∈ old) :
    extended (update given group (given group ++ [row])) old entries =
      extended given old ((row, group) :: entries) := by
  funext place
  by_cases here : place = group
  · subst here
    simp [extended, assigned, inside]
  · simp [extended, assigned, here, Ne.symm here]

theorem extended_new (fresh : group ∉ old) :
    extended (update given group [row]) (old ++ [group]) entries =
      extended given old ((row, group) :: entries) := by
  funext place
  by_cases here : place = group
  · subst here
    simp [extended, assigned, fresh]
  · simp [extended, assigned, here, Ne.symm here]

/-- Each group is given its own rows in their order. -/
theorem foldl_addRow (plan : Aggregation R V A O ι) (i : ι) (accumulators : Nat → A) (group : Nat) :
    entries.foldl (plan.addRow i) accumulators group =
      ((assigned entries group).filter (plan.aggregates i).mask).foldl (plan.aggregates i).add
        (accumulators group) := by
  induction entries generalizing accumulators with
  | nil => rfl
  | cons entry rest ih =>
    rw [foldl_cons, ih, addRow]
    by_cases own : entry.2 = group <;> by_cases wanted : (plan.aggregates i).mask entry.1 <;>
      simp [assigned, own, wanted, eq_comm (a := group)]

end

section

/-- The runs of the rows so far: those that are given out, and those of the groups in use. -/
structure Placed (state : State R V A ι) (rows : List R) (done : List (List R))
    (given : Nat → List R) : Prop where
  runs : plan.Runs rows (done ++ state.groups.map given)
  distinct : (state.groups ++ state.reusable).Nodup
  known : ∀ group ∈ state.groups ++ state.reusable, group < state.numRows
  keys : ∀ group ∈ state.groups, ∀ row ∈ given group, plan.keysOf row = state.keys group

variable {plan} {state : State R V A ι} {rows before : List R} {done : List (List R)}
  {given : Nat → List R} {group : Nat} {row first : R}

theorem Placed.same (placed : plan.Placed state rows done given) (last : state.groups.getLast? = some group)
    (equal : plan.keysOf row = state.keys group) :
    plan.Placed state (rows ++ [row]) done (update given group (given group ++ [row])) := by
  obtain ⟨earlier, split⟩ := getLast?_eq_some_iff.mp last
  have inside : group ∈ state.groups := mem_of_getLast? last
  have distinct := (nodup_append.mp placed.distinct).1
  rw [split, nodup_append] at distinct
  have absent : group ∉ earlier := fun mem => distinct.2.2 group mem group (by simp) rfl
  have runs := placed.runs
  refine ⟨?_, placed.distinct, placed.known, ?_⟩
  · rw [split, map_append, map_singleton, ← append_assoc] at runs ⊢
    rw [map_congr_left fun place mem => update_of_ne (ne_of_mem_of_not_mem mem absent) _ _,
      update_self]
    exact runs.same fun other mem => (placed.keys group inside other mem).trans equal.symm
  · intro place mem other given
    by_cases here : place = group
    · subst here
      rw [update_self, mem_append, mem_singleton] at given
      rcases given with old | rfl
      · exact placed.keys place mem other old
      · exact equal
    · rw [update_of_ne here] at given
      exact placed.keys place mem other given

theorem nextGroup_fresh {group numRows : Nat} {reusable : List Nat}
    (found : nextGroup state = (group, reusable, numRows)) (distinct : (state.groups ++ state.reusable).Nodup)
    (known : ∀ group ∈ state.groups ++ state.reusable, group < state.numRows) :
    (state.groups ++ group :: reusable).Nodup ∧ ∀ place ∈ state.groups ++ group :: reusable, place < numRows := by
  unfold nextGroup at found
  cases free : state.reusable with
  | cons group rest =>
    rw [free] at found distinct known
    cases found
    exact ⟨distinct, known⟩
  | nil =>
    rw [free, append_nil] at distinct known
    rw [free] at found
    cases found
    constructor
    · refine nodup_append.mpr ⟨distinct, nodup_singleton _, fun place mem other only => ?_⟩
      exact mem_singleton.mp only ▸ Nat.ne_of_lt (known place mem)
    · refine forall_mem_append.mpr ⟨fun place mem => Nat.lt_succ_of_lt (known place mem), ?_⟩
      exact forall_mem_singleton.mpr (Nat.lt_succ_self _)

theorem startNewGroup_placed (row : R) (placed : plan.Placed state rows done given)
    (apart : ∀ run ∈ (done ++ state.groups.map given).getLast?, ∀ other ∈ run.getLast?,
      plan.keysOf other ≠ plan.keysOf row) :
    ∃ group next, plan.startNewGroup state row = (group, next) ∧ group ∉ state.groups ∧
      next.groups = state.groups ++ [group] ∧ next.keys group = plan.keysOf row ∧
      next.accumulators = state.accumulators ∧
      plan.Placed next (rows ++ [row]) done (update given group [row]) := by
  rcases found : nextGroup state with ⟨group, reusable, numRows⟩
  obtain ⟨distinct, known⟩ := nextGroup_fresh found placed.distinct placed.known
  have fresh : group ∉ state.groups := fun mem => (nodup_append.mp distinct).2.2 group mem group (by simp) rfl
  simp only [startNewGroup, found]
  refine ⟨_, _, rfl, fresh, rfl, update_self .., rfl, ?_, by simpa using distinct, by simpa using known, ?_⟩
  · rw [map_append, map_singleton, ← append_assoc, update_self,
      map_congr_left fun place mem => update_of_ne (ne_of_mem_of_not_mem mem fresh) _ _]
    exact placed.runs.next apart
  · refine forall_mem_append.mpr ⟨fun place old other inside => ?_, by simp⟩
    have different := ne_of_mem_of_not_mem old fresh
    rw [update_of_ne different] at inside
    exact (placed.keys place old other inside).trans (update_of_ne different ..).symm

variable [DecidableEq V]

theorem equalKeys_iff {other : R} : plan.equalKeys row other = true ↔ plan.keysOf row = plan.keysOf other := by
  simp [equalKeys, keysOf, map_inj_left]

theorem assignFrom_placed (rows : List R) (placed : plan.Placed state before done given)
    (last : state.groups.getLast? = some group) (same : plan.keysOf first = state.keys group) :
    ∃ groups after, plan.assignFrom state first group rows = (groups, after) ∧
      plan.Placed after (before ++ rows) done (extended given state.groups (rows.zip groups)) ∧
      (∃ new, after.groups = state.groups ++ new) ∧ after.accumulators = state.accumulators := by
  induction rows generalizing state before given first group with
  | nil =>
    refine ⟨[], state, rfl, ?_, ⟨[], (append_nil _).symm⟩, rfl⟩
    rw [append_nil]
    have unchanged : state.groups.map (extended given state.groups []) = state.groups.map given :=
      map_congr_left fun place mem => by simp [extended, assigned, mem]
    refine ⟨unchanged ▸ placed.runs, placed.distinct, placed.known, fun place mem => ?_⟩
    simpa [extended, assigned, mem] using placed.keys place mem
  | cons row rest ih =>
    have whole : before ++ row :: rest = before ++ [row] ++ rest := by simp
    rw [assignFrom, whole]
    by_cases equal : plan.keysOf first = plan.keysOf row
    · obtain ⟨groups, after, done, placed, grown, kept⟩ := ih (placed.same last (equal.symm.trans same)) last same
      rw [if_pos (equalKeys_iff.mpr equal), done]
      rw [extended_own (mem_of_getLast? last)] at placed
      exact ⟨group :: groups, after, rfl, placed, grown, kept⟩
    · have apart : ∀ run ∈ (done ++ state.groups.map given).getLast?, ∀ other ∈ run.getLast?,
          plan.keysOf other ≠ plan.keysOf row := by
        intro run mem other inside
        obtain ⟨earlier, split⟩ := getLast?_eq_some_iff.mp last
        have here : given group = run := by simpa [split] using mem
        rw [placed.keys group (mem_of_getLast? last) other (here ▸ mem_of_getLast? inside), ← same]
        exact equal
      obtain ⟨newGroup, next, started, fresh, grown, stored, untouched, placed⟩ := startNewGroup_placed row placed apart
      obtain ⟨groups, after, done, placed, more, kept⟩ := ih placed (by simp [grown]) stored.symm
      rw [if_neg (mt equalKeys_iff.mp equal), started]
      simp only [done]
      rw [grown, extended_new fresh] at placed
      rw [grown] at more
      obtain ⟨new, more⟩ := more
      exact ⟨newGroup :: groups, after, rfl, placed, ⟨newGroup :: new, by simpa using more⟩, kept.trans untouched⟩

end

section

structure Accounts (state : State R V A ι) (rows : List R) (done : List (List R))
    (given : Nat → List R) : Prop extends plan.Placed state rows done given where
  sums : ∀ group ∈ state.groups, ∀ i, state.accumulators i group = plan.folded i (given group)
  last : (state.prevInput.map fun batch => batch.rows.getLast batch.filled) = rows.getLast?
  present : rows ≠ [] → state.groups ≠ []
  idle : state.input = none

variable {plan} {state : State R V A ι} {rows : List R} {done : List (List R)}
  {given : Nat → List R}

theorem summary_createOutput (accounts : plan.Accounts state rows done given) (numGroups : Nat) :
    Forall₂ plan.Summary ((state.groups.take numGroups).map given) (plan.createOutput state numGroups) := by
  rw [createOutput, forall₂_map_left_iff, forall₂_map_right_iff, forall₂_same]
  intro group mem
  have inside := mem_of_mem_take mem
  exact ⟨accounts.keys group inside, fun i => congrArg _ (accounts.sums group inside i)⟩

/-- The first groups are given out with the runs that they hold. -/
theorem Accounts.giveOut (accounts : plan.Accounts state rows done given) :
    ∃ more, plan.Accounts (plan.giveOut state).2 rows (done ++ more) given ∧
      Forall₂ plan.Summary more ((plan.giveOut state).1.getD []) := by
  unfold Aggregation.giveOut
  split_ifs with enough
  · have order : state.groups ++ state.reusable ~ state.groups.drop plan.outputBatchSize ++
        (state.reusable ++ state.groups.take plan.outputBatchSize) := by
      rw [← append_assoc]
      refine .trans ?_ perm_append_comm
      rw [← append_assoc, take_append_drop]
    refine ⟨_, ⟨⟨?_, order.nodup accounts.distinct, fun group mem => accounts.known group (order.mem_iff.mpr mem),
      fun group mem => accounts.keys group (mem_of_mem_drop mem)⟩,
      fun group mem => accounts.sums group (mem_of_mem_drop mem), accounts.last, fun _ => by simpa using enough,
      accounts.idle⟩, summary_createOutput accounts _⟩
    rw [append_assoc, ← map_append, take_append_drop]
    exact accounts.runs
  · exact ⟨[], by rwa [append_nil], .nil⟩

theorem Runs.eq_nil {runs : List (List R)} (known : plan.Runs [] runs) : runs = [] := by
  refine eq_nil_iff_forall_not_mem.mpr fun run mem => known.filled run mem ?_
  exact flatten_eq_nil_iff.mp known.whole run mem

variable [DecidableEq V]

variable (accounts : plan.Accounts state rows done given)
include accounts

/-- The rows of a batch go on with the last run, or with the first one where there is none. -/
theorem assignGroups_placed (input : Batch R) :
    ∃ groups after, plan.assignGroups (state.addInput input) input = some (groups, after) ∧
      plan.Placed after (rows ++ input.rows) done (extended given state.groups (input.rows.zip groups)) ∧
      (∃ new, after.groups = state.groups ++ new) ∧ after.groups ≠ [] ∧ after.accumulators = state.accumulators := by
  have placed : plan.Placed (state.addInput input) rows done given := ⟨accounts.runs, accounts.distinct,
    accounts.known, accounts.keys⟩
  have known := accounts.last
  cases previous : state.prevInput with
  | some prevInput =>
    rw [previous] at known
    have filled : rows ≠ [] := fun none => by simp [none] at known
    have last : state.groups.getLast? = some _ := getLast?_eq_some_getLast (accounts.present filled)
    obtain ⟨earlier, split⟩ := getLast?_eq_some_iff.mp last
    have runs := accounts.runs
    rw [split, map_append, map_singleton, ← append_assoc] at runs
    have same := accounts.keys _ (mem_of_getLast? last) _ (runs.last_mem known.symm)
    obtain ⟨groups, after, assigned, rest, ⟨new, grown⟩, kept⟩ := assignFrom_placed input.rows placed last same
    refine ⟨groups, after, ?_, rest, ⟨new, grown⟩, ?_, kept⟩
    · simp only [assignGroups, State.addInput, previous, last, ← assigned]
      rfl
    · rw [grown]
      exact append_ne_nil_of_left_ne_nil (accounts.present filled) _
  | none =>
    rw [previous] at known
    obtain rfl : rows = [] := getLast?_eq_none_iff.mp known.symm
    have nothing := accounts.runs.eq_nil
    have empty : state.groups = [] := map_eq_nil_iff.mp (append_eq_nil_iff.mp nothing).2
    obtain ⟨newGroup, next, started, fresh, grown, stored, untouched, placed⟩ :=
      startNewGroup_placed (input.rows.head input.filled) placed (by simp [State.addInput, nothing])
    obtain ⟨groups, after, assigned, rest, ⟨new, more⟩, kept⟩ :=
      assignFrom_placed input.rows.tail placed (by simp [grown]) stored.symm
    refine ⟨newGroup :: groups, after, ?_, ?_, ⟨newGroup :: new, ?_⟩, ?_, kept.trans untouched⟩
    · simp only [assignGroups, State.addInput, previous] at started ⊢
      simp only [started, assigned]
      rfl
    · rw [grown, extended_new fresh] at rest
      have whole : input.rows = input.rows.head input.filled :: input.rows.tail := (cons_head_tail _).symm
      rw [whole]
      exact rest
    · rw [more, grown]
      simp [State.addInput]
    · simp [more, grown]

theorem getOutput_accounts (input : Batch R) :
    ∃ output next more later, plan.getOutput (state.addInput input) = some (output, next) ∧
      plan.Accounts next (rows ++ input.rows) (done ++ more) later ∧ Forall₂ plan.Summary more (output.getD []) := by
  obtain ⟨groups, after, assigned, placed, ⟨new, grown⟩, present, kept⟩ := assignGroups_placed accounts input
  generalize evaluates : ({ plan.evaluateAggregates
    (plan.initializeNewGroups after state.groups.length) input.rows groups
    with prevInput := some input, input := none } : State R V A ι) = next
  have between : plan.Accounts next (rows ++ input.rows) done
    (extended given state.groups (input.rows.zip groups)) := by
    subst evaluates
    refine ⟨⟨placed.runs, placed.distinct, placed.known, placed.keys⟩, ?_, ?_, fun _ => present, rfl⟩
    · intro group mem i
      simp only [evaluateAggregates, initializeNewGroups, foldl_addRow, grown, drop_left, kept]
      change group ∈ after.groups at mem
      rw [grown, mem_append] at mem
      have distinct := (nodup_append.mp placed.distinct).1
      rw [grown, nodup_append] at distinct
      by_cases old : group ∈ state.groups
      · have other : group ∉ new := fun inside => distinct.2.2 group old group inside rfl
        rw [if_neg other, accounts.sums group old i, extended, if_pos old, folded, folded, filter_append, foldl_append]
      · rw [if_pos (mem.resolve_left old), extended, if_neg old, folded]
    · rw [getLast?_append_of_ne_nil _ input.filled, getLast?_eq_some_getLast input.filled]
      rfl
  obtain ⟨more, final, summaries⟩ := between.giveOut
  refine ⟨_, _, more, _, ?_, final, summaries⟩
  subst evaluates
  rw [getOutput]
  simp only [State.addInput] at assigned ⊢
  rw [assigned]
  rfl

theorem process_accounts (batches : List (Batch R)) :
    ∃ outputs after more later, plan.process state batches = some (outputs, after) ∧
      plan.Accounts after (rows ++ batches.flatMap (·.rows)) (done ++ more) later ∧
      Forall₂ plan.Summary more outputs := by
  induction batches generalizing state rows done given with
  | nil => exact ⟨[], state, [], given, rfl, by simpa using accounts, .nil⟩
  | cons batch batches ih =>
    obtain ⟨output, next, some, later, got, between, summaries⟩ := getOutput_accounts accounts batch
    obtain ⟨outputs, after, more, last, processed, final, others⟩ := ih between
    refine ⟨output.getD [] ++ outputs, after, some ++ more, last, ?_, ?_, rel_append summaries others⟩
    · simp only [process, got, Option.bind_eq_bind, Option.bind_some, processed]
      rfl
    · simpa using final

end

/-- However the rows are split into batches, each run of rows with the same keys is given out once and in its place. -/
theorem runs_given_out [DecidableEq V] (keys : Nat → List V) (accumulators : ι → Nat → A) (batches : List (Batch R)) :
    ∃ outputs final runs, plan.run (create keys accumulators) batches = some (outputs, final) ∧
      final.isFinished = true ∧ plan.Runs (batches.flatMap (·.rows)) runs ∧ Forall₂ plan.Summary runs outputs := by
  have start : plan.Accounts (create keys accumulators) [] [] fun _ => [] :=
    ⟨⟨⟨rfl, nofun, nofun, .nil⟩, .nil, nofun, nofun⟩, nofun, rfl, fun present => absurd rfl present, rfl⟩
  obtain ⟨outputs, after, more, given, processed, accounts, summaries⟩ := process_accounts start batches
  have runs := accounts.runs
  rw [nil_append, nil_append] at runs
  simp only [run, processed, Option.bind_eq_bind, Option.bind_some, getOutput, accounts.idle]
  by_cases left : 0 < after.groups.length
  · simp only [left, and_self, if_true]
    refine ⟨_, _, _, rfl, by simp [State.isFinished], runs, rel_append summaries ?_⟩
    have last := summary_createOutput accounts after.groups.length
    rw [take_length] at last
    exact last
  · have empty : after.groups = [] := length_eq_zero_iff.mp (Nat.eq_zero_of_not_pos left)
    simp only [left, and_false, if_false]
    rw [empty] at runs
    exact ⟨_, _, _, rfl, by simp [State.isFinished, empty], runs, by simpa using summaries⟩

end Aggregation

end CactusDB.Exec.StreamingAggregation
