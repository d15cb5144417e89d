import CactusDB.Library.ByteStream

/-! Two parties work through one list of transfers over a pair of byte streams. Each party sends
the messages that are its own and waits for the others, at its own pace. -/

namespace CactusDB.Library.Conversation

open ByteStream List Function Option

inductive Side where
  | client | server
  deriving DecidableEq, Repr

namespace Side

def other : Side → Side
  | client => server
  | server => client

theorem ne_iff {s t : Side} : s ≠ t ↔ s = t.other := by
  cases s <;> cases t <;> decide

theorem eq_or_eq_other (s t : Side) : s = t ∨ s = t.other := by
  cases s <;> cases t <;> decide

theorem other_ne (s : Side) : s.other ≠ s := by
  cases s <;> decide

@[simp] theorem other_other (s : Side) : s.other.other = s := by
  cases s <;> rfl

end Side

variable {B : Type}

/-- How a party waits for a message: one call takes at most `limit` bytes and makes a text of them. -/
structure Reader (B : Type) where
  limit : Nat
  decode : List B → Option (List B)

structure Transfer (B : Type) where
  sender : Side
  message : List B
  reader : Reader B

structure Transfer.Fits (transfer : Transfer B) : Prop where
  filled : transfer.message ≠ []
  length : transfer.message.length ≤ transfer.reader.limit
  decode : transfer.reader.decode transfer.message = some transfer.message

structure State (B : Type) where
  position : Side → Nat
  obtained : Side → List (Option (List B))
  inbox : Side → Channel B

def initial : State B := ⟨fun _ => 0, fun _ => [], fun _ => .empty⟩

namespace State

variable (state : State B) (side : Side)

def advance : Side → Nat :=
  update state.position side (state.position side + 1)

def send (transfer : Transfer B) : State B where
  position := state.advance side
  obtained := state.obtained
  inbox := update state.inbox side.other ((state.inbox side.other).send transfer.message)

def receive (reader : Reader B) : State B where
  position := state.advance side
  obtained := update state.obtained side
    (state.obtained side ++ [reader.decode ((state.inbox side).next reader.limit)])
  inbox := update state.inbox side ((state.inbox side).receive reader.limit)

def deliver (upTo : Nat) : State B where
  position := state.position
  obtained := state.obtained
  inbox := update state.inbox side ((state.inbox side).deliver upTo)

end State

/-- One step of a party or of the network. A call that waits returns when at least one byte is there. -/
inductive Step (transfers : List (Transfer B)) (state : State B) : State B → Prop
  | send (side : Side) (transfer : Transfer B) (here : transfers[state.position side]? = some transfer)
      (own : transfer.sender = side) : Step transfers state (state.send side transfer)
  | receive (side : Side) (transfer : Transfer B) (here : transfers[state.position side]? = some transfer)
      (foreign : transfer.sender ≠ side) (arrived : (state.inbox side).available ≠ []) :
      Step transfers state (state.receive side transfer.reader)
  | deliver (side : Side) (upTo : Nat) (forward : (state.inbox side).delivered < upTo)
      (sent : upTo ≤ (state.inbox side).stream.length) : Step transfers state (state.deliver side upTo)

/-- A step in which whatever the network delivers is the next message, whole and on its own. -/
def MessageWise (before after : State B) : Prop :=
  ∀ side, (after.inbox side).delivered ≠ (before.inbox side).delivered →
    (before.inbox side).Whole (after.inbox side).delivered

inductive Run (transfers : List (Transfer B)) (allowed : State B → State B → Prop) : State B → Prop
  | start : Run transfers allowed initial
  | step {state after : State B} (run : Run transfers allowed state) (step : Step transfers state after)
      (permitted : allowed state after) : Run transfers allowed after

inductive Event where
  | send (side : Side)
  | receive (side : Side)
  | deliver (side : Side) (upTo : Nat)

def perform (transfers : List (Transfer B)) (state : State B) : Event → Option (State B)
  | .send side =>
    match transfers[state.position side]? with
    | some transfer => if transfer.sender = side then some (state.send side transfer) else none
    | none => none
  | .receive side =>
    match transfers[state.position side]? with
    | some transfer =>
      if transfer.sender ≠ side ∧ (state.inbox side).available.isEmpty = false then
        some (state.receive side transfer.reader)
      else none
    | none => none
  | .deliver side upTo =>
    if (state.inbox side).delivered < upTo ∧ upTo ≤ (state.inbox side).stream.length then
      some (state.deliver side upTo)
    else none

variable {transfers : List (Transfer B)} {state after : State B}

theorem step_of_perform {event : Event}
    (performed : perform transfers state event = some after) : Step transfers state after := by
  unfold perform at performed
  cases event with
  | send side =>
    dsimp only at performed
    split at performed
    case h_1 transfer here =>
      split at performed
      case isTrue own =>
        obtain rfl := some.inj performed
        exact .send side transfer here own
      case isFalse => exact absurd performed nofun
    case h_2 => exact absurd performed nofun
  | receive side =>
    dsimp only at performed
    split at performed
    case h_1 transfer here =>
      split at performed
      case isTrue can =>
        obtain rfl := some.inj performed
        refine .receive side transfer here can.1 fun none => ?_
        have filled := can.2
        rw [none] at filled
        exact absurd filled nofun
      case isFalse => exact absurd performed nofun
    case h_2 => exact absurd performed nofun
  | deliver side upTo =>
    dsimp only at performed
    split at performed
    case isTrue can =>
      obtain rfl := some.inj performed
      exact .deliver side upTo can.1 can.2
    case isFalse => exact absurd performed nofun

theorem run_of_performed (run : Run transfers (fun _ _ => True) state) {events : List Event}
    (performed : events.foldlM (perform transfers) state = some after) : Run transfers (fun _ _ => True) after := by
  induction events generalizing state with
  | nil =>
    obtain rfl := some.inj performed
    exact run
  | cons event events ih =>
    rw [foldlM_cons] at performed
    obtain ⟨middle, first, rest⟩ := bind_eq_some_iff.mp performed
    exact ih (run.step (step_of_perform first) trivial) rest

theorem Step.position_le (step : Step transfers state after) (bounded : ∀ side, state.position side ≤ transfers.length)
    (side : Side) : after.position side ≤ transfers.length := by
  cases step with
  | send mover transfer here | receive mover transfer here =>
    have inside := (List.getElem?_eq_some_iff.mp here).1
    rcases eq_or_ne side mover with rfl | other
    · simpa [State.send, State.receive, State.advance] using Nat.succ_le_of_lt inside
    · simpa [State.send, State.receive, State.advance, other] using bounded side
  | deliver => exact bounded side

theorem Run.position_le {allowed : State B → State B → Prop} (run : Run transfers allowed state) (side : Side) :
    state.position side ≤ transfers.length := by
  induction run generalizing side with
  | start => exact Nat.zero_le _
  | step _ step _ ih => exact step.position_le ih side

def incoming (transfers : List (Transfer B)) (side : Side) (k : Nat) : List (List B) :=
  ((transfers.take k).filter fun transfer => transfer.sender ≠ side).map Transfer.message

section

variable {transfers : List (Transfer B)} {side : Side} {k : Nat} {transfer : Transfer B}

section

variable (transfers : List (Transfer B)) (side : Side) {i j : Nat} (ordered : i ≤ j)
include ordered

theorem incoming_append :
    ∃ more, incoming transfers side j = incoming transfers side i ++ more := by
  obtain ⟨n, rfl⟩ := Nat.exists_eq_add_of_le ordered
  refine ⟨(((transfers.drop i).take n).filter fun transfer => transfer.sender ≠ side).map Transfer.message, ?_⟩
  unfold incoming
  rw [take_add, filter_append, map_append]

theorem incoming_length_mono :
    (incoming transfers side i).length ≤ (incoming transfers side j).length := by
  obtain ⟨more, same⟩ := incoming_append transfers side ordered
  rw [same, length_append]
  exact Nat.le_add_right _ _

end

section

variable (here : transfers[k]? = some transfer)
include here

theorem incoming_own (own : transfer.sender = side) :
    incoming transfers side (k + 1) = incoming transfers side k := by
  unfold incoming
  rw [take_add_one, here]
  simp [own]

theorem incoming_foreign (foreign : transfer.sender ≠ side) :
    incoming transfers side (k + 1) = incoming transfers side k ++ [transfer.message] := by
  unfold incoming
  rw [take_add_one, here]
  simp [foreign]

/-- The next message a party waits for stands after those it has received. -/
theorem incoming_at {j : Nat} (foreign : transfer.sender ≠ side)
    (bound : (incoming transfers side k).length < (incoming transfers side j).length) :
    (incoming transfers side j)[(incoming transfers side k).length]? = some transfer.message := by
  have later : k + 1 ≤ j := by
    by_contra early
    have := incoming_length_mono transfers side (show j ≤ k by omega)
    omega
  obtain ⟨more, same⟩ := incoming_append transfers side later
  rw [same, incoming_foreign here foreign]
  simp

end

theorem incoming_filled (fits : ∀ transfer ∈ transfers, transfer.Fits) :
    ∀ message ∈ incoming transfers side k, message ≠ [] := by
  intro message mem
  obtain ⟨transfer, inside, rfl⟩ := mem_map.mp mem
  exact (fits transfer (mem_of_mem_take (mem_filter.mp inside).1)).filled

end

/-- Every call so far gave exactly its own message. -/
structure Exact (transfers : List (Transfer B)) (state : State B) : Prop where
  obtained : ∀ side, state.obtained side = (incoming transfers side (state.position side)).map some
  sent : ∀ side, (state.inbox side).sent = incoming transfers side (state.position side.other)
  aligned : ∀ side, (state.inbox side).Aligned (incoming transfers side (state.position side)).length

variable {transfers : List (Transfer B)} {state : State B}

theorem exact_initial : Exact transfers initial where
  obtained side := by simp [initial, incoming]
  sent side := by simp [initial, incoming, Channel.empty]
  aligned side := by
    show Channel.empty.Aligned (incoming transfers side 0).length
    simpa [incoming] using Channel.Aligned.empty

open Side

namespace Exact

variable {transfer : Transfer B} {side : Side}

section

variable (exact : Exact transfers state)
include exact

/-- The sender's own messages stay as they are, and the other party's stream grows by one message. -/
theorem send (here : transfers[state.position side]? = some transfer) (own : transfer.sender = side) :
    Exact transfers (state.send side transfer) := by
  have foreign : transfer.sender ≠ side.other := by
    rw [own]
    exact (other_ne side).symm
  have apart : side.other ≠ side := other_ne side
  have same := incoming_own here own
  have more := incoming_foreign here foreign
  refine ⟨fun s => ?_, fun s => ?_, fun s => ?_⟩ <;> rcases eq_or_eq_other s side with rfl | rfl
  · simp only [State.send, State.advance, update_self, same]
    exact exact.obtained s
  · simp only [State.send, State.advance, update_of_ne apart]
    exact exact.obtained side.other
  · simp only [State.send, State.advance, update_of_ne apart, update_of_ne apart.symm]
    exact exact.sent s
  · simp only [State.send, State.advance, update_self, other_other, more, Channel.send]
    have before := exact.sent side.other
    rw [other_other] at before
    rw [before]
  · simp only [State.send, State.advance, update_self, update_of_ne apart.symm, same]
    exact exact.aligned s
  · simp only [State.send, State.advance, update_self, update_of_ne apart]
    exact (exact.aligned side.other).send transfer.message

theorem receive
    (fits : transfer.Fits) (here : transfers[state.position side]? = some transfer) (foreign : transfer.sender ≠ side)
    (arrived : (state.inbox side).available ≠ []) : Exact transfers (state.receive side transfer.reader) := by
  have apart : side.other ≠ side := other_ne side
  have same := incoming_own here (ne_iff.mp foreign)
  have more := incoming_foreign here foreign
  have expected : ∀ bound : (incoming transfers side (state.position side)).length < (state.inbox side).sent.length,
      (state.inbox side).sent[(incoming transfers side (state.position side)).length] = transfer.message := by
    intro bound
    have there := exact.sent side
    rw [there] at bound
    have found := incoming_at here foreign bound
    rw [← there] at found
    exact (List.getElem?_eq_some_iff.mp found).2
  obtain ⟨bound, whole, aligned⟩ := (exact.aligned side).receive transfer.reader.limit arrived fun bound => by
    rw [expected bound]
    exact fits.length
  rw [expected bound] at whole
  refine ⟨fun s => ?_, fun s => ?_, fun s => ?_⟩ <;> rcases eq_or_eq_other s side with rfl | rfl
  · simp only [State.receive, State.advance, update_self, more, whole, fits.decode, exact.obtained s,
      map_append, map_cons, map_nil]
  · simp only [State.receive, State.advance, update_of_ne apart]
    exact exact.obtained side.other
  · simp only [State.receive, State.advance, update_self, update_of_ne apart]
    exact exact.sent s
  · simp only [State.receive, State.advance, update_of_ne apart, other_other, update_self, same]
    simpa using exact.sent side.other
  · simp only [State.receive, State.advance, update_self, more, length_append, length_singleton]
    exact aligned
  · simp only [State.receive, State.advance, update_of_ne apart]
    exact exact.aligned side.other

theorem filled (fits : ∀ transfer ∈ transfers, transfer.Fits) (side : Side) :
    ∀ message ∈ (state.inbox side).sent, message ≠ [] := by
  rw [exact.sent side]
  exact incoming_filled fits

theorem deliver (fits : ∀ transfer ∈ transfers, transfer.Fits) {upTo : Nat}
    (whole : (state.inbox side).Whole upTo) : Exact transfers (state.deliver side upTo) := by
  have apart : side.other ≠ side := other_ne side
  refine ⟨exact.obtained, fun s => ?_, fun s => ?_⟩ <;> rcases eq_or_eq_other s side with rfl | rfl
  · simp only [State.deliver, update_self]
    exact exact.sent s
  · simp only [State.deliver, update_of_ne apart]
    exact exact.sent side.other
  · simp only [State.deliver, update_self]
    exact (exact.aligned s).deliver (exact.filled fits s) whole
  · simp only [State.deliver, update_of_ne apart]
    exact exact.aligned side.other

end

theorem step (exact : Exact transfers state) (fits : ∀ transfer ∈ transfers, transfer.Fits) {after : State B}
    (step : Step transfers state after) (messageWise : MessageWise state after) : Exact transfers after := by
  cases step with
  | send side transfer here own => exact exact.send here own
  | receive side transfer here foreign arrived =>
    exact exact.receive (fits transfer (mem_of_getElem? here)) here foreign arrived
  | deliver side upTo forward sent =>
    have whole := messageWise side
    simp only [State.deliver, update_self, Channel.deliver] at whole
    exact exact.deliver fits (whole (Nat.ne_of_gt forward))

/-- The invariant along a run: no call gives a part of a message or two messages at once. -/
theorem run (fits : ∀ transfer ∈ transfers, transfer.Fits) (run : Run transfers MessageWise state) :
    Exact transfers state := by
  induction run with
  | start => exact exact_initial
  | step _ step permitted before => exact before.step fits step permitted

theorem messageWise_of_send (side : Side) (transfer : Transfer B) : MessageWise state (state.send side transfer) := by
  intro s changed
  by_cases here : s = side.other
  · subst here
    simp [State.send, Channel.send] at changed
  · simp [State.send, update_of_ne here] at changed

theorem messageWise_of_receive (side : Side) (reader : Reader B) : MessageWise state (state.receive side reader) := by
  intro s changed
  by_cases here : s = side
  · subst here
    simp [State.receive, Channel.receive] at changed
  · simp [State.receive, update_of_ne here] at changed

theorem messageWise_of_deliver {upTo : Nat} (whole : (state.inbox side).Whole upTo) :
    MessageWise state (state.deliver side upTo) := by
  intro s changed
  by_cases here : s = side
  · subst here
    simpa [State.deliver, Channel.deliver] using whole
  · simp [State.deliver, update_of_ne here] at changed

variable (exact : Exact transfers state)
include exact

/-- What a party waits for has been sent when the other party is further on. -/
theorem pending (here : transfers[state.position side]? = some transfer) (foreign : transfer.sender ≠ side)
    (behind : state.position side < state.position side.other) :
    (incoming transfers side (state.position side)).length < (state.inbox side).sent.length := by
  have longer := incoming_length_mono transfers side
    (show state.position side + 1 ≤ state.position side.other from behind)
  rw [incoming_foreign here foreign, length_append, length_singleton, ← exact.sent side] at longer
  exact longer

/-- A party that is as far as the other has taken all that it was sent. -/
theorem drained (level : state.position side.other ≤ state.position side) :
    (state.inbox side).available = [] ∧ (state.inbox side).delivered = (state.inbox side).stream.length := by
  have shorter := incoming_length_mono transfers side level
  rw [← exact.sent side] at shorter
  have aligned := exact.aligned side
  have all : (incoming transfers side (state.position side)).length = (state.inbox side).sent.length :=
    Nat.le_antisymm aligned.bound shorter
  cases aligned.available_cases with
  | inl drained =>
    refine ⟨drained.1, ?_⟩
    rw [← drained.2, aligned.read, all, Channel.boundary, take_length]
    rfl
  | inr found =>
    obtain ⟨inside, _⟩ := found
    omega

/-- A message that was sent and not yet received is there to be taken, or can be delivered. -/
theorem arrives (fits : ∀ transfer ∈ transfers, transfer.Fits)
    (here : transfers[state.position side]? = some transfer) (foreign : transfer.sender ≠ side)
    (behind : state.position side < state.position side.other) :
    (state.inbox side).available ≠ [] ∨ ∃ upTo, Step transfers state (state.deliver side upTo) ∧
      MessageWise state (state.deliver side upTo) ∧ ((state.deliver side upTo).inbox side).available ≠ [] := by
  cases (exact.aligned side).available_cases with
  | inl drained =>
    obtain ⟨upTo, whole, forward, sent⟩ := (exact.aligned side).exists_whole (exact.filled fits side)
      (exact.pending here foreign behind) drained.2
    refine .inr ⟨upTo, .deliver side upTo forward sent, messageWise_of_deliver whole, ne_nil_of_length_pos ?_⟩
    have more : 0 < min upTo (state.inbox side).stream.length - (state.inbox side).read := by omega
    simpa [State.deliver, Channel.deliver, Channel.available, Channel.stream] using more
  | inr found =>
    obtain ⟨inside, same⟩ := found
    exact .inl (same ▸ exact.filled fits side _ (getElem_mem inside))

/-- Until both parties are done some step is possible. The party that is behind finds its message
sent already, or it is its own or the other party's turn to send it. -/
theorem progress (fits : ∀ transfer ∈ transfers, transfer.Fits)
    (unfinished : state.position side < transfers.length) :
    ∃ after, Step transfers state after ∧ MessageWise state after := by
  obtain ⟨behind, ordered, inside⟩ : ∃ s : Side, state.position s ≤ state.position s.other ∧
      state.position s < transfers.length := by
    rcases Nat.le_total (state.position side) (state.position side.other) with less | more
    · exact ⟨side, less, unfinished⟩
    · exact ⟨side.other, by rwa [other_other], Nat.lt_of_le_of_lt more unfinished⟩
  obtain ⟨transfer, here⟩ : ∃ transfer, transfers[state.position behind]? = some transfer :=
    ⟨_, getElem?_eq_getElem inside⟩
  by_cases own : transfer.sender = behind
  · exact ⟨_, .send behind transfer here own, messageWise_of_send behind transfer⟩
  · rcases Nat.eq_or_lt_of_le ordered with level | less
    · rw [level] at here
      exact ⟨_, .send behind.other transfer here (ne_iff.mp own), messageWise_of_send behind.other transfer⟩
    · rcases exact.arrives fits here own less with arrived | ⟨upTo, step, whole, _⟩
      · exact ⟨_, .receive behind transfer here own arrived, messageWise_of_receive behind transfer.reader⟩
      · exact ⟨_, step, whole⟩

end Exact

/-- The party that is behind receives the next message, after the network has delivered it. -/
theorem Run.catch_up (fits : ∀ transfer ∈ transfers, transfer.Fits) (run : Run transfers MessageWise state)
    {side : Side}
    {transfer : Transfer B} (here : transfers[state.position side]? = some transfer) (foreign : transfer.sender ≠ side)
    (behind : state.position side < state.position side.other) :
    ∃ after, Run transfers MessageWise after ∧ after.position = state.advance side := by
  rcases (Exact.run fits run).arrives fits here foreign behind with arrived | ⟨upTo, step, whole, arrived⟩
  · exact ⟨_, run.step (.receive side transfer here foreign arrived)
      (Exact.messageWise_of_receive side transfer.reader), rfl⟩
  · exact ⟨_, (run.step step whole).step (.receive side transfer here foreign arrived)
      (Exact.messageWise_of_receive side transfer.reader), rfl⟩

/-- The parties can go through the transfers one after another, up to any point. -/
theorem exists_run_level (fits : ∀ transfer ∈ transfers, transfer.Fits) {k : Nat} (bound : k ≤ transfers.length) :
    ∃ state, Run transfers MessageWise state ∧ ∀ side, state.position side = k := by
  induction k with
  | zero => exact ⟨initial, .start, fun _ => rfl⟩
  | succ k ih =>
    obtain ⟨state, run, level⟩ := ih (Nat.le_of_succ_le bound)
    obtain ⟨transfer, here⟩ : ∃ transfer, transfers[k]? = some transfer := ⟨_, getElem?_eq_getElem bound⟩
    have apart := other_ne transfer.sender
    have sent := run.step (.send transfer.sender transfer (by rw [level]; exact here) rfl)
      (Exact.messageWise_of_send transfer.sender transfer)
    have waiting : (state.send transfer.sender transfer).position transfer.sender.other = k := by
      simp only [State.send, State.advance, update_of_ne apart, level]
    have ahead : (state.send transfer.sender transfer).position transfer.sender = k + 1 := by
      simp only [State.send, State.advance, update_self, level]
    obtain ⟨after, reached, moved⟩ := sent.catch_up fits (by rw [waiting]; exact here)
      apart.symm (by rw [other_other, waiting, ahead]; exact Nat.lt_succ_self k)
    refine ⟨after, reached, fun side => ?_⟩
    rw [moved]
    rcases eq_or_eq_other side transfer.sender with rfl | rfl
    · rw [State.advance, update_of_ne apart.symm, ahead]
    · rw [State.advance, update_self, waiting]

end CactusDB.Library.Conversation
