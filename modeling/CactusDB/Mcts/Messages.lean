import CactusDB.Library.Conversation

/-! The optimizer and the search exchange JSON texts over one socket. A text is sent as it is, without
its length and without an end mark, and each side takes whatever one `recv` call gives it. -/

namespace CactusDB.Mcts.Messages

open Library Conversation List

abbrev optimizer : Side := .client

abbrev search : Side := .server

/-- The bytes of a JSON text. The writers of both sides escape the zero character. -/
structure Message where
  bytes : List UInt8
  filled : bytes ≠ []
  terminated : 0 ∉ bytes

def ack : Message := ⟨[65, 67, 75], by decide, by decide⟩

def bufferSize : Nat := 1024

/-- A buffer is read up to its first zero byte. Without one the reader leaves the buffer, and nothing
is said about what it finds there. -/
def cString (buffer : List UInt8) : Option (List UInt8) :=
  if 0 ∈ buffer then some (buffer.takeWhile (· ≠ 0)) else none

/-- The call fills the front of a buffer of zeroes, which is then read as a string. -/
def receiveJsonFromSocket : Reader UInt8 where
  limit := bufferSize
  decode received := cString (received ++ List.replicate (bufferSize - received.length) 0)

def receiveAck : Reader UInt8 := ⟨1024, some⟩

def receiveMessageBySocket : Reader UInt8 := ⟨10240, some⟩

/-- A command of the search, and the JSON reply of the optimizer where the command has one. The second
request of `takeAction` is an exchange of its own. -/
structure Exchange where
  request : Message
  reply : Option Message

structure Session where
  start : Message
  exchanges : List Exchange
  finished : Message

def Exchange.transfers (exchange : Exchange) : List (Transfer UInt8) :=
  [⟨search, exchange.request.bytes, receiveJsonFromSocket⟩, ⟨optimizer, ack.bytes, receiveAck⟩] ++
    exchange.reply.toList.map fun reply => ⟨optimizer, reply.bytes, receiveMessageBySocket⟩

/-- The conversation up to the last command, which is not acknowledged. -/
def Session.transfers (session : Session) : List (Transfer UInt8) :=
  ⟨optimizer, session.start.bytes, receiveMessageBySocket⟩ :: session.exchanges.flatMap Exchange.transfers ++
    [⟨search, session.finished.bytes, receiveJsonFromSocket⟩]

/-- After the last command the search calls `recv` once more, for an acknowledgement. The call returns when bytes are
there, or with none when the optimizer is done and everything has been delivered. -/
inductive SessionRun (session : Session) (allowed : State UInt8 → State UInt8 → Prop) : State UInt8 → Prop
  | talk {state : State UInt8} (run : Run session.transfers allowed state) : SessionRun session allowed state
  | last {state : State UInt8} (run : Run session.transfers allowed state)
      (waits : state.position search = session.transfers.length)
      (returns : (state.inbox search).available ≠ [] ∨ (state.position optimizer = session.transfers.length ∧
        (state.inbox search).delivered = (state.inbox search).stream.length)) :
      SessionRun session allowed (state.receive search receiveAck)

def Session.toSearch (session : Session) : List (List UInt8) :=
  session.start.bytes :: session.exchanges.flatMap fun exchange =>
    ack.bytes :: exchange.reply.toList.map Message.bytes

def Session.toOptimizer (session : Session) : List (List UInt8) :=
  session.exchanges.map (·.request.bytes) ++ [session.finished.bytes]

/-- Every text is short enough for the one call that reads it. The optimizer needs one byte of its
buffer for the end of the string. -/
structure Session.Short (session : Session) : Prop where
  start : session.start.bytes.length ≤ 10240
  request : ∀ exchange ∈ session.exchanges, exchange.request.bytes.length < bufferSize
  reply : ∀ exchange ∈ session.exchanges, ∀ reply ∈ exchange.reply, reply.bytes.length ≤ 10240
  finished : session.finished.bytes.length < bufferSize

theorem takeWhile_message (message : Message) (rest : List UInt8) :
    (message.bytes ++ 0 :: rest).takeWhile (· ≠ 0) = message.bytes := by
  have all : ∀ byte ∈ message.bytes, decide (byte ≠ 0) = true := by
    intro byte mem
    have : byte ≠ 0 := fun zero => message.terminated (zero ▸ mem)
    simpa using this
  rw [takeWhile_append_of_pos all]
  simp

theorem fits_receiveJson {message : Message} (short : message.bytes.length < bufferSize) (side : Side) :
    Transfer.Fits ⟨side, message.bytes, receiveJsonFromSocket⟩ where
  filled := message.filled
  length := Nat.le_of_lt short
  decode := by
    obtain ⟨more, room⟩ : ∃ more, bufferSize - message.bytes.length = more + 1 :=
      ⟨bufferSize - message.bytes.length - 1, by omega⟩
    unfold receiveJsonFromSocket cString
    dsimp only
    rw [room, replicate_succ, takeWhile_message, if_pos (by simp)]

theorem fits_receiveMessage {message : Message} (short : message.bytes.length ≤ 10240) (side : Side) :
    Transfer.Fits ⟨side, message.bytes, receiveMessageBySocket⟩ :=
  ⟨message.filled, short, rfl⟩

theorem Session.Short.fits {session : Session} (short : session.Short) :
    ∀ transfer ∈ session.transfers, transfer.Fits := by
  intro transfer mem
  rcases mem_append.mp mem with first | last
  · rcases mem_cons.mp first with rfl | inside
    · exact fits_receiveMessage short.start optimizer
    · obtain ⟨exchange, listed, here⟩ := mem_flatMap.mp inside
      rcases mem_append.mp here with command | answer
      · rcases mem_cons.mp command with rfl | second
        · exact fits_receiveJson (short.request exchange listed) search
        · rw [mem_singleton.mp second]
          exact ⟨ack.filled, by decide, rfl⟩
      · obtain ⟨reply, given, rfl⟩ := mem_map.mp answer
        exact fits_receiveMessage (short.reply exchange listed reply (Option.mem_toList.mp given)) optimizer
  · rw [mem_singleton.mp last]
    exact fits_receiveJson short.finished search

theorem Exchange.filter_search (exchange : Exchange) :
    (exchange.transfers.filter fun transfer => transfer.sender ≠ search).map Transfer.message =
      ack.bytes :: exchange.reply.toList.map Message.bytes := by
  obtain ⟨request, reply⟩ := exchange
  cases reply <;> rfl

theorem Exchange.filter_optimizer (exchange : Exchange) :
    (exchange.transfers.filter fun transfer => transfer.sender ≠ optimizer).map Transfer.message =
      [exchange.request.bytes] := by
  obtain ⟨request, reply⟩ := exchange
  cases reply <;> rfl

/-- The whole list of transfers holds what each side should read. -/
theorem incoming_search (session : Session) :
    incoming session.transfers search session.transfers.length = session.toSearch := by
  unfold incoming Session.transfers Session.toSearch
  rw [take_length, filter_append, map_append, filter_cons_of_pos rfl, map_cons,
    filter_flatMap, map_flatMap, flatMap_congr fun exchange _ => exchange.filter_search]
  simp

theorem incoming_optimizer (session : Session) :
    incoming session.transfers optimizer session.transfers.length = session.toOptimizer := by
  unfold incoming Session.transfers Session.toOptimizer
  rw [take_length, filter_append, map_append, filter_cons_of_neg (by simp), filter_flatMap,
    map_flatMap, flatMap_congr fun exchange _ => exchange.filter_optimizer, ← map_eq_flatMap]
  rfl

def Session.Over (session : Session) (state : State UInt8) : Prop :=
  ∀ side, state.position side = session.transfers.length

theorem incoming_behind (session : Session) (side : Side) :
    incoming session.transfers side (session.transfers.length + 1) =
      incoming session.transfers side session.transfers.length := by
  rw [incoming, take_of_length_le (Nat.le_succ _), incoming, take_length]

section

variable {session : Session} {state : State UInt8} (exact : Exact session.transfers state)
  (waits : state.position search = session.transfers.length)
include exact waits

/-- The call for an acknowledgement of the last command reads nothing. -/
theorem last_obtained (bounded : ∀ side, state.position side ≤ session.transfers.length) :
    (state.receive search receiveAck).obtained search = session.toSearch.map some ++ [some []] := by
  have none : (state.inbox search).available = [] := (exact.drained (by rw [waits]; exact bounded _)).1
  simp only [State.receive, Function.update_self, exact.obtained search, waits, incoming_search,
    ByteStream.Channel.next, none, take_nil, receiveAck]

theorem last_not_exact (bounded : ∀ side, state.position side ≤ session.transfers.length) :
    (state.receive search receiveAck).obtained search ≠
      (incoming session.transfers search ((state.receive search receiveAck).position search)).map some := by
  have position : (state.receive search receiveAck).position search = session.transfers.length + 1 := by
    simp [State.receive, State.advance, waits]
  rw [last_obtained exact waits bounded, position, incoming_behind, incoming_search]
  simp

end

/-- When the network hands over one message at a time, every call of either side reads exactly its own
message until the search waits for an acknowledgement of the last command, at the end each side has read all it was
sent, and until then the session never hangs. -/
theorem messages_exact (session : Session) (short : session.Short) (state : State UInt8)
    (run : SessionRun session MessageWise state) :
    ((∀ side, state.obtained side = (incoming session.transfers side (state.position side)).map some) ↔
        state.position search ≤ session.transfers.length) ∧
      (session.Over state → state.obtained search = session.toSearch.map some ∧
        state.obtained optimizer = session.toOptimizer.map some) ∧
      ((∃ side, state.position side < session.transfers.length) →
        ∃ after, Step session.transfers state after ∧ MessageWise state after) := by
  cases run with
  | talk run =>
    have exact := Exact.run short.fits run
    refine ⟨iff_of_true exact.obtained (run.position_le search), fun ended => ⟨?_, ?_⟩, fun ⟨_, unfinished⟩ =>
      exact.progress short.fits unfinished⟩
    · rw [exact.obtained, ended, incoming_search]
    · rw [exact.obtained, ended, incoming_optimizer]
  | @last state run waits returns =>
    have exact := Exact.run short.fits run
    have drained : (state.inbox search).available = [] := (exact.drained (by rw [waits]; exact run.position_le _)).1
    have ended : state.position optimizer = session.transfers.length := (returns.resolve_left (absurd drained)).1
    have behind : (state.receive search receiveAck).position search = session.transfers.length + 1 := by
      simp [State.receive, State.advance, waits]
    have optimizerEnded : (state.receive search receiveAck).position optimizer = session.transfers.length := by
      simp [State.receive, State.advance, ended]
    refine ⟨iff_of_false (fun all => last_not_exact exact waits run.position_le (all search)) (by omega), ?_, ?_⟩
    · intro level
      have here := level search
      omega
    · rintro ⟨side, less⟩
      cases side with
      | client => exact absurd optimizerEnded (Nat.ne_of_lt less)
      | server => exact absurd behind (Nat.ne_of_lt (Nat.lt_succ_of_lt less))

def sample : Session where
  start := ⟨[123, 10, 9, 34, 109, 99, 116, 115, 65, 99, 116, 105, 111, 110, 34, 32, 58, 32, 34, 115, 116, 97, 114, 116,
     34, 10, 125, 10], by decide, by decide⟩
  exchanges := [{
    request := ⟨[123, 34, 109, 99, 116, 115, 65, 99, 116, 105, 111, 110, 34, 58, 32, 34, 114, 117, 110, 80, 108, 97,
      110, 34, 44, 32, 34, 111, 112, 116, 105, 109, 105, 122, 97, 116, 105, 111, 110, 73, 115, 70, 105, 110, 105,
       115, 104, 101, 100, 34, 58, 32, 102, 97, 108, 115, 101, 125],
      by decide, by decide⟩
    reply := some ⟨[123, 10, 9, 34, 108, 97, 116, 101, 110, 99, 121, 34, 32, 58, 32, 55, 10, 125, 10],
      by decide, by decide⟩ }]
  finished := ⟨[123, 34, 111, 112, 116, 105, 109, 105, 122, 97, 116, 105, 111, 110, 73, 115, 70, 105, 110, 105, 115,
    104, 101, 100, 34, 58, 32, 116, 114, 117, 101, 44, 32, 34, 109, 99, 116, 115, 65, 99, 116, 105, 111, 110, 34,
     58, 32, 34, 102, 105, 110, 105, 115, 104, 101, 100, 34, 125],
    by decide, by decide⟩

theorem sample_short : sample.Short := by
  refine ⟨by decide, ?_, ?_, by decide⟩
  · intro exchange mem
    obtain rfl := mem_singleton.mp mem
    decide
  · intro exchange mem reply given
    obtain rfl := mem_singleton.mp mem
    obtain rfl := Option.mem_some.mp given
    decide

theorem messages_exact_sample : ∃ state, SessionRun sample MessageWise state ∧ sample.Over state ∧
    state.obtained search = sample.toSearch.map some ∧ state.obtained optimizer = sample.toOptimizer.map some := by
  obtain ⟨state, run, ended⟩ := exists_run_level sample_short.fits (Nat.le_refl _)
  exact ⟨state, .talk run, ended, (messages_exact sample sample_short state (.talk run)).2.1 ended⟩

/-- The acknowledgement and the reply are on their way before the search calls `recv`. -/
def coalescing : List Event :=
  [.send optimizer, .deliver search 28, .receive search, .send search, .deliver optimizer 58, .receive optimizer,
    .send optimizer, .send optimizer, .deliver search 50, .receive search]

/-- The search waits for the acknowledgement and is given the reply with it, so the call for the reply
that follows waits for bytes that have been taken already. And even message by message, the call behind the last
command is given nothing. -/
theorem coalesced_not_exact : (∃ state, SessionRun sample (fun _ _ => True) state ∧
    (∃ start reply, state.obtained search = [some start, some (ack.bytes ++ reply)] ∧
      sample.toSearch = [start, ack.bytes, reply]) ∧
    state.obtained search ≠ (incoming sample.transfers search (state.position search)).map some ∧
    (state.inbox search).available = [] ∧ state.position optimizer = 4) ∧
    ∃ state, SessionRun sample MessageWise state ∧ state.obtained search = sample.toSearch.map some ++ [some []] := by
  constructor
  · have read : (coalescing.foldlM (perform sample.transfers) initial).map
        (fun state => (state.obtained search, state.position search, (state.inbox search).available,
          state.position optimizer)) =
        some (sample.toSearch.take 1 |>.map some |>.append [some (sample.toSearch.drop 1).flatten], 3, [], 4) := by
      decide +kernel
    obtain ⟨state, performed, same⟩ := Option.map_eq_some_iff.mp read
    simp only [Prod.mk.injEq] at same
    refine ⟨state, .talk (run_of_performed .start performed),
      ⟨sample.start.bytes, (sample.toSearch.drop 2).flatten, ?_, ?_⟩, ?_, same.2.2.1, same.2.2.2⟩
    · rw [same.1]
      decide +kernel
    · decide +kernel
    · rw [same.1, same.2.1]
      decide +kernel
  · obtain ⟨state, run, ended⟩ := exists_run_level sample_short.fits (Nat.le_refl _)
    have exact := Exact.run sample_short.fits run
    refine ⟨_, .last run (ended search) (.inr ⟨ended optimizer, ?_⟩),
      last_obtained exact (ended search) run.position_le⟩
    exact (exact.drained (Nat.le_of_eq ((ended _).trans (ended search).symm))).2

end CactusDB.Mcts.Messages
