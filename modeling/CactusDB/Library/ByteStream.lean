import Mathlib.Data.List.Basic

/-! One direction of a byte stream. What has been sent is delivered in order and in pieces of any
length, and the receiver takes what has been delivered so far, up to a limit. -/

namespace CactusDB.Library.ByteStream
open List

structure Channel (B : Type) where
  sent : List (List B)
  delivered : Nat
  read : Nat

namespace Channel

variable {B : Type}

def empty : Channel B := ⟨[], 0, 0⟩

section

variable (channel : Channel B)

def stream : List B := channel.sent.flatten

def send (message : List B) : Channel B := { channel with sent := channel.sent ++ [message] }

def available : List B := (channel.stream.take channel.delivered).drop channel.read

def next (limit : Nat) : List B := channel.available.take limit

def receive (limit : Nat) : Channel B :=
  { channel with read := channel.read + (channel.next limit).length }

def deliver (upTo : Nat) : Channel B := { channel with delivered := upTo }

end

def boundary (sent : List (List B)) (k : Nat) : Nat := (sent.take k).flatten.length

def Whole (channel : Channel B) (upTo : Nat) : Prop :=
  channel.read = channel.delivered ∧
    ∃ k < channel.sent.length, channel.delivered = boundary channel.sent k ∧ upTo = boundary channel.sent (k + 1)

/-- The receiver has taken the first `count` messages, and at most one more has been delivered. -/
structure Aligned (channel : Channel B) (count : Nat) : Prop where
  bound : count ≤ channel.sent.length
  read : channel.read = boundary channel.sent count
  delivered : channel.delivered = boundary channel.sent count ∨
    count < channel.sent.length ∧ channel.delivered = boundary channel.sent (count + 1)

variable {sent : List (List B)}

theorem boundary_append {k : Nat} (bound : k ≤ sent.length) (more : List (List B)) :
    boundary (sent ++ more) k = boundary sent k := by
  unfold boundary
  rw [take_append_of_le_length bound]

theorem boundary_succ {k : Nat} (bound : k < sent.length) :
    boundary sent (k + 1) = boundary sent k + sent[k].length := by
  unfold boundary
  rw [take_succ_eq_append_getElem bound, flatten_append, length_append]
  simp

theorem boundary_mono {i j : Nat} (ordered : i ≤ j) : boundary sent i ≤ boundary sent j := by
  obtain ⟨more, rfl⟩ := Nat.exists_eq_add_of_le ordered
  unfold boundary
  rw [take_add, flatten_append, length_append]
  exact Nat.le_add_right _ _

/-- Messages are not empty, so no two boundaries are the same. -/
theorem boundary_injective (filled : ∀ message ∈ sent, message ≠ []) {i j : Nat}
    (ordered : i < j) (bound : j ≤ sent.length) : boundary sent i < boundary sent j := by
  have here : i < sent.length := by omega
  have positive : 0 < sent[i].length := length_pos_iff.mpr (filled _ (getElem_mem here))
  calc
    boundary sent i < boundary sent (i + 1) := by rw [boundary_succ here]; omega
    _ ≤ boundary sent j := boundary_mono ordered

theorem Aligned.empty : Aligned (empty : Channel B) 0 := ⟨Nat.le_refl 0, rfl, .inl rfl⟩

variable {channel : Channel B} {count : Nat}

variable (aligned : Aligned channel count)
include aligned

theorem Aligned.send (message : List B) : Aligned (channel.send message) count := by
  refine ⟨by simp [Channel.send]; exact Nat.le_succ_of_le aligned.bound, ?_, ?_⟩
  · rw [Channel.send, boundary_append aligned.bound]
    exact aligned.read
  · cases aligned.delivered with
    | inl level =>
      left
      rw [Channel.send, boundary_append aligned.bound]
      exact level
    | inr ahead =>
      right
      refine ⟨by simp [Channel.send]; omega, ?_⟩
      rw [Channel.send, boundary_append ahead.1]
      exact ahead.2

theorem Aligned.deliver (filled : ∀ message ∈ channel.sent, message ≠ []) {upTo : Nat}
    (whole : Whole channel upTo) : Aligned (channel.deliver upTo) count := by
  obtain ⟨drained, k, bound, level, next⟩ := whole
  have same : k = count := by
    rcases Nat.lt_trichotomy k count with less | equal | more
    · have apart := boundary_injective filled less aligned.bound
      have := aligned.read
      omega
    · exact equal
    · have apart := boundary_injective filled more (Nat.le_of_lt bound)
      have := aligned.read
      omega
  subst same
  exact ⟨aligned.bound, aligned.read, .inr ⟨bound, next⟩⟩

/-- A message that is still to come can be delivered whole once the earlier ones have been taken. -/
theorem Aligned.exists_whole (filled : ∀ message ∈ channel.sent, message ≠ [])
    (bound : count < channel.sent.length) (drained : channel.read = channel.delivered) :
    ∃ upTo, Whole channel upTo ∧ channel.delivered < upTo ∧ upTo ≤ channel.stream.length := by
  have level : channel.delivered = boundary channel.sent count := drained.symm.trans aligned.read
  refine ⟨boundary channel.sent (count + 1), ⟨drained, count, bound, level, rfl⟩, ?_, ?_⟩
  · rw [level]
    exact boundary_injective filled (Nat.lt_succ_self count) bound
  · have all : boundary channel.sent channel.sent.length = channel.stream.length := by
      rw [boundary, take_length, stream]
    rw [← all]
    exact boundary_mono bound

/-- What has arrived is nothing, or the next message and nothing else. -/
theorem Aligned.available_cases :
    (channel.available = [] ∧ channel.read = channel.delivered) ∨
      ∃ bound : count < channel.sent.length, channel.available = channel.sent[count] := by
  cases aligned.delivered with
  | inl level =>
    left
    have drained : channel.read = channel.delivered := aligned.read.trans level.symm
    refine ⟨?_, drained⟩
    unfold available
    rw [drop_eq_nil_iff, drained]
    exact length_take_le _ _
  | inr ahead =>
    right
    refine ⟨ahead.1, ?_⟩
    have front : channel.stream.take channel.delivered = (channel.sent.take (count + 1)).flatten := by
      have split : channel.stream =
          (channel.sent.take (count + 1)).flatten ++ (channel.sent.drop (count + 1)).flatten := by
        rw [← flatten_append, take_append_drop, stream]
      rw [ahead.2, split]
      unfold boundary
      rw [take_left]
    unfold available
    rw [front, aligned.read, take_succ_eq_append_getElem ahead.1, flatten_append]
    unfold boundary
    rw [drop_left]
    simp

theorem Aligned.receive (limit : Nat) (arrived : channel.available ≠ [])
    (enough : ∀ bound : count < channel.sent.length, channel.sent[count].length ≤ limit) :
    ∃ bound : count < channel.sent.length,
      channel.next limit = channel.sent[count] ∧ Aligned (channel.receive limit) (count + 1) := by
  cases aligned.available_cases with
  | inl none => exact absurd none.1 arrived
  | inr found =>
    obtain ⟨bound, same⟩ := found
    have all : channel.next limit = channel.sent[count] := by
      unfold next
      rw [same, take_of_length_le (enough bound)]
    refine ⟨bound, all, bound, ?_, ?_⟩
    · unfold Channel.receive
      dsimp only
      rw [all, aligned.read, boundary_succ bound]
    · left
      cases aligned.delivered with
      | inl level =>
        have drained : channel.available = [] := by
          unfold available
          rw [drop_eq_nil_iff, aligned.read, ← level]
          exact length_take_le _ _
        exact absurd drained arrived
      | inr ahead => exact ahead.2

end Channel

end CactusDB.Library.ByteStream
