import Mathlib.Algebra.BigOperators.Group.Finset.Basic
import Mathlib.Algebra.Order.BigOperators.Group.List
import Mathlib.Algebra.Order.Ring.Nat
import Mathlib.Order.Interval.Finset.Nat

/-! Blocks, each with a first address and a size, that cut a region into pieces. -/

namespace CactusDB.Library.Tiling
open List

def covers (byte : Nat) (block : Nat × Nat) : Bool := block.1 ≤ byte ∧ byte < block.1 + block.2

/-- Each byte of the region lies in one block and other bytes in none. -/
structure Tiles (start size : Nat) (blocks : List (Nat × Nat)) : Prop where
  once : ∀ byte, blocks.countP (covers byte) = if start ≤ byte ∧ byte < start + size then 1 else 0
  positive : ∀ block ∈ blocks, 0 < block.2

variable {start size : Nat} {blocks rest : List (Nat × Nat)} {block other : Nat × Nat}

namespace Tiles

theorem whole (positive : 0 < size) : Tiles start size [(start, size)] where
  once := fun byte => by simp [countP_cons, covers]
  positive := fun block mem => by
    rw [mem_singleton.mp mem]
    exact positive

theorem perm (tiles : Tiles start size blocks) (same : blocks.Perm rest) : Tiles start size rest where
  once := fun byte => by rw [← same.countP_eq, tiles.once byte]
  positive := fun block mem => tiles.positive block (same.mem_iff.mpr mem)

/-- A block is cut in two, or two blocks are made one. -/
theorem cut_iff {address first second : Nat} (firstPositive : 0 < first) (secondPositive : 0 < second) :
    Tiles start size ((address, first + second) :: rest) ↔
      Tiles start size ((address, first) :: (address + first, second) :: rest) := by
  have counts : ∀ byte, List.countP (covers byte) ((address, first + second) :: rest) =
      List.countP (covers byte) ((address, first) :: (address + first, second) :: rest) := by
    intro byte
    simp only [countP_cons, covers, decide_eq_true_eq]
    split_ifs <;> omega
  constructor
  · intro tiles
    refine ⟨fun byte => counts byte ▸ tiles.once byte, ?_⟩
    intro block mem
    rcases mem_cons.mp mem with rfl | mem
    · exact firstPositive
    rcases mem_cons.mp mem with rfl | mem
    · exact secondPositive
    · exact tiles.positive block (mem_cons_of_mem _ mem)
  · intro tiles
    refine ⟨fun byte => (counts byte).trans (tiles.once byte), ?_⟩
    intro block mem
    rcases mem_cons.mp mem with rfl | mem
    · exact Nat.add_pos_left firstPositive second
    · exact tiles.positive block (mem_cons_of_mem _ (mem_cons_of_mem _ mem))

theorem inside (tiles : Tiles start size blocks) (mem : block ∈ blocks) :
    start ≤ block.1 ∧ block.1 + block.2 ≤ start + size := by
  have positive := tiles.positive block mem
  have within : ∀ byte, block.1 ≤ byte → byte < block.1 + block.2 → start ≤ byte ∧ byte < start + size := by
    intro byte low high
    have counted : 0 < blocks.countP (covers byte) := countP_pos_iff.mpr ⟨block, mem, by simp [covers, low, high]⟩
    rw [tiles.once byte] at counted
    by_contra outside
    rw [if_neg outside] at counted
    exact absurd counted (lt_irrefl 0)
  have front := within block.1 le_rfl (by omega)
  have back := within (block.1 + block.2 - 1) (by omega) (by omega)
  omega

theorem apart (tiles : Tiles start size (block :: rest)) (mem : other ∈ rest) :
    block.1 + block.2 ≤ other.1 ∨ other.1 + other.2 ≤ block.1 := by
  by_contra overlap
  have blockPositive := tiles.positive block (mem_cons_self ..)
  have otherPositive := tiles.positive other (mem_cons_of_mem _ mem)
  -- The later of the two first bytes lies in both.
  have common : ∃ byte, covers byte block = true ∧ covers byte other = true := by
    refine ⟨max block.1 other.1, ?_, ?_⟩ <;> simp only [covers, decide_eq_true_eq] <;> omega
  obtain ⟨byte, here, there⟩ := common
  have counted : 0 < rest.countP (covers byte) := countP_pos_iff.mpr ⟨other, mem, there⟩
  have once := tiles.once byte
  rw [countP_cons, if_pos here] at once
  split_ifs at once
  omega

theorem sum_eq (tiles : Tiles start size blocks) : (blocks.map Prod.snd).sum = size := by
  have counted : ∀ list : List (Nat × Nat), (∀ block ∈ list, start ≤ block.1 ∧ block.1 + block.2 ≤ start + size) →
      ∑ byte ∈ Finset.Ico start (start + size), list.countP (covers byte) = (list.map Prod.snd).sum := by
    intro list within
    induction list with
    | nil => simp
    | cons block list ih =>
      have bounds := within block (mem_cons_self ..)
      have later := ih fun other mem => within other (mem_cons_of_mem _ mem)
      have bytes : (Finset.Ico start (start + size)).filter (fun byte => covers byte block = true) =
          Finset.Ico block.1 (block.1 + block.2) := by
        ext byte
        simp only [covers, Finset.mem_filter, Finset.mem_Ico, decide_eq_true_eq]
        omega
      simp only [countP_cons, Finset.sum_add_distrib, later, map_cons, sum_cons]
      rw [← Finset.sum_filter, bytes]
      simp [Nat.add_comm]
  rw [← counted blocks fun block mem => tiles.inside mem]
  calc ∑ byte ∈ Finset.Ico start (start + size), blocks.countP (covers byte)
      = ∑ byte ∈ Finset.Ico start (start + size), 1 :=
        Finset.sum_congr rfl fun byte mem => by rw [tiles.once byte, if_pos (Finset.mem_Ico.mp mem)]
    _ = size := by simp

end Tiles

def Separate (blocks : List (Nat × Nat)) : Prop := ∀ block ∈ blocks, ∀ other ∈ blocks, block.1 + block.2 ≠ other.1

def front (prev : Option (Nat × Nat)) (address : Nat) : Nat := prev.elim address Prod.fst

def back (next : Option (Nat × Nat)) (stop : Nat) : Nat := next.elim stop fun block => block.1 + block.2

structure Coalesced (free : List (Nat × Nat)) (address bytes : Nat) (prev next : Option (Nat × Nat))
    (rest after : List (Nat × Nat)) : Prop where
  parts : free.Perm (prev.toList ++ next.toList ++ rest)
  result : after.Perm ((front prev address, back next (address + bytes) - front prev address) :: rest)
  before : ∀ block, prev = some block → block.1 + block.2 = address
  behind : ∀ block, next = some block → block.1 = address + bytes
  nothingBefore : prev = none → ∀ block ∈ free, block.1 + block.2 ≠ address
  nothingBehind : next = none → ∀ block ∈ free, block.1 ≠ address + bytes

namespace Coalesced

variable {free after live : List (Nat × Nat)} {address bytes : Nat} {prev next : Option (Nat × Nat)}
  (coalesced : Coalesced free address bytes prev next rest after)
include coalesced

theorem joined_size :
    back next (address + bytes) - front prev address =
      (prev.elim 0 Prod.snd) + bytes + next.elim 0 Prod.snd := by
  have before := coalesced.before
  have behind := coalesced.behind
  cases prev with
  | none =>
    cases next with
    | none => simp [front, back]
    | some later =>
      have touches := behind later rfl
      simp only [front, back, Option.elim]
      omega
  | some earlier =>
    have touched := before earlier rfl
    cases next with
    | none =>
      simp only [front, back, Option.elim]
      omega
    | some later =>
      have touches := behind later rfl
      simp only [front, back, Option.elim]
      omega

theorem tiles (tiled : Tiles start size ((address, bytes) :: (free ++ live))) : Tiles start size (after ++ live) := by
  have split := tiled.perm ((coalesced.parts.append_right live).cons (address, bytes))
  have positive := split.positive
  refine Tiles.perm ?_ (coalesced.result.append_right live).symm
  rw [coalesced.joined_size]
  have before := coalesced.before
  have behind := coalesced.behind
  -- The parts stand side by side: in front, the released one, behind.
  have bytesPositive := positive (address, bytes) (mem_cons_self ..)
  cases prev with
  | none =>
    cases next with
    | none => simpa [front] using split
    | some later =>
      obtain ⟨place, laterBytes⟩ := later
      have touches : place = address + bytes := behind _ rfl
      subst touches
      have laterPositive := positive (address + bytes, laterBytes) (by simp)
      simpa [front] using (Tiles.cut_iff bytesPositive laterPositive).mpr split
  | some earlier =>
    obtain ⟨first, earlierBytes⟩ := earlier
    have touched : first + earlierBytes = address := before _ rfl
    subst touched
    have earlierPositive := positive (first, earlierBytes) (by simp)
    have swapped := split.perm (List.Perm.swap ..)
    have joined := (Tiles.cut_iff earlierPositive bytesPositive).mpr swapped
    cases next with
    | none => simpa [front] using joined
    | some later =>
      obtain ⟨place, laterBytes⟩ := later
      have touches : place = first + (earlierBytes + bytes) := (behind _ rfl).trans (Nat.add_assoc ..)
      subst touches
      have laterPositive := positive (first + (earlierBytes + bytes), laterBytes) (by simp)
      exact (Tiles.cut_iff (Nat.add_pos_left earlierPositive bytes) laterPositive).mpr joined

theorem sum_eq : (after.map Prod.snd).sum = (free.map Prod.snd).sum + bytes := by
  rw [(coalesced.result.map Prod.snd).sum_eq, (coalesced.parts.map Prod.snd).sum_eq, map_cons, sum_cons,
    coalesced.joined_size]
  cases prev <;> cases next <;> simp <;> omega

theorem separate (positive : 0 < bytes) (apart : Separate free) : Separate after := by
  have kept : ∀ block ∈ rest, block ∈ free := fun block mem =>
    coalesced.parts.mem_iff.mpr (mem_append_right _ mem)
  -- Nothing that stays ends where the new block begins, or begins where it ends.
  have nothingBefore : ∀ block ∈ rest, block.1 + block.2 ≠ front prev address := by
    intro block mem
    cases prev with
    | none => exact coalesced.nothingBefore rfl block (kept block mem)
    | some earlier => exact apart block (kept block mem) earlier (coalesced.parts.mem_iff.mpr (by simp))
  have nothingBehind : ∀ block ∈ rest, back next (address + bytes) ≠ block.1 := by
    intro block mem
    cases next with
    | none => exact (coalesced.nothingBehind rfl block (kept block mem)).symm
    | some later => exact apart later (coalesced.parts.mem_iff.mpr (by simp)) block (kept block mem)
  have size := coalesced.joined_size
  intro block mem other otherMember
  rcases mem_cons.mp (coalesced.result.mem_iff.mp mem) with rfl | mem
  · have ends : front prev address + (back next (address + bytes) - front prev address) = back next
      (address + bytes) := by
      omega
    rw [ends]
    rcases mem_cons.mp (coalesced.result.mem_iff.mp otherMember) with rfl | otherMember
    · dsimp only
      omega
    · exact nothingBehind other otherMember
  · rcases mem_cons.mp (coalesced.result.mem_iff.mp otherMember) with rfl | otherMember
    · exact nothingBefore block mem
    · exact apart block (kept block mem) other (kept other otherMember)

end Coalesced

end CactusDB.Library.Tiling
