import CactusDB.Common.BitUtil
import CactusDB.Library.OrderedMap
import Mathlib.Data.Finset.Basic

/-! An arena of mapped memory with a list of its free blocks, and a set of such arenas that grows and shrinks.
A mapping ends below `2 ^ 64`, so that no sum of an address and a size inside it wraps around. -/

namespace CactusDB.Common

open Library

inductive ArenaFailure where
  /-- Arena must have a multiple of kMinGrainSizeBytes bytes capacity. -/
  | capacityGrain
  /-- Could not allocate working memory. -/
  | mmapFailed
  /-- Trying to free a memory space that is already freed. -/
  | alreadyFreed (listed freed : Nat × Nat)
  /-- New free node overlaps with previous free node in free list. -/
  | overlapsPrevious (freed previous : Nat × Nat)
  /-- New free node overlaps with next free node in free list. -/
  | overlapsNext (freed next : Nat × Nat)
  /-- No arena begins at or before the address, or the block ends behind the arena. -/
  | noArena
  deriving DecidableEq

structure MmapArena where
  byteSize : Nat
  address : Nat
  freeBytes : Nat
  /-- The sizes of the free blocks by address. -/
  freeList : OrderedMap Nat Nat
  /-- The addresses of the free blocks by size. -/
  freeLookup : OrderedMap Nat (Finset Nat)

/-- The element an unordered set begins with. It depends on the history of the set. -/
structure Begin where
  first : Finset Nat → Nat
  first_mem : ∀ {set}, set.Nonempty → first set ∈ set

namespace MmapArena

def kMinGrainSizeBytes : Nat := 1024 * 1024

def roundBytes (bytes : Nat) : Nat := BitUtil.nextPowerOfTwo bytes % 2 ^ 64

def addresses (lookup : OrderedMap Nat (Finset Nat)) (bytes : Nat) : Finset Nat := (lookup.find? bytes).getD ∅

section

variable (arena : MmapArena) (address bytes : Nat)

def emplaceInLookup : MmapArena :=
  { arena with freeLookup := arena.freeLookup.set bytes (insert address (addresses arena.freeLookup bytes)) }

def removeFromLookup : MmapArena :=
  let remaining := (addresses arena.freeLookup bytes).erase address
  if remaining = ∅ then { arena with freeLookup := arena.freeLookup.erase bytes }
  else { arena with freeLookup := arena.freeLookup.set bytes remaining }

def addFreeBlock : Except ArenaFailure MmapArena :=
  match arena.freeList.find? address with
  | some listed => .error (.alreadyFreed (address, listed) (address, bytes))
  | none => .ok (emplaceInLookup { arena with freeList := arena.freeList.set address bytes } address bytes)

def removeFreeBlock : MmapArena :=
  removeFromLookup { arena with freeList := arena.freeList.erase address } address bytes

def resizeFreeBlock : MmapArena :=
  emplaceInLookup { arena with freeList := arena.freeList.set address bytes } address bytes

end

def create (mmap : Nat → Option Nat) (capacityBytes : Nat) : Except ArenaFailure MmapArena :=
  if capacityBytes % kMinGrainSizeBytes ≠ 0 then .error .capacityGrain
  else
    match mmap capacityBytes with
    | none => .error .mmapFailed
    | some address => addFreeBlock ⟨capacityBytes, address, capacityBytes, .empty, .empty⟩ address capacityBytes

def allocate (arena : MmapArena) (begin : Begin) (bytes : Nat) : Except ArenaFailure (Option Nat × MmapArena) :=
  if bytes = 0 then .ok (none, arena)
  else
    let bytes := roundBytes bytes
    match arena.freeLookup.lowerBound bytes with
    | none => .ok (none, arena)
    | some (curFreeBytes, set) => do
      let address := begin.first set
      let arena := { arena with freeBytes := arena.freeBytes - bytes }
      if curFreeBytes = bytes then return (some address, arena.removeFreeBlock address curFreeBytes)
      else
        let arena ← arena.addFreeBlock (address + bytes) (curFreeBytes - bytes)
        return (some address, arena.removeFreeBlock address curFreeBytes)

section

variable (arena : MmapArena) (address bytes : Nat)

def mergePrev : Except ArenaFailure (Option (Nat × Nat)) :=
  match arena.freeList.prev address with
  | none => .ok none
  | some (prevAddr, prevBytes) =>
    if address < prevAddr + prevBytes then .error (.overlapsPrevious (address, bytes) (prevAddr, prevBytes))
    else if prevAddr + prevBytes = address then .ok (some (prevAddr, prevBytes))
    else .ok none

def mergeNext : Except ArenaFailure (Option (Nat × Nat)) :=
  match arena.freeList.next address with
  | none => .ok none
  | some (nextAddr, nextBytes) =>
    if nextAddr < address + bytes then .error (.overlapsNext (address, bytes) (nextAddr, nextBytes))
    else if address + bytes = nextAddr then .ok (some (nextAddr, nextBytes))
    else .ok none

def coalesce (prev next : Option (Nat × Nat)) : MmapArena :=
  match prev, next with
  | none, none => arena
  | some (prevAddr, prevBytes), none =>
    ((arena.removeFreeBlock address bytes).removeFromLookup prevAddr prevBytes).resizeFreeBlock prevAddr
      (address - prevAddr + bytes)
  | some (prevAddr, prevBytes), some (nextAddr, nextBytes) =>
    (((arena.removeFreeBlock address bytes).removeFromLookup prevAddr prevBytes).removeFreeBlock nextAddr
      nextBytes).resizeFreeBlock prevAddr (nextAddr - prevAddr + nextBytes)
  | none, some (nextAddr, nextBytes) =>
    ((arena.removeFreeBlock nextAddr nextBytes).removeFromLookup address bytes).resizeFreeBlock address
      (nextAddr - address + nextBytes)

def free : Except ArenaFailure MmapArena :=
  if address = 0 ∨ bytes = 0 then .ok arena
  else do
    let bytes := roundBytes bytes
    let arena ← { arena with freeBytes := arena.freeBytes + bytes }.addFreeBlock address bytes
    let prev ← arena.mergePrev address bytes
    let next ← arena.mergeNext address bytes
    return arena.coalesce address bytes prev next

end

def isEmpty (arena : MmapArena) : Bool := arena.freeBytes = arena.byteSize

end MmapArena

structure ManagedMmapArenas where
  singleArenaCapacity : Nat
  arenas : OrderedMap Nat MmapArena
  currentArena : Nat

namespace ManagedMmapArenas

def create (mmap : Nat → Option Nat) (singleArenaCapacity : Nat) : Except ArenaFailure ManagedMmapArenas := do
  let arena ← MmapArena.create mmap singleArenaCapacity
  return ⟨singleArenaCapacity, OrderedMap.empty.emplace arena.address arena, arena.address⟩

variable (managed : ManagedMmapArenas)

def allocateIn (begin : Begin) (key bytes : Nat) :
    Except ArenaFailure (Option Nat × ManagedMmapArenas) :=
  match managed.arenas.find? key with
  | none => .error .noArena
  | some arena => do
    let (result, arena) ← arena.allocate begin bytes
    return (result, { managed with arenas := managed.arenas.set key arena })

def allocate (begin : Begin) (mmap : Nat → Option Nat) (bytes : Nat) :
    Except ArenaFailure (Option Nat × ManagedMmapArenas) := do
  let (result, managed) ← managed.allocateIn begin managed.currentArena bytes
  if result.isSome then return (result, managed)
  else
    let newArena ← MmapArena.create mmap managed.singleArenaCapacity
    let managed : ManagedMmapArenas :=
      ⟨managed.singleArenaCapacity, managed.arenas.emplace newArena.address newArena, newArena.address⟩
    managed.allocateIn begin managed.currentArena bytes

def arenaOf (address bytes : Nat) : Except ArenaFailure (Nat × MmapArena) :=
  match managed.arenas.lowerBound address with
  | some (key, arena) => if key = address then .ok (key, arena) else before
  | none => before
where
  before : Except ArenaFailure (Nat × MmapArena) :=
    match managed.arenas.prev address with
    | none => .error .noArena
    | some (key, arena) =>
      if address + bytes ≤ key + managed.singleArenaCapacity then .ok (key, arena) else .error .noArena

def free (address bytes : Nat) : Except ArenaFailure ManagedMmapArenas := do
  let (key, arena) ← managed.arenaOf address bytes
  let arena ← arena.free address bytes
  let arenas := managed.arenas.set key arena
  if arena.isEmpty && key ≠ managed.currentArena then return { managed with arenas := arenas.erase key }
  else return { managed with arenas := arenas }

end ManagedMmapArenas

end CactusDB.Common
