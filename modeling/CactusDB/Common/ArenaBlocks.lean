import CactusDB.Common.MmapArena
import CactusDB.Library.Fallible
import CactusDB.Library.Tiling

/-! The free and the live blocks of an arena cut it into pieces, and both lists of free blocks agree. -/

namespace CactusDB.Common.MmapArena

open Library Library.Tiling Library.Fallible BitUtil List OrderedMap

theorem le_roundBytes {bytes : Nat} (positive : 0 < roundBytes bytes) : bytes ≤ roundBytes bytes := by
  unfold roundBytes at *
  have some : 0 < bytes := by
    by_contra none
    rw [Nat.eq_zero_of_not_pos none] at positive
    exact absurd positive (by decide)
  obtain ⟨bits, power⟩ := exists_nextPowerOfTwo some
  have room : bits < 64 := by
    by_contra wide
    have divides : 2 ^ 64 ∣ 2 ^ bits := Nat.pow_dvd_pow 2 (Nat.le_of_not_lt wide)
    rw [power, Nat.mod_eq_zero_of_dvd divides] at positive
    exact absurd positive (lt_irrefl 0)
  rw [Nat.mod_eq_of_lt (power ▸ Nat.pow_lt_pow_right (by decide) room)]
  exact le_nextPowerOfTwo bytes

section

def SameRegion (arena after : MmapArena) : Prop := after.address = arena.address ∧ after.byteSize = arena.byteSize

def Framed (arena after : MmapArena) : Prop := after.freeBytes = arena.freeBytes ∧ SameRegion arena after

theorem Framed.trans {arena middle after : MmapArena} (first : Framed arena middle) (second : Framed middle after) :
    Framed arena after :=
  ⟨second.1.trans first.1, second.2.1.trans first.2.1, second.2.2.trans first.2.2⟩

variable (arena : MmapArena) (address bytes : Nat)

theorem removeFromLookup_framed : Framed arena (arena.removeFromLookup address bytes) := by
  unfold removeFromLookup
  dsimp only
  split <;> exact ⟨rfl, rfl, rfl⟩

theorem removeFreeBlock_framed : Framed arena (arena.removeFreeBlock address bytes) :=
  removeFromLookup_framed { arena with freeList := arena.freeList.erase address } address bytes

theorem resizeFreeBlock_framed : Framed arena (arena.resizeFreeBlock address bytes) := ⟨rfl, rfl, rfl⟩

end

section

variable (arena : MmapArena) (address bytes : Nat)

@[simp] theorem emplaceInLookup_freeList : (arena.emplaceInLookup address bytes).freeList = arena.freeList := rfl

@[simp] theorem removeFromLookup_freeList : (arena.removeFromLookup address bytes).freeList = arena.freeList := by
  unfold removeFromLookup
  dsimp only
  split <;> rfl

@[simp] theorem removeFreeBlock_freeList :
    (arena.removeFreeBlock address bytes).freeList = arena.freeList.erase address := by
  simp [removeFreeBlock]

@[simp] theorem resizeFreeBlock_freeList :
    (arena.resizeFreeBlock address bytes).freeList = arena.freeList.set address bytes := rfl

variable (lookup : OrderedMap Nat (Finset Nat))

theorem addresses_set (set : Finset Nat) (size : Nat) :
    addresses (lookup.set bytes set) size = if size = bytes then set else addresses lookup size := by
  unfold addresses
  rw [find?_set]
  split <;> rfl

theorem addresses_erase (size : Nat) :
    addresses (lookup.erase bytes) size = if size = bytes then ∅ else addresses lookup size := by
  unfold addresses
  rw [find?_erase]
  split <;> rfl

variable {arena address bytes} {place size : Nat}

@[simp] theorem mem_emplaceInLookup : place ∈ addresses (arena.emplaceInLookup address bytes).freeLookup size ↔
    (place = address ∧ size = bytes) ∨ place ∈ addresses arena.freeLookup size := by
  simp only [emplaceInLookup, addresses_set]
  split_ifs with same
  · simp [same]
  · simp [same]

@[simp] theorem mem_removeFromLookup : place ∈ addresses (arena.removeFromLookup address bytes).freeLookup size ↔
    ¬(place = address ∧ size = bytes) ∧ place ∈ addresses arena.freeLookup size := by
  have remaining : place ∈ addresses (arena.removeFromLookup address bytes).freeLookup size ↔
      place ∈ if size = bytes then (addresses arena.freeLookup bytes).erase address
        else addresses arena.freeLookup size := by
    unfold removeFromLookup
    dsimp only
    split_ifs with none same same
    · simp [addresses_erase, same, none]
    · simp [addresses_erase, same]
    · simp [addresses_set, same]
    · simp [addresses_set, same]
  rw [remaining]
  split_ifs with same
  · simp [same]
  · simp [same]

@[simp] theorem mem_removeFreeBlock : place ∈ addresses (arena.removeFreeBlock address bytes).freeLookup size ↔
    ¬(place = address ∧ size = bytes) ∧ place ∈ addresses arena.freeLookup size := mem_removeFromLookup

@[simp] theorem mem_resizeFreeBlock : place ∈ addresses (arena.resizeFreeBlock address bytes).freeLookup size ↔
    (place = address ∧ size = bytes) ∨ place ∈ addresses arena.freeLookup size := mem_emplaceInLookup

def Filled (arena : MmapArena) : Prop := ∀ size set, (size, set) ∈ arena.freeLookup.entries → set.Nonempty

variable (filled : Filled arena)
include filled

theorem Filled.emplace : Filled (arena.emplaceInLookup address bytes) := by
  intro size set mem
  rcases mem_set.mp mem with ⟨_, same⟩ | ⟨_, old⟩
  · rw [same]
    exact Finset.insert_nonempty ..
  · exact filled size set old

theorem Filled.removeFromLookup : Filled (arena.removeFromLookup address bytes) := by
  unfold MmapArena.removeFromLookup
  dsimp only
  split_ifs with none
  · exact fun size set mem => filled size set (mem_erase.mp mem).2
  · intro size set mem
    rcases mem_set.mp mem with ⟨_, same⟩ | ⟨_, old⟩
    · rw [same]
      exact Finset.nonempty_iff_ne_empty.mpr none
    · exact filled size set old

theorem Filled.removeFreeBlock : Filled (arena.removeFreeBlock address bytes) :=
  @Filled.removeFromLookup { arena with freeList := _ } _ _ filled

theorem Filled.resize : Filled (arena.resizeFreeBlock address bytes) :=
  @Filled.emplace { arena with freeList := _ } _ _ filled

end

section

def rounded (block : Nat × Nat) : Nat × Nat := (block.1, roundBytes block.2)

structure Whole (arena : MmapArena) (live : List (Nat × Nat)) : Prop where
  tiles : Tiles arena.address arena.byteSize (arena.freeList.entries ++ live.map rounded)
  separate : Separate arena.freeList.entries
  listed : ∀ address size, address ∈ addresses arena.freeLookup size ↔ (address, size) ∈ arena.freeList.entries
  filled : Filled arena
  counted : arena.freeBytes = (arena.freeList.entries.map Prod.snd).sum
  mapped : 0 < arena.address

variable {arena after : MmapArena} {live : List (Nat × Nat)} {address bytes : Nat}

theorem addFreeBlock_ok (done : arena.addFreeBlock address bytes = .ok after) :
    (∀ size, (address, size) ∉ arena.freeList.entries) ∧ after = arena.resizeFreeBlock address bytes := by
  unfold addFreeBlock at done
  split at done
  · cases done
  · next missing => exact ⟨find?_eq_none.mp missing, (Except.ok.inj done).symm⟩

theorem addFreeBlock_of_absent (absent : ∀ size, (address, size) ∉ arena.freeList.entries) :
    arena.addFreeBlock address bytes = .ok (arena.resizeFreeBlock address bytes) := by
  unfold addFreeBlock
  rw [find?_eq_none.mpr absent]
  rfl

theorem create_whole {mmap : Nat → Option Nat} {capacity : Nat} (done : create mmap capacity = .ok arena)
    (mapped : ∀ address, mmap capacity = some address → 0 < address ∧ 0 < capacity) :
    Whole arena [] ∧ mmap capacity = some arena.address ∧ arena.byteSize = capacity := by
  unfold create at done
  split_ifs at done
  split at done
  · cases done
  next address found =>
    obtain ⟨addressPositive, capacityPositive⟩ := mapped address found
    obtain ⟨_, rfl⟩ := addFreeBlock_ok done
    have entries : (empty.set address capacity).entries = [(address, capacity)] := rfl
    refine ⟨⟨?_, ?_, ?_, ?_, ?_, addressPositive⟩, found, rfl⟩
    · exact Tiles.whole capacityPositive
    · intro block mem other otherMember
      rw [mem_singleton.mp mem, mem_singleton.mp otherMember]
      exact Nat.ne_of_gt (Nat.lt_add_of_pos_right capacityPositive)
    · intro place size
      rw [mem_resizeFreeBlock, resizeFreeBlock_freeList, entries]
      simp [addresses, OrderedMap.find?, OrderedMap.empty]
    · exact Filled.resize fun size set mem => absurd mem not_mem_nil
    · exact (Nat.add_zero capacity).symm

end

section

variable {arena after : MmapArena} {live : List (Nat × Nat)} {begin : Begin} {address bytes : Nat}

structure Taken (arena : MmapArena) (address bytes : Nat) (after : MmapArena) (size : Nat)
  (rest left : List (Nat × Nat)) : Prop where
  parts : arena.freeList.entries.Perm ((address, size) :: rest)
  result : after.freeList.entries.Perm (left ++ rest)
  left_eq : size = bytes ∧ left = [] ∨ bytes < size ∧ left = [(address + bytes, size - bytes)]
  positive : 0 < bytes
  freeBytes : after.freeBytes = arena.freeBytes - bytes
  region : SameRegion arena after
  listed : ∀ address size, address ∈ addresses after.freeLookup size ↔ (address, size) ∈ after.freeList.entries
  filled : Filled after

theorem allocate_none (done : arena.allocate begin bytes = .ok (none, after)) : after = arena := by
  unfold allocate at done
  split_ifs at done
  · cases done
    rfl
  dsimp only at done
  split at done
  · cases done
    rfl
  · split_ifs at done
    · cases done
    · obtain ⟨added, _, done⟩ := exists_of_bind_ok done
      cases done

theorem allocate_taken (whole : Whole arena live) (done : arena.allocate begin bytes = .ok (some address, after)) :
    ∃ size rest left, Taken arena address (roundBytes bytes) after size rest left := by
  unfold allocate at done
  split_ifs at done
  · cases done
  dsimp only at done
  split at done
  · cases done
  next size set found =>
    obtain ⟨mem, enough, _⟩ := lowerBound_eq_some found
    have first : begin.first set ∈ addresses arena.freeLookup size := by
      unfold addresses
      rw [find?_eq_some.mpr mem]
      exact begin.first_mem (whole.filled size set mem)
    have free := (whole.listed _ size).mp first
    have sizePositive : 0 < size := whole.tiles.positive _ (mem_append_left _ free)
    have parts := perm_erase free
    have alone : ∀ other, (begin.first set, other) ∈ arena.freeList.entries → other = size :=
      fun other present => unique present free
    split_ifs at done with fits
    · cases done
      obtain ⟨count, region⟩ := removeFreeBlock_framed
        { arena with freeBytes := arena.freeBytes - roundBytes bytes } (begin.first set) size
      refine ⟨size, _, [], parts, ?_, .inl ⟨fits, rfl⟩, fits ▸ sizePositive, count, region, ?_, ?_⟩
      · rw [removeFreeBlock_freeList, nil_append]
      · intro place other
        rw [mem_removeFreeBlock, removeFreeBlock_freeList, mem_erase, whole.listed]
        grind
      · exact Filled.removeFreeBlock whole.filled
    · obtain ⟨added, adding, done⟩ := exists_of_bind_ok done
      cases done
      obtain ⟨absent, rfl⟩ := addFreeBlock_ok adding
      -- A request whose rounded size wraps around to zero would be listed where the block is.
      have positive : 0 < roundBytes bytes := by
        by_contra none
        rw [Nat.eq_zero_of_not_pos none, Nat.add_zero] at absent
        exact absent size free
      obtain ⟨count, region⟩ := (resizeFreeBlock_framed { arena with freeBytes := arena.freeBytes - roundBytes bytes }
        (begin.first set + roundBytes bytes) (size - roundBytes bytes)).trans
          (removeFreeBlock_framed _ (begin.first set) size)
      refine ⟨size, _, _, parts, ?_, .inr ⟨Nat.lt_of_le_of_ne enough (Ne.symm fits), rfl⟩, positive, count, region,
        ?_, ?_⟩
      · rw [removeFreeBlock_freeList, resizeFreeBlock_freeList]
        have written := perm_set arena.freeList (begin.first set + roundBytes bytes) (size - roundBytes bytes)
        rw [erase_of_absent absent] at written
        have kept : (begin.first set, size) ∈
            (arena.freeList.set (begin.first set + roundBytes bytes) (size - roundBytes bytes)).entries :=
          mem_set.mpr (.inr ⟨by omega, free⟩)
        have both := (perm_erase kept).symm.trans (written.trans (parts.cons _))
        exact (both.trans (List.Perm.swap ..)).cons_inv
      · intro place other
        rw [mem_removeFreeBlock, removeFreeBlock_freeList, mem_erase, mem_resizeFreeBlock,
          resizeFreeBlock_freeList, OrderedMap.mem_set, whole.listed]
        grind
      · exact Filled.removeFreeBlock (Filled.resize whole.filled)

variable {left rest : List (Nat × Nat)}

theorem Taken.tiles {size : Nat} {blocks : List (Nat × Nat)} {region extent : Nat}
    (taken : Taken arena address bytes after size rest left)
    (tiles : Tiles region extent (arena.freeList.entries ++ blocks)) :
    Tiles region extent (after.freeList.entries ++ (address, bytes) :: blocks) := by
  have cut := tiles.perm (taken.parts.append_right blocks)
  have result := (taken.result.append_right ((address, bytes) :: blocks)).symm
  rcases taken.left_eq with ⟨fits, rfl⟩ | ⟨less, rfl⟩
  · rw [fits] at cut
    exact (cut.perm perm_middle.symm).perm result
  · have sum : size = bytes + (size - bytes) := by omega
    rw [sum] at cut
    have two := (Tiles.cut_iff taken.positive (Nat.sub_pos_of_lt less)).mp cut
    refine (two.perm ?_).perm result
    exact (List.Perm.swap ..).trans (perm_middle.symm.cons _)

section

variable {size : Nat} (whole : Whole arena live) (taken : Taken arena address bytes after size rest left)
include size whole taken

theorem Taken.separate : Separate after.freeList.entries := by
  have kept : ∀ block ∈ rest, block ∈ arena.freeList.entries := fun block mem =>
    taken.parts.mem_iff.mpr (mem_cons_of_mem _ mem)
  have source : (address, size) ∈ arena.freeList.entries := taken.parts.mem_iff.mpr (mem_cons_self ..)
  have outside : ∀ block ∈ rest, address + size ≤ block.1 ∨ block.1 + block.2 ≤ address := fun block mem =>
    (whole.tiles.perm (taken.parts.append_right _)).apart (mem_append_left _ mem)
  intro block mem other otherMember
  have block' := taken.result.mem_iff.mp mem
  have other' := taken.result.mem_iff.mp otherMember
  rcases taken.left_eq with ⟨_, rfl⟩ | ⟨less, rfl⟩
  · exact whole.separate block (kept block block') other (kept other other')
  · have positive := taken.positive
    rcases mem_cons.mp block' with rfl | block'
    · rcases mem_cons.mp other' with rfl | other'
      · dsimp only
        omega
      · have ends := whole.separate _ source other (kept other other')
        dsimp only at ends ⊢
        omega
    · rcases mem_cons.mp other' with rfl | other'
      · have blockPositive := whole.tiles.positive block (mem_append_left _ (kept block block'))
        have sides := outside block block'
        dsimp only
        omega
      · exact whole.separate block (kept block block') other (kept other other')

theorem Taken.counted :
    after.freeBytes = (after.freeList.entries.map Prod.snd).sum := by
  rw [taken.freeBytes, whole.counted, (taken.parts.map Prod.snd).sum_eq, (taken.result.map Prod.snd).sum_eq]
  rcases taken.left_eq with ⟨fits, rfl⟩ | ⟨less, rfl⟩
  · simp [fits]
  · simp only [map_cons, map_append, map_nil, sum_append, sum_cons, sum_nil]
    omega

end

/-- A successful allocation hands out a free block, or the front of one. -/
theorem allocate_whole (whole : Whole arena live) (done : arena.allocate begin bytes = .ok (some address, after)) :
    Whole after ((address, bytes) :: live) ∧ SameRegion arena after := by
  obtain ⟨size, rest, left, taken⟩ := allocate_taken whole done
  obtain ⟨addressKept, sizeKept⟩ := taken.region
  refine ⟨⟨?_, taken.separate whole, taken.listed, taken.filled, taken.counted whole, addressKept ▸ whole.mapped⟩,
    taken.region⟩
  rw [addressKept, sizeKept]
  exact taken.tiles whole.tiles

end

section

variable {arena : MmapArena} {address bytes : Nat}

structure Beside (free : OrderedMap Nat Nat) (address bytes : Nat) : Prop where
  outside : ∀ block ∈ free.entries, block.1 + block.2 ≤ address ∨ address + bytes ≤ block.1
  apart : ∀ block ∈ free.entries, ∀ other ∈ free.entries, block.1 < other.1 → block.1 + block.2 ≤ other.1
  blocks : ∀ block ∈ free.entries, 0 < block.2
  positive : 0 < bytes

variable {free : OrderedMap Nat Nat}

theorem Beside.absent (beside : Beside free address bytes) (size : Nat) : (address, size) ∉ free.entries := by
  intro mem
  have sides := beside.outside _ mem
  have positive := beside.positive
  have block := beside.blocks _ mem
  dsimp only at sides block
  omega

namespace Beside

variable {free : OrderedMap Nat Nat} {earlier later : Nat × Nat}

theorem added (beside : Beside free address bytes) :
    (free.set address bytes).entries.Perm ((address, bytes) :: free.entries) := by
  have written := perm_set free address bytes
  rwa [erase_of_absent beside.absent] at written

theorem mem_added {block : Nat × Nat} (beside : Beside free address bytes) (apart : block.1 ≠ address) :
    block ∈ (free.set address bytes).entries ↔ block ∈ free.entries := by
  rw [beside.added.mem_iff, mem_cons]
  exact or_iff_right fun same => apart (congrArg Prod.fst same)

theorem alone (beside : Beside free address bytes) (nothingBefore : ∀ block ∈ free.entries, block.1 + block.2 ≠ address)
    (nothingBehind : ∀ block ∈ free.entries, block.1 ≠ address + bytes) :
    Coalesced free.entries address bytes none none free.entries (free.set address bytes).entries := by
  refine ⟨.refl _, ?_, nofun, nofun, fun _ => nothingBefore, fun _ => nothingBehind⟩
  have size : back none (address + bytes) - front none address = bytes := Nat.add_sub_cancel_left ..
  rw [size]
  exact beside.added

variable (beside : Beside free address bytes)
include beside

section

variable (mem : earlier ∈ free.entries) (touches : earlier.1 + earlier.2 = address)
include mem touches

theorem withPrev (nothingBehind : ∀ block ∈ free.entries, block.1 ≠ address + bytes) :
    ∃ rest, Coalesced free.entries address bytes (some earlier) none rest
      (((free.set address bytes).erase address).set earlier.1 (address - earlier.1 + bytes)).entries := by
  have again := @OrderedMap.perm_erase_set _ _ _ free address bytes beside.absent
  have parts := again.symm.trans (perm_erase (again.mem_iff.mpr mem))
  refine ⟨_, parts, ?_, ?_, nofun, nofun, fun _ => nothingBehind⟩
  · have size : back none (address + bytes) - front (some earlier) address = address - earlier.1 + bytes := by
      simp only [front, back, Option.elim]
      omega
    rw [size]
    exact perm_set ..
  · intro block same
    cases same
    exact touches

theorem withBoth (laterMember : later ∈ free.entries)
    (laterTouches : later.1 = address + bytes) :
    ∃ rest, Coalesced free.entries address bytes (some earlier) (some later) rest
      ((((free.set address bytes).erase address).erase later.1).set earlier.1
        (later.1 - earlier.1 + later.2)).entries := by
  have positive := beside.positive
  have again := @OrderedMap.perm_erase_set _ _ _ free address bytes beside.absent
  have split := again.symm.trans (perm_erase (again.mem_iff.mpr laterMember))
  have kept : earlier ∈ (((free.set address bytes).erase address).erase later.1).entries :=
    mem_erase.mpr ⟨by omega, again.mem_iff.mpr mem⟩
  refine ⟨_, (split.trans ((perm_erase kept).cons later)).trans (List.Perm.swap ..), ?_, ?_, ?_, nofun, nofun⟩
  · have size : back (some later) (address + bytes) - front (some earlier) address = later.1 - earlier.1 + later.2 := by
      simp only [front, back, Option.elim]
      omega
    rw [size]
    exact perm_set ..
  · intro block same
    cases same
    exact touches
  · intro block same
    cases same
    exact laterTouches

end

theorem withNext (mem : later ∈ free.entries)
    (touches : later.1 = address + bytes) (nothingBefore : ∀ block ∈ free.entries, block.1 + block.2 ≠ address) :
    ∃ rest, Coalesced free.entries address bytes none (some later) rest
      (((free.set address bytes).erase later.1).set address (later.1 - address + later.2)).entries := by
  have positive := beside.positive
  have split := perm_erase (beside.added.mem_iff.mpr (mem_cons_of_mem _ mem))
  have kept : (address, bytes) ∈ ((free.set address bytes).erase later.1).entries :=
    mem_erase.mpr ⟨by omega, mem_set.mpr (.inl ⟨rfl, rfl⟩)⟩
  have parts := beside.added.symm.trans (split.trans ((perm_erase kept).cons later))
  refine ⟨_, (parts.trans (List.Perm.swap ..)).cons_inv, ?_, nofun, ?_, fun _ => nothingBefore, nofun⟩
  · have size : back (some later) (address + bytes) - front none address = later.1 - address + later.2 := by
      simp only [front, back, Option.elim]
      omega
    rw [size]
    exact perm_set ..
  · intro block same
    cases same
    exact touches

end Beside

section

variable (beside : Beside free address bytes) (listed : arena.freeList = free.set address bytes)
include beside listed

theorem mergePrev_spec :
    ∃ prev, arena.mergePrev address bytes = .ok prev ∧
      (∀ block, prev = some block → block ∈ free.entries ∧ block.1 + block.2 = address) ∧
      (prev = none → ∀ block ∈ free.entries, block.1 + block.2 ≠ address) := by
  unfold mergePrev
  rw [listed]
  split
  · next missing =>
      refine ⟨none, rfl, nofun, fun _ block mem touches => ?_⟩
      have positive := beside.blocks block mem
      have low := prev_eq_none missing block ((beside.mem_added (by omega)).mpr mem)
      omega
  · next first size found =>
      obtain ⟨present, low, greatest⟩ := prev_eq_some found
      have mem := (beside.mem_added (Nat.ne_of_lt low)).mp present
      have sides := beside.outside _ mem
      have positive := beside.blocks _ mem
      dsimp only at low greatest sides positive
      rw [if_neg (by omega)]
      split_ifs with touches
      · refine ⟨_, rfl, fun block same => ?_, nofun⟩
        cases same
        exact ⟨mem, touches⟩
      · refine ⟨none, rfl, nofun, fun _ block present touching => ?_⟩
        have blockPositive := beside.blocks block present
        have order := greatest block ((beside.mem_added (by omega)).mpr present) (by omega)
        -- A block further in front ends before the one in front of the released block.
        rcases Nat.lt_or_eq_of_le order with before | same
        · have ends := beside.apart block present _ mem before
          dsimp only at ends
          omega
        · have equal : block.2 = size := unique (same ▸ present) mem
          omega

theorem mergeNext_spec :
    ∃ next, arena.mergeNext address bytes = .ok next ∧
      (∀ block, next = some block → block ∈ free.entries ∧ block.1 = address + bytes) ∧
      (next = none → ∀ block ∈ free.entries, block.1 ≠ address + bytes) := by
  have positive := beside.positive
  unfold mergeNext
  rw [listed]
  split
  · next missing =>
      refine ⟨none, rfl, nofun, fun _ block mem touches => ?_⟩
      have high := next_eq_none missing block ((beside.mem_added (by omega)).mpr mem)
      omega
  · next first size found =>
      obtain ⟨present, high, least⟩ := next_eq_some found
      have mem := (beside.mem_added (Nat.ne_of_gt high)).mp present
      have sides := beside.outside _ mem
      have sizePositive := beside.blocks _ mem
      dsimp only at high least sides sizePositive
      rw [if_neg (by omega)]
      split_ifs with touches
      · refine ⟨_, rfl, fun block same => ?_, nofun⟩
        cases same
        exact ⟨mem, touches.symm⟩
      · refine ⟨none, rfl, nofun, fun _ block present touching => ?_⟩
        have order := least block ((beside.mem_added (by omega)).mpr present) (by omega)
        omega

end

structure Released (arena : MmapArena) (address bytes : Nat) (after : MmapArena) (prev next : Option (Nat × Nat))
    (rest : List (Nat × Nat)) : Prop where
  coalesced : Coalesced arena.freeList.entries address bytes prev next rest after.freeList.entries
  framed : Framed arena after
  listed : ∀ address size, address ∈ addresses after.freeLookup size ↔ (address, size) ∈ after.freeList.entries
  filled : Filled after

section

variable {earlier later : Nat × Nat}
  (listed : ∀ address size, address ∈ addresses arena.freeLookup size ↔ (address, size) ∈ arena.freeList.entries)
  (filled : Filled arena) (beside : Beside arena.freeList address bytes)

include listed filled beside

theorem released_alone (nothingBefore : ∀ block ∈ arena.freeList.entries, block.1 + block.2 ≠ address)
    (nothingBehind : ∀ block ∈ arena.freeList.entries, block.1 ≠ address + bytes) :
    ∃ rest, Released arena address bytes ((arena.resizeFreeBlock address bytes).coalesce address bytes none none)
      none none rest := by
  refine ⟨_, beside.alone nothingBefore nothingBehind, resizeFreeBlock_framed .., ?_, filled.resize⟩
  intro place size
  have absent := beside.absent
  change place ∈ addresses (arena.resizeFreeBlock address bytes).freeLookup size ↔ _ ∈ (arena.freeList.set _ _).entries
  rw [mem_resizeFreeBlock, OrderedMap.mem_set, listed]
  grind

/-- One of the new block and a block that touches it takes in the other one. -/
theorem released_one {block : Nat × Nat} (mem : block ∈ arena.freeList.entries) {gone kept : Nat × Nat} {size : Nat}
    (pair : gone = block ∧ kept = (address, bytes) ∨ gone = (address, bytes) ∧ kept = block)
    {prev next : Option (Nat × Nat)} {rest : List (Nat × Nat)}
    (coalesced : Coalesced arena.freeList.entries address bytes prev next rest
      (((arena.freeList.set address bytes).erase gone.1).set kept.1 size).entries) :
    Released arena address bytes
      ((((arena.resizeFreeBlock address bytes).removeFreeBlock gone.1 gone.2).removeFromLookup kept.1
        kept.2).resizeFreeBlock kept.1 size) prev next rest := by
  refine ⟨?_, ?_, ?_, filled.resize.removeFreeBlock.removeFromLookup.resize⟩
  · rw [resizeFreeBlock_freeList, removeFromLookup_freeList, removeFreeBlock_freeList, resizeFreeBlock_freeList]
    exact coalesced
  · exact (resizeFreeBlock_framed ..).trans ((removeFreeBlock_framed ..).trans
      ((removeFromLookup_framed ..).trans (resizeFreeBlock_framed ..)))
  · intro place size
    have absent := beside.absent
    have alone : ∀ other, (block.1, other) ∈ arena.freeList.entries → other = block.2 :=
      fun other present => unique present mem
    rw [mem_resizeFreeBlock, mem_removeFromLookup, mem_removeFreeBlock, mem_resizeFreeBlock,
      resizeFreeBlock_freeList, removeFromLookup_freeList, removeFreeBlock_freeList, resizeFreeBlock_freeList,
      OrderedMap.mem_set, OrderedMap.mem_erase, OrderedMap.mem_set, listed]
    clear listed filled beside coalesced mem
    grind

theorem released_next (mem : later ∈ arena.freeList.entries) (touches : later.1 = address + bytes)
    (nothingBefore : ∀ block ∈ arena.freeList.entries, block.1 + block.2 ≠ address) :
    ∃ rest, Released arena address bytes ((arena.resizeFreeBlock address bytes).coalesce address bytes none
      (some later))
      none (some later) rest := by
  obtain ⟨rest, coalesced⟩ := beside.withNext mem touches nothingBefore
  exact ⟨rest, released_one listed filled beside mem (.inl ⟨rfl, rfl⟩) coalesced⟩

variable (mem : earlier ∈ arena.freeList.entries) (touches : earlier.1 + earlier.2 = address)
include mem touches

theorem released_prev (nothingBehind : ∀ block ∈ arena.freeList.entries, block.1 ≠ address + bytes) :
    ∃ rest, Released arena address bytes ((arena.resizeFreeBlock address bytes).coalesce address bytes
      (some earlier) none)
      (some earlier) none rest := by
  obtain ⟨rest, coalesced⟩ := beside.withPrev mem touches nothingBehind
  exact ⟨rest, released_one listed filled beside mem (.inr ⟨rfl, rfl⟩) coalesced⟩

theorem released_both (laterMember : later ∈ arena.freeList.entries) (laterTouches : later.1 = address + bytes) :
    ∃ rest, Released arena address bytes
      ((arena.resizeFreeBlock address bytes).coalesce address bytes (some earlier) (some later))
      (some earlier) (some later) rest := by
  obtain ⟨rest, coalesced⟩ := beside.withBoth mem touches laterMember laterTouches
  obtain ⟨prevAddr, prevBytes⟩ := earlier
  obtain ⟨nextAddr, nextBytes⟩ := later
  refine ⟨rest, ?_, ?_, ?_, filled.resize.removeFreeBlock.removeFromLookup.removeFreeBlock.resize⟩
  · rw [coalesce, resizeFreeBlock_freeList, removeFreeBlock_freeList, removeFromLookup_freeList,
      removeFreeBlock_freeList, resizeFreeBlock_freeList]
    exact coalesced
  · exact (resizeFreeBlock_framed ..).trans ((removeFreeBlock_framed ..).trans
      ((removeFromLookup_framed ..).trans ((removeFreeBlock_framed ..).trans (resizeFreeBlock_framed ..))))
  · intro place size
    have absent := beside.absent
    have alone : ∀ other, (prevAddr, other) ∈ arena.freeList.entries → other = prevBytes :=
      fun other present => unique present mem
    have laterAlone : ∀ other, (nextAddr, other) ∈ arena.freeList.entries → other = nextBytes :=
      fun other present => unique present laterMember
    rw [coalesce, mem_resizeFreeBlock, mem_removeFreeBlock, mem_removeFromLookup, mem_removeFreeBlock,
      mem_resizeFreeBlock,
      resizeFreeBlock_freeList, removeFreeBlock_freeList, removeFromLookup_freeList, removeFreeBlock_freeList,
      resizeFreeBlock_freeList, OrderedMap.mem_set, OrderedMap.mem_erase, OrderedMap.mem_erase, OrderedMap.mem_set,
        listed]
    clear listed filled beside coalesced mem laterMember
    grind

end

theorem free_released (listed : ∀ address size, address ∈ addresses arena.freeLookup size ↔
      (address, size) ∈ arena.freeList.entries) (filled : Filled arena) (mapped : address ≠ 0)
    (beside : Beside arena.freeList address (roundBytes bytes)) :
    ∃ after prev next rest, arena.free address bytes = .ok after ∧
      Released { arena with freeBytes := arena.freeBytes + roundBytes bytes } address (roundBytes bytes) after prev next
        rest := by
  have asked : bytes ≠ 0 := fun none => absurd beside.positive (by rw [none]; decide)
  let counted : MmapArena := { arena with freeBytes := arena.freeBytes + roundBytes bytes }
  let added := counted.resizeFreeBlock address (roundBytes bytes)
  have adding : counted.addFreeBlock address (roundBytes bytes) = .ok added := addFreeBlock_of_absent beside.absent
  obtain ⟨prev, prevFound, before, nothingBefore⟩ := @mergePrev_spec added _ _ _ beside rfl
  obtain ⟨next, nextFound, behind, nothingBehind⟩ := @mergeNext_spec added _ _ _ beside rfl
  have done : arena.free address bytes = .ok (added.coalesce address (roundBytes bytes) prev next) := by
    unfold free
    rw [if_neg (not_or.mpr ⟨mapped, asked⟩)]
    change (counted.addFreeBlock address (roundBytes bytes) >>= _) = _
    rw [adding]
    dsimp only [bind, Except.bind]
    rw [prevFound]
    dsimp only
    rw [nextFound]
    rfl
  have released : ∃ rest, Released counted address (roundBytes bytes)
      (added.coalesce address (roundBytes bytes) prev next) prev next rest := by
    cases prev with
    | none =>
      cases next with
      | none => exact @released_alone counted _ _ listed filled beside (nothingBefore rfl) (nothingBehind rfl)
      | some later =>
        obtain ⟨mem, touches⟩ := behind later rfl
        exact @released_next counted _ _ _ listed filled beside mem touches (nothingBefore rfl)
    | some earlier =>
      obtain ⟨mem, touches⟩ := before earlier rfl
      cases next with
      | none => exact @released_prev counted _ _ _ listed filled beside mem touches (nothingBehind rfl)
      | some later =>
        obtain ⟨laterMember, laterTouches⟩ := behind later rfl
        exact @released_both counted _ _ _ _ listed filled beside mem touches laterMember laterTouches
  obtain ⟨rest, released⟩ := released
  exact ⟨_, prev, next, rest, done, released⟩

variable {live : List (Nat × Nat)}

variable (whole : Whole arena live) (held : (address, bytes) ∈ live)
include whole held

theorem Whole.split :
    Tiles arena.address arena.byteSize ((address, roundBytes bytes) ::
      (arena.freeList.entries ++ (live.erase (address, bytes)).map rounded)) := by
  have parts := ((perm_cons_erase held).map rounded).append_left arena.freeList.entries
  exact whole.tiles.perm (parts.trans perm_middle)

theorem Whole.beside :
    Beside arena.freeList address (roundBytes bytes) := by
  have split := whole.split held
  refine ⟨?_, ?_, ?_, split.positive _ (mem_cons_self ..)⟩
  · intro block mem
    have sides := split.apart (mem_append_left _ mem)
    exact sides.symm
  · intro block mem other otherMember less
    have others : other ∈ (arena.freeList.erase block.1).entries :=
      mem_erase.mpr ⟨Nat.ne_of_gt less, otherMember⟩
    have positive := whole.tiles.positive other (mem_append_left _ otherMember)
    have sides := (whole.tiles.perm ((perm_erase mem).append_right _)).apart
      (mem_append_left _ others)
    dsimp only at sides
    omega
  · exact fun block mem => whole.tiles.positive block (mem_append_left _ mem)

/-- A live block is freed. No check throws. -/
theorem free_whole :
    ∃ after, arena.free address bytes = .ok after ∧ Whole after (live.erase (address, bytes)) ∧
      SameRegion arena after := by
  have split := whole.split held
  have inside := split.inside (mem_cons_self ..)
  have mapped : address ≠ 0 := by
    have low := whole.mapped
    dsimp only at inside
    omega
  obtain ⟨after, prev, next, rest, done, released⟩ :=
    free_released whole.listed whole.filled mapped (whole.beside held)
  obtain ⟨count, region⟩ := released.framed
  refine ⟨after, done, ⟨?_, ?_, released.listed, released.filled, ?_, ?_⟩, region⟩
  · rw [region.1, region.2]
    exact released.coalesced.tiles split
  · exact released.coalesced.separate (split.positive _ (mem_cons_self ..)) whole.separate
  · rw [count, released.coalesced.sum_eq]
    exact congrArg (· + roundBytes bytes) whole.counted
  · exact region.1 ▸ whole.mapped

end

/-- What the system guarantees of a new mapping: it is not empty, does not begin at zero, ends below `2 ^ 64` and meets
none of the regions that are mapped. -/
def Maps (mmap : Nat → Option Nat) (capacity : Nat) (regions : List Nat) : Prop :=
  ∀ address, mmap capacity = some address → 0 < capacity ∧ 0 < address ∧ address + capacity < 2 ^ 64 ∧
    ∀ region ∈ regions, region + capacity ≤ address ∨ address + capacity ≤ region

inductive Reachable : MmapArena → List (Nat × Nat) → Prop where
  | created {mmap : Nat → Option Nat} {capacity : Nat} {arena : MmapArena} (maps : Maps mmap capacity [])
      (done : create mmap capacity = .ok arena) : Reachable arena []
  | allocated {arena after : MmapArena} {live : List (Nat × Nat)} {begin : Begin} {address bytes : Nat}
      (earlier : Reachable arena live) (done : arena.allocate begin bytes = .ok (some address, after)) :
      Reachable after ((address, bytes) :: live)
  | freed {arena after : MmapArena} {live : List (Nat × Nat)} {address bytes : Nat} (earlier : Reachable arena live)
      (held : (address, bytes) ∈ live) (done : arena.free address bytes = .ok after) :
      Reachable after (live.erase (address, bytes))

theorem Reachable.whole {arena : MmapArena} {live : List (Nat × Nat)} (run : Reachable arena live) :
    Whole arena live := by
  induction run with
  | created maps done => exact (create_whole done fun address found =>
      ⟨(maps address found).2.1, (maps address found).1⟩).1
  | allocated earlier done ih => exact (allocate_whole ih done).1
  | freed earlier held done ih =>
    obtain ⟨after, result, whole, _⟩ := free_whole ih held
    cases done.symm.trans result
    exact whole

end CactusDB.Common.MmapArena
