import CactusDB.Common.ArenaBlocks
import Mathlib.Data.Finset.Max

/-! Arenas that are added when none can serve a request, and dropped when they hold no live block. -/

namespace CactusDB.Common

open Library Library.Tiling Library.Fallible List OrderedMap

structure LiveBlock where
  arena : Nat
  address : Nat
  bytes : Nat
  deriving DecidableEq

def ownedBy (key : Nat) (live : List LiveBlock) : List (Nat × Nat) :=
  (live.filter fun block => block.arena = key).map fun block => (block.address, block.bytes)

section

variable {key address bytes : Nat} {block : LiveBlock} {live : List LiveBlock}

theorem mem_ownedBy (held : block ∈ live) : (block.address, block.bytes) ∈ ownedBy block.arena live :=
  mem_map.mpr ⟨block, mem_filter.mpr ⟨held, by simp⟩, rfl⟩

theorem ownedBy_eq_nil (none : ∀ block ∈ live, block.arena ≠ key) : ownedBy key live = [] := by
  unfold ownedBy
  rw [filter_eq_nil_iff.mpr fun block mem => by simpa using none block mem]
  rfl

@[simp] theorem ownedBy_cons_self : ownedBy key (⟨key, address, bytes⟩ :: live) = (address,
    bytes) :: ownedBy key live := by
  simp [ownedBy]

theorem ownedBy_cons_other (other : block.arena ≠ key) : ownedBy key (block :: live) = ownedBy key live := by
  simp [ownedBy, other]

theorem ownedBy_perm_erase (held : block ∈ live) :
    (ownedBy block.arena live).Perm ((block.address, block.bytes) :: ownedBy block.arena (live.erase block)) := by
  have parts := ((perm_cons_erase held).filter fun other => other.arena = block.arena).map
    fun other => (other.address, other.bytes)
  simpa [ownedBy] using parts

theorem ownedBy_perm_erase_other (held : block ∈ live) (other : block.arena ≠ key) :
    (ownedBy key live).Perm (ownedBy key (live.erase block)) := by
  have parts := ((perm_cons_erase held).filter fun other => other.arena = key).map
    fun other => (other.address, other.bytes)
  simpa [ownedBy, other] using parts

end

namespace MmapArena

variable {arena : MmapArena} {live other : List (Nat × Nat)}

theorem Whole.perm (whole : Whole arena live) (same : live.Perm other) : Whole arena other :=
  ⟨whole.tiles.perm ((same.map rounded).append_left _), whole.separate, whole.listed, whole.filled, whole.counted,
    whole.mapped⟩

theorem Whole.live_nil (whole : Whole arena live) (free : arena.isEmpty = true) : live = [] := by
  have total := whole.tiles.sum_eq
  rw [map_append, sum_append, ← whole.counted, of_decide_eq_true free] at total
  cases live with
  | nil => rfl
  | cons block rest =>
    have positive := whole.tiles.positive (rounded block) (by simp)
    simp only [map_cons, sum_cons] at total
    omega

end MmapArena

namespace ManagedMmapArenas

open MmapArena

/-- Each arena is cut into its free blocks and the live blocks that came from it. -/
structure Sound (managed : ManagedMmapArenas) (live : List LiveBlock) : Prop where
  whole : ∀ key arena, (key, arena) ∈ managed.arenas.entries →
    arena.address = key ∧ arena.byteSize = managed.singleArenaCapacity ∧ Whole arena (ownedBy key live)
  apart : ∀ first ∈ managed.arenas.entries, ∀ second ∈ managed.arenas.entries, first.1 < second.1 →
    first.1 + managed.singleArenaCapacity ≤ second.1
  origin : ∀ block ∈ live, ∃ arena, (block.arena, arena) ∈ managed.arenas.entries

variable {managed after : ManagedMmapArenas} {live : List LiveBlock} {begin : Begin} {key address bytes : Nat}

section

theorem Sound.replace (sound : Sound managed live) {arena : MmapArena} {blocks : List LiveBlock}
    (present : ∃ old, (key, old) ∈ managed.arenas.entries)
    (here : arena.address = key ∧ arena.byteSize = managed.singleArenaCapacity ∧ Whole arena (ownedBy key blocks))
    (there : ∀ other, other ≠ key → (ownedBy other live).Perm (ownedBy other blocks))
    (origin : ∀ block ∈ blocks, block.arena = key ∨ block ∈ live) :
    Sound { managed with arenas := managed.arenas.set key arena } blocks := by
  have keys : ∀ entry ∈ (managed.arenas.set key arena).entries, ∃ old, (entry.1, old) ∈ managed.arenas.entries := by
    intro entry mem
    rcases mem_set.mp mem with ⟨same, _⟩ | ⟨_, kept⟩
    · exact same ▸ present
    · exact ⟨entry.2, kept⟩
  refine ⟨?_, ?_, ?_⟩
  · intro other stored mem
    rcases mem_set.mp mem with ⟨rfl, rfl⟩ | ⟨different, kept⟩
    · exact here
    · obtain ⟨place, size, whole⟩ := sound.whole other stored kept
      exact ⟨place, size, whole.perm (there other different)⟩
  · intro first mem second otherMember less
    obtain ⟨firstArena, firstOld⟩ := keys first mem
    obtain ⟨secondArena, secondOld⟩ := keys second otherMember
    exact sound.apart (first.1, firstArena) firstOld (second.1, secondArena) secondOld less
  · intro block mem
    by_cases same : block.arena = key
    · exact ⟨arena, mem_set.mpr (.inl ⟨same, rfl⟩)⟩
    · obtain ⟨stored, kept⟩ := sound.origin block ((origin block mem).resolve_left same)
      exact ⟨stored, mem_set.mpr (.inr ⟨same, kept⟩)⟩

theorem allocateIn_ok {result : Option Nat} (done : managed.allocateIn begin key bytes = .ok (result, after)) :
    ∃ arena changed, (key, arena) ∈ managed.arenas.entries ∧ arena.allocate begin bytes = .ok (result, changed) ∧
      after = { managed with arenas := managed.arenas.set key changed } := by
  unfold allocateIn at done
  split at done
  · cases done
  next arena found =>
    obtain ⟨⟨answer, changed⟩, allocating, done⟩ := exists_of_bind_ok done
    cases done
    exact ⟨arena, changed, find?_eq_some.mp found, allocating, rfl⟩

theorem allocateIn_some (sound : Sound managed live)
    (done : managed.allocateIn begin key bytes = .ok (some address, after)) :
    Sound after (⟨key, address, bytes⟩ :: live) ∧ after.currentArena = managed.currentArena := by
  obtain ⟨arena, changed, present, allocating, rfl⟩ := allocateIn_ok done
  obtain ⟨place, size, whole⟩ := sound.whole key arena present
  obtain ⟨changedWhole, region⟩ := allocate_whole whole allocating
  refine ⟨sound.replace ⟨arena, present⟩ ⟨region.1.trans place, region.2.trans size, ?_⟩ ?_ ?_, rfl⟩
  · rw [ownedBy_cons_self]
    exact changedWhole
  · intro other different
    rw [ownedBy_cons_other (Ne.symm different)]
  · intro block mem
    rcases mem_cons.mp mem with rfl | mem
    · exact .inl rfl
    · exact .inr mem

theorem allocateIn_none (sound : Sound managed live) (done : managed.allocateIn begin key bytes = .ok (none, after)) :
    Sound after live ∧ after.singleArenaCapacity = managed.singleArenaCapacity ∧
      ∀ entry ∈ after.arenas.entries, ∃ old, (entry.1, old) ∈ managed.arenas.entries := by
  obtain ⟨arena, changed, present, allocating, rfl⟩ := allocateIn_ok done
  rw [allocate_none allocating]
  refine ⟨sound.replace ⟨arena, present⟩ (sound.whole key arena present) (fun _ _ => .refl _) fun _ => .inr, rfl, ?_⟩
  intro entry mem
  rcases mem_set.mp mem with ⟨same, _⟩ | ⟨_, kept⟩
  · exact ⟨arena, same ▸ present⟩
  · exact ⟨entry.2, kept⟩

/-- A new arena meets none of the others. -/
theorem Sound.grow (sound : Sound managed live) {mmap : Nat → Option Nat} {arena : MmapArena} {regions : List Nat}
    (covers : ∀ entry ∈ managed.arenas.entries, entry.1 ∈ regions)
    (maps : Maps mmap managed.singleArenaCapacity regions)
    (done : MmapArena.create mmap managed.singleArenaCapacity = .ok arena) :
    Sound ⟨managed.singleArenaCapacity, managed.arenas.emplace arena.address arena, arena.address⟩ live := by
  obtain ⟨whole, mapped, size⟩ := create_whole done fun address found =>
    ⟨(maps address found).2.1, (maps address found).1⟩
  obtain ⟨positive, _, _, free⟩ := maps _ mapped
  have apart : ∀ entry ∈ managed.arenas.entries, entry.1 + managed.singleArenaCapacity ≤ arena.address ∨
      arena.address + managed.singleArenaCapacity ≤ entry.1 := fun entry mem => free entry.1 (covers entry mem)
  have absent : ∀ other, (arena.address, other) ∉ managed.arenas.entries := by
    intro other mem
    have sides := apart _ mem
    dsimp only at sides
    omega
  have entries : managed.arenas.emplace arena.address arena = managed.arenas.set arena.address arena := by
    unfold emplace
    rw [find?_eq_none.mpr absent]
    rfl
  have unowned : ownedBy arena.address live = [] := by
    refine ownedBy_eq_nil fun block mem same => ?_
    obtain ⟨stored, present⟩ := sound.origin block mem
    exact absent stored (same ▸ present)
  rw [entries]
  refine ⟨?_, ?_, ?_⟩
  · intro key stored mem
    rcases mem_set.mp mem with ⟨rfl, rfl⟩ | ⟨_, kept⟩
    · exact ⟨rfl, size, unowned ▸ whole⟩
    · exact sound.whole key stored kept
  · intro first mem second otherMember less
    rcases mem_set.mp mem with ⟨same, _⟩ | ⟨_, kept⟩
    · rcases mem_set.mp otherMember with ⟨otherSame, _⟩ | ⟨_, otherKept⟩
      · omega
      · have sides := apart second otherKept
        dsimp only
        omega
    · rcases mem_set.mp otherMember with ⟨otherSame, _⟩ | ⟨_, otherKept⟩
      · have sides := apart first kept
        dsimp only
        omega
      · exact sound.apart first kept second otherKept less
  · intro block mem
    obtain ⟨stored, present⟩ := sound.origin block mem
    refine ⟨stored, mem_set.mpr (.inr ⟨fun same => ?_, present⟩)⟩
    exact absent stored (same ▸ present)

variable {mmap : Nat → Option Nat}

theorem create_sound {capacity : Nat} (maps : Maps mmap capacity [])
    (done : create mmap capacity = .ok managed) : Sound managed [] := by
  obtain ⟨arena, creating, done⟩ := exists_of_bind_ok done
  cases done
  have nothing : Sound ⟨capacity, .empty, 0⟩ [] := ⟨nofun, nofun, nofun⟩
  exact nothing.grow nofun maps creating

def regions (managed : ManagedMmapArenas) : List Nat := managed.arenas.entries.map Prod.fst

/-- A block comes from the arena that is current afterwards. -/
theorem allocate_sound {result : Option Nat} (sound : Sound managed live)
    (maps : Maps mmap managed.singleArenaCapacity managed.regions)
    (done : managed.allocate begin mmap bytes = .ok (result, after)) :
    match result with
    | some address => Sound after (⟨after.currentArena, address, bytes⟩ :: live)
    | none => Sound after live := by
  obtain ⟨⟨answer, tried⟩, trying, done⟩ := exists_of_bind_ok done
  cases answer with
  | some address =>
    cases done
    obtain ⟨changed, current⟩ := allocateIn_some sound trying
    exact current ▸ changed
  | none =>
    obtain ⟨triedSound, capacity, keys⟩ := allocateIn_none sound trying
    simp only [Option.isSome_none, Bool.false_eq_true, if_false] at done
    obtain ⟨newArena, creating, done⟩ := exists_of_bind_ok done
    have covers : ∀ entry ∈ tried.arenas.entries, entry.1 ∈ managed.regions := by
      intro entry mem
      obtain ⟨old, present⟩ := keys entry mem
      exact mem_map.mpr ⟨_, present, rfl⟩
    have grown := triedSound.grow covers (capacity ▸ maps) creating
    cases result with
    | some address =>
      obtain ⟨changed, current⟩ := allocateIn_some grown done
      exact current ▸ changed
    | none => exact (allocateIn_none grown done).1

end

section

variable {block : LiveBlock}

variable (sound : Sound managed live) (held : block ∈ live)
include sound held

theorem Sound.inside :
    block.arena ≤ block.address ∧ block.address + block.bytes ≤ block.arena + managed.singleArenaCapacity ∧
      block.address < block.arena + managed.singleArenaCapacity := by
  obtain ⟨arena, present⟩ := sound.origin block held
  obtain ⟨place, size, whole⟩ := sound.whole _ arena present
  have split := whole.split (mem_ownedBy held)
  obtain ⟨low, high⟩ := split.inside (mem_cons_self ..)
  have positive := split.positive _ (mem_cons_self ..)
  have enough := le_roundBytes positive
  dsimp only at low high positive
  omega

/-- A live block is freed in the arena it came from. -/
theorem arenaOf_live :
    ∃ arena, (block.arena, arena) ∈ managed.arenas.entries ∧
      managed.arenaOf block.address block.bytes = .ok (block.arena, arena) := by
  obtain ⟨arena, present⟩ := sound.origin block held
  obtain ⟨low, high, within⟩ := sound.inside held
  -- The arena is the last one that does not begin behind the block.
  have last : ∀ entry ∈ managed.arenas.entries, entry.1 ≤ block.address → entry.1 ≤ block.arena := by
    intro entry mem before
    by_contra later
    have next := sound.apart _ present entry mem (Nat.lt_of_not_le later)
    dsimp only at next
    omega
  refine ⟨arena, present, ?_⟩
  by_cases first : block.arena = block.address
  · have bound : managed.arenas.lowerBound block.address = some (block.arena, arena) := by
      cases found : managed.arenas.lowerBound block.address with
      | none =>
        have below := lowerBound_eq_none found _ present
        exact absurd first (Nat.ne_of_lt below)
      | some entry =>
        obtain ⟨mem, reaches, least⟩ := lowerBound_eq_some found
        have same : entry.1 = block.arena :=
          Nat.le_antisymm (least _ present (Nat.le_of_eq first.symm)) (first ▸ reaches)
        have equal : entry.2 = arena := unique (same ▸ mem) present
        rw [← same, ← equal]
    unfold arenaOf
    rw [bound]
    simp [first]
  · have before : arenaOf.before managed block.address block.bytes = .ok (block.arena, arena) := by
      unfold arenaOf.before
      cases found : managed.arenas.prev block.address with
      | none =>
        have above := prev_eq_none found _ present
        exact absurd (Nat.le_antisymm low above) first
      | some entry =>
        obtain ⟨mem, reaches, greatest⟩ := prev_eq_some found
        have same : entry.1 = block.arena :=
          Nat.le_antisymm (last entry mem (Nat.le_of_lt reaches)) (greatest _ present (Nat.lt_of_le_of_ne low first))
        have equal : entry.2 = arena := unique (same ▸ mem) present
        dsimp only
        rw [same, equal, if_pos high]
    unfold arenaOf
    split
    · next key stored found =>
        obtain ⟨mem, reaches, _⟩ := lowerBound_eq_some found
        have different : key ≠ block.address := by
          intro same
          have bounded := last _ mem (Nat.le_of_eq same)
          dsimp only at bounded
          omega
        rw [if_neg different, before]
    · exact before

/-- A live block is freed, and its arena dropped only when no live block is left in it. -/
theorem free_sound :
    ∃ after, managed.free block.address block.bytes = .ok after ∧ Sound after (live.erase block) := by
  obtain ⟨arena, present, found⟩ := arenaOf_live sound held
  obtain ⟨place, size, whole⟩ := sound.whole _ arena present
  obtain ⟨changed, freeing, changedWhole, region⟩ := free_whole whole (mem_ownedBy held)
  have remaining : ((ownedBy block.arena live).erase (block.address, block.bytes)).Perm
      (ownedBy block.arena (live.erase block)) := by
    have parts := (ownedBy_perm_erase held).erase (block.address, block.bytes)
    rwa [erase_cons_head] at parts
  have replaced : Sound { managed with arenas := managed.arenas.set block.arena changed } (live.erase block) := by
    refine sound.replace ⟨arena, present⟩ ⟨region.1.trans place, region.2.trans size, changedWhole.perm remaining⟩ ?_ ?_
    · exact fun other different => ownedBy_perm_erase_other held (Ne.symm different)
    · exact fun other mem => .inr (mem_of_mem_erase mem)
  unfold free
  rw [found]
  dsimp only [bind, Except.bind]
  rw [freeing]
  dsimp only
  split_ifs with drop
  · refine ⟨_, rfl, ?_, ?_, ?_⟩
    · exact fun key stored mem => replaced.whole key stored (mem_erase.mp mem).2
    · exact fun first mem second otherMember less => replaced.apart first (mem_erase.mp mem).2 second
        (mem_erase.mp otherMember).2 less
    · -- An empty arena owns no live block.
      intro other mem
      have none := (changedWhole.perm remaining).live_nil (Bool.and_eq_true_iff.mp drop).1
      obtain ⟨stored, kept⟩ := replaced.origin other mem
      refine ⟨stored, mem_erase.mpr ⟨fun same => ?_, kept⟩⟩
      have owned := mem_ownedBy mem
      rw [same, none] at owned
      cases owned
  · exact ⟨_, rfl, replaced⟩

end

inductive Reachable : ManagedMmapArenas → List LiveBlock → Prop where
  | created {mmap : Nat → Option Nat} {capacity : Nat} {managed : ManagedMmapArenas} (maps : Maps mmap capacity [])
      (done : create mmap capacity = .ok managed) : Reachable managed []
  | allocated {managed after : ManagedMmapArenas} {live : List LiveBlock} {begin : Begin} {mmap : Nat → Option Nat}
      {address bytes : Nat} (earlier : Reachable managed live)
      (maps : Maps mmap managed.singleArenaCapacity managed.regions)
      (done : managed.allocate begin mmap bytes = .ok (some address, after)) :
      Reachable after (⟨after.currentArena, address, bytes⟩ :: live)
  | refused {managed after : ManagedMmapArenas} {live : List LiveBlock} {begin : Begin} {mmap : Nat → Option Nat}
      {bytes : Nat} (earlier : Reachable managed live)
      (maps : Maps mmap managed.singleArenaCapacity managed.regions)
      (done : managed.allocate begin mmap bytes = .ok (none, after)) : Reachable after live
  | freed {managed after : ManagedMmapArenas} {live : List LiveBlock} {block : LiveBlock}
      (earlier : Reachable managed live) (held : block ∈ live)
      (done : managed.free block.address block.bytes = .ok after) : Reachable after (live.erase block)

theorem Reachable.sound (run : Reachable managed live) : Sound managed live := by
  induction run with
  | created maps done => exact create_sound maps done
  | allocated earlier maps done ih => exact allocate_sound ih maps done
  | refused earlier maps done ih => exact allocate_sound ih maps done
  | freed earlier held done ih =>
    obtain ⟨after, result, sound⟩ := free_sound ih held
    cases done.symm.trans result
    exact sound

/-- Free and live blocks cut every arena into pieces, no free blocks touch, both lists of free blocks agree and the free
bytes are counted. Every live block can be freed; with many arenas it is freed in the one it came from, which is still
there. -/
theorem blocks_partition_arenas {arena : MmapArena} {handedOut : List (Nat × Nat)}
    (single : MmapArena.Reachable arena handedOut) (run : Reachable managed live) :
    (Whole arena handedOut ∧ ∀ block ∈ handedOut, ∃ after, arena.free block.1 block.2 = .ok after) ∧
      (∀ key arena, (key, arena) ∈ managed.arenas.entries → arena.address = key ∧ Whole arena (ownedBy key live)) ∧
      ∀ block ∈ live, (∃ after, managed.free block.address block.bytes = .ok after) ∧
        ∃ arena, (block.arena, arena) ∈ managed.arenas.entries ∧
          managed.arenaOf block.address block.bytes = .ok (block.arena, arena) := by
  refine ⟨⟨single.whole, ?_⟩, ?_, ?_⟩
  · intro block mem
    obtain ⟨after, done, _⟩ := free_whole single.whole mem
    exact ⟨after, done⟩
  · intro key arena mem
    obtain ⟨place, _, whole⟩ := run.sound.whole key arena mem
    exact ⟨place, whole⟩
  · intro block mem
    obtain ⟨after, done, _⟩ := free_sound run.sound mem
    exact ⟨⟨after, done⟩, arenaOf_live run.sound mem⟩

def lowest : Begin where
  first set := set.min.untopD 0
  first_mem := fun {set} nonempty => by
    obtain ⟨least, found⟩ := Finset.min_of_nonempty nonempty
    rw [found]
    exact Finset.mem_of_min found

def mapsFirst : Nat → Option Nat
  | 1048576 => some 4096
  | _ => none

theorem mapsFirst_maps : Maps mapsFirst 1048576 [] := by
  intro address found
  cases found
  exact ⟨by decide, by decide, by decide, nofun⟩

/-- Of three blocks the first two are freed, the second one into the space of the first. -/
theorem coalesced_blocks_partition : ∃ arena managed, arena.freeList.entries = [(4096, 12), (4110, 1048562)] ∧
    MmapArena.Reachable arena [(4108, 2)] ∧ Reachable managed [⟨4096, 4108, 2⟩] ∧ Whole arena [(4108, 2)] ∧
      ∃ after, managed.free 4108 2 = .ok after := by
  have single : ∃ arena, MmapArena.Reachable arena [(4108, 2)] ∧
      arena.freeList.entries = [(4096, 12), (4110, 1048562)] := by
    have first := @MmapArena.Reachable.allocated _ _ _ lowest 4096 3 (.created mapsFirst_maps rfl) rfl
    have second := @MmapArena.Reachable.allocated _ _ _ lowest 4100 5 first rfl
    have third := @MmapArena.Reachable.allocated _ _ _ lowest 4108 2 second rfl
    have fourth := @MmapArena.Reachable.freed _ _ _ 4096 3 third (by decide) rfl
    exact ⟨_, @MmapArena.Reachable.freed _ _ _ 4100 5 fourth (by decide) rfl, rfl⟩
  have many : ∃ managed, Reachable managed [⟨4096, 4108, 2⟩] := by
    have first := @Reachable.allocated _ _ _ lowest (fun _ => none) 4096 3 (.created mapsFirst_maps rfl) nofun rfl
    have second := @Reachable.allocated _ _ _ lowest (fun _ => none) 4100 5 first nofun rfl
    have third := @Reachable.allocated _ _ _ lowest (fun _ => none) 4108 2 second nofun rfl
    have fourth := @Reachable.freed _ _ _ ⟨4096, 4096, 3⟩ third (by decide) rfl
    exact ⟨_, @Reachable.freed _ _ _ ⟨4096, 4100, 5⟩ fourth (by decide) rfl⟩
  obtain ⟨arena, single, entries⟩ := single
  obtain ⟨managed, many⟩ := many
  have partition := blocks_partition_arenas single many
  exact ⟨arena, managed, entries, single, many, partition.1.1, (partition.2.2 _ (mem_singleton.mpr rfl)).1⟩

end ManagedMmapArenas

end CactusDB.Common
