import CactusDB.Library.FixedWidth
import CactusDB.Optimizer.ConvHelper
import Mathlib.Order.Interval.Finset.Nat

/-! What the chunks of a matrix hold, what the blocks gather from them, and which cells of the matrix the
copying loops reach. -/

namespace CactusDB.Optimizer.ConvBlocks

open Library Fallible Buffer FixedWidth OrderedDict ConvHelper List ImageBlock

variable {R : Type}

section

variable {blockY blockRow blockRowStart : Nat}

def pieceAt (blockY blockRow blockRowStart : Nat) (row : List R) (t : Nat) : ImageChunk R :=
  ⟨blockRow, t, slice row (t * blockY) blockY, blockY, blockRowStart⟩

structure Cut (blockY blockRow blockRowStart : Nat) (state : Chunking R) (done : List R) : Prop where
  closed : state.result = (List.range state.counter).map (pieceAt blockY blockRow blockRowStart done)
  opened : state.chunk = done.drop (state.counter * blockY)
  reached : state.counter * blockY ≤ done.length
  bounded : state.chunk.length ≤ blockY
  started : done ≠ [] → 0 < state.chunk.length

variable {done : List R} {state : Chunking R}

section

variable (cut : Cut blockY blockRow blockRowStart state done)
include cut

theorem Cut.length_chunk : done.length = state.counter * blockY + state.chunk.length := by
  have reached := cut.reached
  rw [cut.opened, length_drop]
  omega

/-- The open chunk is the next piece of the row. -/
theorem Cut.slice_opened : slice done (state.counter * blockY) blockY = state.chunk := by
  rw [slice, ← cut.opened, take_of_length_le cut.bounded]

/-- Closed chunks do not change as the row grows. -/
theorem Cut.closed_append
    (more : List R) : state.result = (List.range state.counter).map
      (pieceAt blockY blockRow blockRowStart (done ++ more)) := by
  rw [cut.closed]
  apply map_congr_left
  intro t mem
  have before : (t + 1) * blockY ≤ state.counter * blockY := Nat.mul_le_mul_right _ (mem_range.mp mem)
  have fits : t * blockY + blockY ≤ done.length := by
    rw [Nat.succ_mul] at before
    exact before.trans cut.reached
  rw [pieceAt, pieceAt, slice_append fits]

/-- Closing the open chunk adds the next piece. -/
theorem Cut.result_close :
    (state.close blockY blockRow blockRowStart).result =
      (List.range (state.counter + 1)).map (pieceAt blockY blockRow blockRowStart done) := by
  rw [range_succ, map_append, ← cut.closed, map_singleton, pieceAt, cut.slice_opened]
  rfl

end

theorem full_iff {blockY length : Nat} (bounded : length ≤ blockY) :
    0 < length ∧ length % blockY = 0 ↔ 0 < length ∧ length = blockY := by
  constructor
  · rintro ⟨positive, divides⟩
    exact ⟨positive, le_antisymm bounded (Nat.le_of_dvd positive (Nat.dvd_of_mod_eq_zero divides))⟩
  · rintro ⟨positive, rfl⟩
    exact ⟨positive, Nat.mod_self _⟩

theorem Cut.push (positive : 0 < blockY) (cut : Cut blockY blockRow blockRowStart state done) (value : R) :
    Cut blockY blockRow blockRowStart (state.push blockY blockRow blockRowStart value) (done ++ [value]) := by
  have length := cut.length_chunk
  have bounded := cut.bounded
  unfold Chunking.push
  split
  case isTrue closes =>
    have full := ((full_iff cut.bounded).mp closes).2
    have exhausted : done.length = (state.counter + 1) * blockY := by
      rw [Nat.succ_mul]
      omega
    refine ⟨?_, ?_, ?_, ?_, fun _ => Nat.succ_pos 0⟩
    · -- the chunk that is closed here is the piece after those closed before
      change state.result ++ [_] = (List.range (state.counter + 1)).map _
      rw [range_succ, map_append, ← cut.closed_append, map_singleton, pieceAt,
        slice_append (by rw [exhausted, Nat.succ_mul]), cut.slice_opened]
    · change [value] = (done ++ [value]).drop ((state.counter + 1) * blockY)
      rw [← exhausted, drop_left]
    · change (state.counter + 1) * blockY ≤ (done ++ [value]).length
      simp [exhausted]
    · exact positive
  case isFalse stays =>
    have room : state.chunk.length < blockY := by
      by_contra full
      exact stays ((full_iff cut.bounded).mpr ⟨by omega, by omega⟩)
    refine ⟨cut.closed_append [value], ?_, ?_, ?_, ?_⟩
    · change state.chunk ++ [value] = (done ++ [value]).drop (state.counter * blockY)
      rw [drop_append_of_le_length cut.reached, cut.opened]
    · change state.counter * blockY ≤ _
      rw [length_append]
      omega
    · change (state.chunk ++ [value]).length ≤ blockY
      rw [length_append]
      exact room
    · intro _
      change 0 < (state.chunk ++ [value]).length
      rw [length_append]
      exact Nat.succ_pos _

theorem cut_foldl_push (positive : 0 < blockY) (values : List R) : Cut blockY blockRow blockRowStart
      (values.foldl (Chunking.push blockY blockRow blockRowStart) ⟨[], 0, []⟩) values := by
  induction values using List.reverseRecOn with
  | nil => exact ⟨rfl, by simp, by simp, Nat.zero_le _, fun nonempty => absurd rfl nonempty⟩
  | append_singleton values value ih =>
    rw [foldl_append]
    exact ih.push positive value

theorem imgToChunks_rows [Zero R] [One R] {image : Image R} {strides kernel padding windows : Nat} {row : Nat → List R}
    (moves : 0 < strides) (counts : (image.getConv2dWindowCount kernel strides padding).toNat = windows)
    (reads : ∀ w < windows, windowValues image strides kernel padding w = .ok (row w)) :
    imgToChunks image blockY strides kernel padding =
      .ok ((List.range windows).flatMap fun w => rowToChunks blockY w (image.index * windows) (row w) 1) := by
  have each : ∀ w ∈ List.range windows, (windowValues image strides kernel padding w).map
      (rowToChunks blockY w (image.index * windows) · 1) =
        pure (rowToChunks blockY w (image.index * windows) (row w) 1) := by
    intro w inRange
    rw [reads w (mem_range.mp inRange)]
    rfl
  unfold imgToChunks
  rw [if_neg moves.ne', counts]
  dsimp only
  rw [mapM_eq_pure each]
  rfl

/-- A row that is not empty is cut into pieces of one length, the last of which may be shorter. -/
theorem rowToChunks_eq (positive : 0 < blockY) {values : List R} (nonempty : values ≠ []) (last : R) :
    rowToChunks blockY blockRow blockRowStart values last =
      (List.range (values.length / blockY + 1)).map (pieceAt blockY blockRow blockRowStart (values ++ [last])) := by
  have cut : Cut blockY blockRow blockRowStart _ values := cut_foldl_push positive values
  unfold rowToChunks
  generalize values.foldl (Chunking.push blockY blockRow blockRowStart) ⟨[], 0, []⟩ = state at cut ⊢
  -- after a value, the last one is pushed like any other
  have asPush : state.finish blockY blockRow blockRowStart last =
      ((state.push blockY blockRow blockRowStart last).close blockY blockRow blockRowStart).result := by
    unfold Chunking.finish Chunking.push
    by_cases full : state.chunk.length % blockY = 0 <;> simp [full, cut.started nonempty]
  have pushed := cut.push positive last
  have counted : values.length / blockY = (state.push blockY blockRow blockRowStart last).counter := by
    have length := pushed.length_chunk
    have bounded := pushed.bounded
    have started := pushed.started (by simp)
    rw [length_append, length_singleton] at length
    rw [Nat.div_eq_iff positive]
    omega
  rw [asPush, pushed.result_close, counted]

end

section

variable {chunks group : List (ImageChunk R)} {blockX : Nat} {block : ImageBlock R} {rows : Dict Nat (List R)}
variable {key : Nat}

theorem mem_keys_mergeRow {row : Nat × List R} :
    key ∈ (mergeRow rows row).keys ↔ key ∈ rows.keys ∨ key = row.1 := by
  unfold mergeRow
  split
  case isTrue present =>
    constructor
    · exact .inl
    · rintro (old | rfl)
      · exact old
      · exact contains_iff_mem.mp present
  case isFalse => rw [Dict.mem_keys_set, or_comm]

theorem mem_mergeRow {row entry : Nat × List R}
    (mem : entry ∈ (mergeRow rows row).entries) : entry ∈ rows.entries ∨ entry = row := by
  unfold mergeRow at mem
  split at mem
  · exact .inl mem
  · exact (Dict.mem_set.mp mem).elim .inr fun old => .inl old.2

structure Gathered (blockX : Nat) (first : ImageChunk R) (group : List (ImageChunk R)) (block : ImageBlock R) :
  Prop where
  header : block = { ofChunk blockX first with chunks := block.chunks }
  rows : ∀ row, row ∈ block.chunks.keys ↔ ∃ chunk ∈ group, chunk.getChunkActualRowIndex = row
  entries : ∀ entry ∈ block.chunks.entries, ∃ chunk ∈ group, entry = (chunk.getChunkActualRowIndex, chunk.chunk)

theorem gathered_ofChunk (blockX : Nat) (first : ImageChunk R) :
    Gathered blockX first [first] (ofChunk blockX first) := by
  refine ⟨rfl, ?_, ?_⟩
  · intro row
    change row ∈ (Dict.empty.set first.getChunkActualRowIndex first.chunk).keys ↔ _
    rw [Dict.mem_keys_set]
    simp [Dict.empty, Dict.keys, eq_comm]
  · intro entry mem
    rcases Dict.mem_set.mp mem with rfl | ⟨_, old⟩
    · exact ⟨first, mem_singleton_self first, rfl⟩
    · cases old

theorem Gathered.merge {first : ImageChunk R} (gathered : Gathered blockX first group block) (chunk : ImageChunk R) :
    Gathered blockX first (group ++ [chunk]) (block.merge (ofChunk blockX chunk)) := by
  have single : (block.merge (ofChunk blockX chunk)).chunks =
      mergeRow block.chunks (chunk.getChunkActualRowIndex, chunk.chunk) := rfl
  refine ⟨?_, ?_, ?_⟩
  · unfold ImageBlock.merge
    rw [gathered.header]
  · intro row
    rw [single, mem_keys_mergeRow, gathered.rows]
    simp only [mem_append, mem_singleton, or_and_right, exists_or, exists_eq_left]
    exact or_congr_right eq_comm
  · intro entry mem
    rw [single] at mem
    rcases mem_mergeRow mem with old | rfl
    · obtain ⟨other, inGroup, same⟩ := gathered.entries entry old
      exact ⟨other, mem_append_left _ inGroup, same⟩
    · exact ⟨chunk, mem_append_right _ (mem_singleton_self chunk), rfl⟩

theorem Gathered.foldl_merge {first : ImageChunk R} (gathered : Gathered blockX first group block)
    (more : List (ImageChunk R)) :
    Gathered blockX first (group ++ more) ((more.map (ImageBlock.ofChunk blockX)).foldl ImageBlock.merge block) := by
  induction more generalizing group block with
  | nil => simpa using gathered
  | cons chunk rest ih =>
    have next := ih (gathered.merge chunk)
    rwa [append_assoc, singleton_append] at next

def keyOf (blockX : Nat) (chunk : ImageChunk R) : Nat := (ofChunk blockX chunk).key

def groupOf (chunks : List (ImageChunk R)) (blockX key : Nat) : List (ImageChunk R) :=
  chunks.filter fun chunk => keyOf blockX chunk == key

variable {chunk : ImageChunk R}

theorem mem_groupOf : chunk ∈ groupOf chunks blockX key ↔ chunk ∈ chunks ∧ keyOf blockX chunk = key := by
  simp [groupOf]

theorem mem_blockKeys : key ∈ blockKeys (chunks.map (ofChunk blockX)) ↔
    ∃ chunk ∈ chunks, keyOf blockX chunk = key := by
  unfold blockKeys
  rw [mem_insertionSort, mem_dedup]
  simp [keyOf]

theorem chunksToBlocks_eq (chunks : List (ImageChunk R)) (blockX : Nat) : chunksToBlocks chunks blockX =
    (blockKeys (chunks.map (ofChunk blockX))).filterMap fun key =>
      mergeBlocks ((groupOf chunks blockX key).map (ofChunk blockX)) := by
  unfold chunksToBlocks groupOf
  simp only [filter_map]
  rfl

theorem gathered_of_merged (merged : mergeBlocks ((groupOf chunks blockX key).map (ofChunk blockX)) = some block) :
    ∃ first rest, groupOf chunks blockX key = first :: rest ∧ Gathered blockX first (first :: rest) block := by
  cases members : groupOf chunks blockX key with
  | nil =>
    rw [members] at merged
    cases merged
  | cons first rest =>
    rw [members] at merged
    obtain rfl := Option.some.inj merged
    exact ⟨first, rest, rfl, (gathered_ofChunk blockX first).foldl_merge rest⟩

/-- Every block gathers one group, from its first chunk on. -/
theorem gathered_of_mem (mem : block ∈ chunksToBlocks chunks blockX) : ∃ key first rest,
    groupOf chunks blockX key = first :: rest ∧ Gathered blockX first (first :: rest) block := by
  rw [chunksToBlocks_eq] at mem
  obtain ⟨key, _, merged⟩ := mem_filterMap.mp mem
  exact ⟨key, gathered_of_merged merged⟩

/-- Every chunk goes into a block. -/
theorem exists_gathered (blockX : Nat) (mem : chunk ∈ chunks) : ∃ block ∈ chunksToBlocks chunks blockX,
    ∃ first rest, groupOf chunks blockX (keyOf blockX chunk) = first :: rest ∧
      Gathered blockX first (first :: rest) block := by
  have own : chunk ∈ groupOf chunks blockX (keyOf blockX chunk) := mem_groupOf.mpr ⟨mem, rfl⟩
  obtain ⟨first, rest, members⟩ := exists_cons_of_ne_nil (ne_nil_of_mem own)
  obtain ⟨block, merged⟩ : ∃ block, mergeBlocks ((first :: rest).map (ofChunk blockX)) = some block := ⟨_, rfl⟩
  rw [← members] at merged
  refine ⟨block, ?_, gathered_of_merged merged⟩
  rw [chunksToBlocks_eq]
  exact mem_filterMap.mpr ⟨_, mem_blockKeys.mpr ⟨chunk, mem, rfl⟩, merged⟩

/-- Where a chunk belongs, by its row and its column, with what it holds. -/
def placeOf (chunk : ImageChunk R) : (Nat × Nat) × List R := ((chunk.getChunkActualRowIndex, chunk.yIndex), chunk.chunk)

def coordinates (blockX : Nat) (chunk : ImageChunk R) : Nat × Nat :=
  (chunk.getChunkActualRowIndex / blockX, chunk.yIndex)

def placesIn (block : ImageBlock R) : List ((Nat × Nat) × List R) :=
  block.chunks.entries.map fun entry => ((entry.1, block.blockYIndex), entry.2)

/-- Every chunk lies in one block, in the column of that block and at its own row, which is one of the rows
that the block spans. -/
structure Lossless (chunks : List (ImageChunk R)) (blockX : Nat) : Prop where
  places : ((chunksToBlocks chunks blockX).flatMap placesIn).Perm (chunks.map placeOf)
  rows : ∀ block ∈ chunksToBlocks chunks blockX, block.blockXSize = blockX ∧ ∀ row ∈ block.chunks.keys,
    ∃ offset < block.blockXSize, row = block.blockXIndex * block.blockXSize + offset

/-- The keys tell blocks apart. -/
def KeysApart (chunks : List (ImageChunk R)) (blockX : Nat) : Prop := ∀ one ∈ chunks, ∀ other ∈ chunks,
  keyOf blockX one = keyOf blockX other → coordinates blockX one = coordinates blockX other

/-- No two chunks lie some blocks of rows apart and 10000 times as many columns apart the other way. -/
def Separate (chunks : List (ImageChunk R)) (blockX : Nat) : Prop := ∀ one ∈ chunks, ∀ other ∈ chunks, ∀ apart,
    0 < apart →
  one.getChunkActualRowIndex / blockX + apart = other.getChunkActualRowIndex / blockX →
    one.yIndex ≠ other.yIndex + 10000 * apart

theorem keysApart_iff_separate (chunks : List (ImageChunk R)) (blockX : Nat) :
    KeysApart chunks blockX ↔ Separate chunks blockX := by
  constructor
  · intro keys one mem other also apart positive rows columns
    have same : keyOf blockX one = keyOf blockX other := by
      change _ / blockX * 10000 + one.yIndex = _ / blockX * 10000 + other.yIndex
      omega
    have equal := (Prod.mk.inj (keys one mem other also same)).1
    omega
  · intro separate one mem other also same
    change _ / blockX * 10000 + one.yIndex = _ / blockX * 10000 + other.yIndex at same
    have forward := separate one mem other also
      (other.getChunkActualRowIndex / blockX - one.getChunkActualRowIndex / blockX)
    have backward := separate other also one mem
      (one.getChunkActualRowIndex / blockX - other.getChunkActualRowIndex / blockX)
    unfold coordinates
    rw [Prod.mk.injEq]
    omega

theorem pairwise_key (chunks : List (ImageChunk R)) (blockX : Nat) :
    (chunksToBlocks chunks blockX).Pairwise fun one other => one.key ≠ other.key := by
  have keyIs {key : Nat} {block : ImageBlock R}
      (merged : mergeBlocks ((groupOf chunks blockX key).map (ofChunk blockX)) = some block) : block.key = key := by
    obtain ⟨first, rest, members, gathered⟩ := gathered_of_merged merged
    rw [gathered.header]
    exact (mem_groupOf.mp (members ▸ mem_cons_self)).2
  have distinct : (blockKeys (chunks.map (ofChunk blockX))).Nodup :=
    (perm_insertionSort _ _).nodup_iff.mpr (nodup_dedup _)
  rw [chunksToBlocks_eq, pairwise_filterMap]
  refine distinct.imp fun different one merged other also => ?_
  rwa [keyIs merged, keyIs also]

section

variable (separate : KeysApart chunks blockX)
include separate

theorem KeysApart.coordinates_eq {first : ImageChunk R} {rest : List (ImageChunk R)}
    (members : groupOf chunks blockX key = first :: rest) (gathered : Gathered blockX first (first :: rest) block)
    (mem : chunk ∈ first :: rest) : (block.blockXIndex, block.blockYIndex) = coordinates blockX chunk := by
  rw [← members] at mem
  have leads : first ∈ groupOf chunks blockX key := members ▸ mem_cons_self
  rw [mem_groupOf] at mem leads
  rw [← separate first leads.1 chunk mem.1 (leads.2.trans mem.2.symm), gathered.header]
  rfl

/-- What a block holds comes from a chunk with its coordinates. -/
theorem KeysApart.exists_chunk (mem : block ∈ chunksToBlocks chunks blockX) {entry : Nat × List R}
    (inside : entry ∈ block.chunks.entries) :
    ∃ chunk ∈ chunks, entry = (chunk.getChunkActualRowIndex, chunk.chunk) ∧
      block.blockXIndex = chunk.getChunkActualRowIndex / blockX ∧ block.blockYIndex = chunk.yIndex := by
  obtain ⟨key, first, rest, members, gathered⟩ := gathered_of_mem mem
  obtain ⟨chunk, inGroup, same⟩ := gathered.entries entry inside
  have own := Prod.mk.inj (separate.coordinates_eq members gathered inGroup)
  rw [← members, mem_groupOf] at inGroup
  exact ⟨chunk, inGroup.1, same, own⟩

theorem KeysApart.nodup_places : ((chunksToBlocks chunks blockX).flatMap placesIn).Nodup := by
  refine nodup_flatMap.mpr ⟨fun block _ => ?_, ?_⟩
  · apply Nodup.of_map fun place => place.1.1
    rw [placesIn, map_map]
    exact block.chunks.distinct
  · refine (pairwise_key chunks blockX).imp_of_mem ?_
    intro one other mem also different place inOne inOther
    obtain ⟨entry, inside, rfl⟩ := mem_map.mp inOne
    obtain ⟨again, alsoInside, same⟩ := mem_map.mp inOther
    obtain ⟨chunk, _, rfl, index, _⟩ := separate.exists_chunk mem inside
    obtain ⟨twin, _, rfl, otherIndex, _⟩ := separate.exists_chunk also alsoInside
    simp only [Prod.mk.injEq] at same
    apply different
    rw [ImageBlock.key, ImageBlock.key, index, otherIndex, same.1.1, same.1.2]

variable (distinct : (chunks.map fun chunk => (placeOf chunk).1).Nodup)
include distinct

theorem KeysApart.mem_places (place : (Nat × Nat) × List R) :
    place ∈ (chunksToBlocks chunks blockX).flatMap placesIn ↔ place ∈ chunks.map placeOf := by
  rw [mem_flatMap, mem_map]
  constructor
  · rintro ⟨block, mem, inBlock⟩
    obtain ⟨entry, inside, rfl⟩ := mem_map.mp inBlock
    obtain ⟨chunk, inChunks, rfl, _, column⟩ := separate.exists_chunk mem inside
    exact ⟨chunk, inChunks, by rw [column]; rfl⟩
  · rintro ⟨chunk, inChunks, rfl⟩
    obtain ⟨block, mem, first, rest, members, gathered⟩ := exists_gathered blockX inChunks
    have inGroup : chunk ∈ first :: rest := members ▸ mem_groupOf.mpr ⟨inChunks, rfl⟩
    have column := (Prod.mk.inj (separate.coordinates_eq members gathered inGroup)).2
    obtain ⟨entry, inside, row⟩ := mem_map.mp ((gathered.rows _).mpr ⟨chunk, inGroup, rfl⟩)
    obtain ⟨stored, also, rfl, _, same⟩ := separate.exists_chunk mem inside
    -- the row is stored for a chunk of this row and column, and there is one such chunk
    obtain rfl : stored = chunk := inj_on_of_nodup_map distinct also inChunks (Prod.ext row (same.symm.trans column))
    exact ⟨block, mem, mem_map.mpr ⟨_, inside, by rw [column]; rfl⟩⟩

theorem KeysApart.lossless (positive : 0 < blockX) : Lossless chunks blockX := by
  have once : (chunks.map placeOf).Nodup := by
    apply Nodup.of_map Prod.fst
    rwa [map_map]
  refine ⟨(perm_ext_iff_of_nodup separate.nodup_places once).mpr (separate.mem_places distinct), ?_⟩
  intro block mem
  have size : block.blockXSize = blockX := by
    obtain ⟨_, _, _, _, gathered⟩ := gathered_of_mem mem
    rw [gathered.header]
    rfl
  refine ⟨size, fun row stored => ?_⟩
  obtain ⟨entry, inside, rfl⟩ := mem_map.mp stored
  obtain ⟨chunk, _, rfl, index, _⟩ := separate.exists_chunk mem inside
  rw [size, index]
  exact ⟨_, Nat.mod_lt _ positive, (Nat.div_add_mod' ..).symm⟩

end

theorem coordinates_of_key {one other : ImageChunk R} (same : keyOf blockX one = keyOf blockX other)
    (row : one.getChunkActualRowIndex / blockX = other.getChunkActualRowIndex / blockX) :
    coordinates blockX one = coordinates blockX other := by
  change _ / blockX * 10000 + one.yIndex = _ / blockX * 10000 + other.yIndex at same
  unfold coordinates
  rw [Prod.mk.injEq]
  omega

theorem Lossless.keysApart (positive : 0 < blockX) (lossless : Lossless chunks blockX) : KeysApart chunks blockX := by
  intro one mem other also same
  obtain ⟨block, inBlocks, first, rest, members, gathered⟩ := exists_gathered blockX mem
  obtain ⟨size, rows⟩ := lossless.rows block inBlocks
  have index : ∀ chunk ∈ chunks, keyOf blockX chunk = keyOf blockX one →
      chunk.getChunkActualRowIndex / blockX = block.blockXIndex := by
    intro chunk inChunks key
    have inGroup : chunk ∈ first :: rest := members ▸ mem_groupOf.mpr ⟨inChunks, key⟩
    obtain ⟨offset, small, row⟩ := rows _ ((gathered.rows _).mpr ⟨chunk, inGroup, rfl⟩)
    rw [row, size, Nat.mul_comm, Nat.mul_add_div positive, Nat.div_eq_of_lt (size ▸ small), Nat.add_zero]
  exact coordinates_of_key same ((index one mem rfl).trans (index other also same.symm).symm)

/-- Grouping chunks at distinct positions loses nothing exactly when no two of them get one key for different
blocks, which they do not while no row has more than 10000 chunks. Rows and keys are numbers of `int`. -/
theorem chunksToBlocks_lossless_iff (positive : 0 < blockX)
    (distinct : (chunks.map fun chunk => (placeOf chunk).1).Nodup)
    (fits : ∀ chunk ∈ chunks, keyOf blockX chunk < 2 ^ 31) :
    (∀ chunk ∈ chunks, signed 32 (keyOf blockX chunk) = keyOf blockX chunk ∧
        (chunk.getChunkActualRowIndex < 2 ^ 31 →
          signed 32 chunk.getChunkActualRowIndex = chunk.getChunkActualRowIndex)) ∧
      (Lossless chunks blockX ↔ Separate chunks blockX) ∧
      ((∀ chunk ∈ chunks, chunk.yIndex < 10000) → Lossless chunks blockX) := by
  have exact : Lossless chunks blockX ↔ Separate chunks blockX := by
    rw [← keysApart_iff_separate]
    exact ⟨Lossless.keysApart positive, fun keys => keys.lossless distinct positive⟩
  refine ⟨?_, exact, ?_⟩
  · intro chunk mem
    exact ⟨signed_natCast (by decide) (fits chunk mem), fun small => signed_natCast (by decide) small⟩
  · intro small
    rw [exact]
    intro one mem other also apart positive rows columns
    have bound := small one mem
    omega

theorem chunksToBlocks_lossless_two : Lossless [⟨0, 0, [1], 1, 0⟩, ⟨0, 1, [4], 1, 0⟩, ⟨1, 0, [2], 1, 0⟩,
    ⟨2, 0, [3], 1, 0⟩] 2 :=
  (chunksToBlocks_lossless_iff (by decide) (by decide) (by decide)).2.2 (by decide)

/-- The second chunk has the coordinates 1 and 0. -/
theorem chunksToBlocks_collision :
    let chunks : List (ImageChunk Nat) := [⟨0, 10000, [1], 1, 0⟩, ⟨1, 0, [2], 1, 0⟩]
    (chunks.map fun chunk => (placeOf chunk).1).Nodup ∧
      (chunksToBlocks chunks 1).map (fun block => (block.blockXIndex, block.blockYIndex, block.chunks.entries)) =
        [(0, 10000, [(0, [1]), (1, [2])])] ∧ ¬ Lossless chunks 1 := by
  refine ⟨by decide, by decide +kernel, fun lossless => ?_⟩
  exact absurd (lossless.keysApart (by decide) _ mem_cons_self _ (mem_cons_of_mem _ mem_cons_self) rfl) (by decide)

end

variable {chunks : List (ImageChunk R)} {count width blockX blockY : Nat} {rows : Nat → List R}
  {block : ImageBlock R}

structure Chunked (chunks : List (ImageChunk R)) (count width blockY : Nat) (rows : Nat → List R) : Prop where
  positive : 0 < blockY
  even : ∀ n < count, (rows n).length = width
  cut : ∀ chunk ∈ chunks, chunk.getChunkActualRowIndex < count ∧ chunk.yIndex * blockY < width ∧
    chunk.ySize = blockY ∧ chunk.chunk = slice (rows chunk.getChunkActualRowIndex) (chunk.yIndex * blockY) blockY
  all : ∀ n < count, ∀ t, t * blockY < width → ∃ chunk ∈ chunks, chunk.getChunkActualRowIndex = n ∧ chunk.yIndex = t
  ordered : chunks.Pairwise fun first second => first.getChunkActualRowIndex ≤ second.getChunkActualRowIndex

theorem chunked_flatMap (positive : 0 < blockY) (wide : 0 < width) {blockRow blockRowStart : Nat → Nat}
    (numbered : ∀ n < count, blockRowStart n + blockRow n = n) {values : Nat → List R}
    (sized : ∀ n < count, (values n).length = width) (last : R) :
    Chunked ((List.range count).flatMap fun n => rowToChunks blockY (blockRow n) (blockRowStart n) (values n) last)
      count (width + 1) blockY fun n => values n ++ [last] := by
  have cutRow : ∀ n < count, rowToChunks blockY (blockRow n) (blockRowStart n) (values n) last =
      (List.range (width / blockY + 1)).map (pieceAt blockY (blockRow n) (blockRowStart n) (values n ++ [last])) := by
    intro n inside
    rw [rowToChunks_eq positive (ne_nil_of_length_pos (by rw [sized n inside]; exact wide)), sized n inside]
  have begins : ∀ t, t < width / blockY + 1 ↔ t * blockY < width + 1 := by
    intro t
    rw [Nat.lt_succ_iff, Nat.lt_succ_iff, Nat.le_div_iff_mul_le positive]
  have rowIs : ∀ n < count, ∀ chunk ∈ rowToChunks blockY (blockRow n) (blockRowStart n) (values n) last,
      chunk.getChunkActualRowIndex = n := by
    intro n inside chunk mem
    rw [cutRow n inside] at mem
    obtain ⟨t, _, rfl⟩ := mem_map.mp mem
    exact numbered n inside
  refine ⟨positive, ?_, ?_, ?_, ?_⟩
  · intro n inside
    simp [sized n inside]
  · intro chunk mem
    obtain ⟨n, inRange, inRow⟩ := mem_flatMap.mp mem
    have inside := mem_range.mp inRange
    have row := rowIs n inside chunk inRow
    rw [cutRow n inside] at inRow
    obtain ⟨t, early, rfl⟩ := mem_map.mp inRow
    rw [row]
    exact ⟨inside, (begins t).mp (mem_range.mp early), rfl, rfl⟩
  · intro n inside t early
    have mem : pieceAt blockY (blockRow n) (blockRowStart n) (values n ++ [last]) t ∈
        rowToChunks blockY (blockRow n) (blockRowStart n) (values n) last := by
      rw [cutRow n inside]
      exact mem_map_of_mem (mem_range.mpr ((begins t).mpr early))
    exact ⟨_, mem_flatMap.mpr ⟨n, mem_range.mpr inside, mem⟩, rowIs n inside _ mem, rfl⟩
  · refine pairwise_flatMap.mpr ⟨?_, ?_⟩
    · intro n inRange
      refine pairwise_of_forall_mem_list fun first inFirst second inSecond => ?_
      have inside := mem_range.mp inRange
      rw [rowIs n inside first inFirst, rowIs n inside second inSecond]
    · refine pairwise_lt_range.imp_of_mem fun {n next} inRange nextInRange before first inFirst second inSecond => ?_
      rw [rowIs n (mem_range.mp inRange) first inFirst, rowIs next (mem_range.mp nextInRange) second inSecond]
      exact before.le

theorem getActualBlockSize_eq (block : ImageBlock R) :
    block.getActualBlockSize = block.chunks.keys.toFinset.card := by
  have distinct : block.chunks.keys.Nodup := block.chunks.distinct
  rw [getActualBlockSize, Dict.length_eq, toFinset_card_of_nodup distinct]

theorem getActualBlockSize_le {places : Finset Nat} (within : ∀ row ∈ block.chunks.keys, row ∈ places) :
    block.getActualBlockSize ≤ places.card := by
  rw [getActualBlockSize_eq]
  exact Finset.card_le_card fun row mem => within row (mem_toFinset.mp mem)

structure Strip (count width blockY : Nat) (rows : Nat → List R) (block : ImageBlock R) : Prop where
  xIndex : block.blockXIndex = 0
  ySize : block.blockYSize = blockY
  inside : block.blockYIndex * blockY < width
  size : block.getActualBlockSize = count
  features : block.featureCount = min blockY (width - block.blockYIndex * blockY)
  row : ∀ n < count, block.chunks.get? n = some (slice (rows n) (block.blockYIndex * blockY) blockY)

/-- The rows of the first block of rows are grouped by their position in the row only. -/
theorem keyOf_few {chunk : ImageChunk R} (few : chunk.getChunkActualRowIndex < blockX) :
    keyOf blockX chunk = chunk.yIndex := by
  simp [keyOf, key, ofChunk, Nat.div_eq_of_lt few]

section

variable (chunked : Chunked chunks count width blockY rows)
include chunked

theorem Chunked.strip_of_gathered (few : count ≤ blockX)
    {key : Nat} {first : ImageChunk R} {rest : List (ImageChunk R)}
    (group : groupOf chunks blockX key = first :: rest) (gathered : Gathered blockX first (first :: rest) block) :
    Strip count width blockY rows block ∧ block.blockYIndex = key := by
  have keyIs : ∀ chunk ∈ chunks, keyOf blockX chunk = chunk.yIndex := by
    intro chunk mem
    exact keyOf_few ((chunked.cut chunk mem).1.trans_le few)
  have mine : ∀ chunk ∈ first :: rest, chunk ∈ chunks ∧ chunk.yIndex = key := by
    intro chunk mem
    rw [← group, mem_groupOf] at mem
    exact ⟨mem.1, keyIs chunk mem.1 ▸ mem.2⟩
  obtain ⟨firstIn, firstAt⟩ := mine first mem_cons_self
  obtain ⟨firstRow, begins, ySize, cutFirst⟩ := chunked.cut first firstIn
  have yIndex : block.blockYIndex = key := by
    rw [gathered.header]
    exact firstAt
  have rowsOf : ∀ n, n ∈ block.chunks.keys ↔ n < count := by
    intro n
    rw [gathered.rows]
    constructor
    · rintro ⟨chunk, mem, rfl⟩
      exact (chunked.cut chunk (mine chunk mem).1).1
    · intro inside
      obtain ⟨chunk, mem, row, position⟩ := chunked.all n inside key (firstAt ▸ begins)
      refine ⟨chunk, ?_, row⟩
      rw [← group, mem_groupOf]
      exact ⟨mem, (keyIs chunk mem).trans position⟩
  refine ⟨⟨?_, ?_, ?_, ?_, ?_, ?_⟩, yIndex⟩
  · rw [gathered.header]
    exact Nat.div_eq_of_lt (firstRow.trans_le few)
  · rw [gathered.header]
    exact ySize
  · rwa [yIndex, ← firstAt]
  · have same : block.chunks.keys.toFinset = Finset.range count := by
      ext n
      rw [mem_toFinset, rowsOf, Finset.mem_range]
    rw [getActualBlockSize_eq, same, Finset.card_range]
  · have features : block.featureCount = first.chunk.length := by rw [gathered.header]; rfl
    rw [features, cutFirst, slice, length_take, length_drop, chunked.even _ firstRow, yIndex, firstAt]
  · intro n inside
    obtain ⟨values, entry⟩ := Dict.mem_keys_iff.mp ((rowsOf n).mpr inside)
    obtain ⟨chunk, mem, same⟩ := gathered.entries _ entry
    obtain ⟨rfl, rfl⟩ := Prod.mk.inj same
    obtain ⟨inChunks, position⟩ := mine chunk mem
    rw [Dict.get?_eq_some, yIndex, ← position, ← (chunked.cut chunk inChunks).2.2.2]
    exact entry

/-- With no more rows than one block takes, every block is a strip. -/
theorem Chunked.strip_of_mem (few : count ≤ blockX)
    (mem : block ∈ chunksToBlocks chunks blockX) : Strip count width blockY rows block := by
  obtain ⟨key, first, rest, group, gathered⟩ := gathered_of_mem mem
  exact (chunked.strip_of_gathered few group gathered).1

theorem Chunked.exists_strip (few : count ≤ blockX) (some : 0 < count) {t : Nat} (inside : t * blockY < width) :
    ∃ block ∈ chunksToBlocks chunks blockX, block.blockYIndex = t := by
  obtain ⟨chunk, mem, row, position⟩ := chunked.all 0 some t inside
  obtain ⟨block, inBlocks, first, rest, group, gathered⟩ := exists_gathered blockX mem
  have key : keyOf blockX chunk = chunk.yIndex := keyOf_few (by rw [row]; exact some.trans_le few)
  exact ⟨block, inBlocks, by rw [(chunked.strip_of_gathered few group gathered).2, key, position]⟩

end

variable {cell : Cell R}

theorem mem_cellsOf {total : Nat} : cell ∈ cellsOf blockX blockY false total block ↔
    cell.block = block ∧ cell.x < block.getActualBlockSize ∧
      cell.y < min blockY (total - block.blockYIndex * blockY) := by
  obtain ⟨owner, x, y⟩ := cell
  simp only [cellsOf, Bool.false_eq_true, if_false, mem_flatMap, mem_range, mem_map, Cell.mk.injEq]
  constructor
  · rintro ⟨_, row, _, column, rfl, rfl, rfl⟩
    exact ⟨rfl, row, column⟩
  · rintro ⟨rfl, row, column⟩
    exact ⟨x, row, y, column, rfl, rfl, rfl⟩

variable [Zero R] {position : Nat → Nat → Nat} {data after : List (Option R)}

def columnOf (blockY : Nat) (cell : Cell R) : Nat := cell.y + cell.block.blockYIndex * blockY

omit [Zero R] in
theorem columnOf_lt (column : cell.y < min blockY (width - cell.block.blockYIndex * blockY)) :
    columnOf blockY cell < width := by
  unfold columnOf
  omega

/-- A round writes the value of its row and column into its place. -/
theorem Strip.write_eq (strip : Strip count width blockY rows cell.block)
    (even : (rows cell.x).length = width) (row : cell.x < count)
    (column : cell.y < min blockY (width - cell.block.blockYIndex * blockY)) :
    cell.write position =
      .ok (position cell.x (columnOf blockY cell), (rows cell.x)[columnOf blockY cell]?) := by
  have inside : columnOf blockY cell < (rows cell.x).length := even ▸ columnOf_lt column
  have read : (slice (rows cell.x) (cell.block.blockYIndex * blockY) blockY)[cell.y]? =
      some (rows cell.x)[columnOf blockY cell] := by
    rw [getElem?_slice, if_pos (by omega), ← getElem?_eq_getElem inside, columnOf, Nat.add_comm]
  have value : cell.value = .ok (rows cell.x)[columnOf blockY cell] := by
    rw [Cell.value, if_neg (by rw [strip.size, strip.features]; omega)]
    dsimp only
    rw [strip.xIndex, Nat.zero_mul, Nat.zero_add, strip.row cell.x row, Option.bind_some, read]
    rfl
  rw [Cell.write, value, strip.ySize, getElem?_eq_getElem inside]
  rfl

section

variable (chunked : Chunked chunks count width blockY rows)
include chunked

/-- With no more rows than one block takes, every cell of the matrix gets its value. -/
theorem Chunked.copyBlocks_few (few : count ≤ blockX) (position : Nat → Nat → Nat) (data : List (Option R))
    (inside : ∀ n < count, ∀ f < width, position n f < data.length)
    (separate : ∀ n < count, ∀ f < width, ∀ n' < count, ∀ f' < width, position n f = position n' f' → n = n' ∧ f = f') :
    ∃ after, copyBlocks (chunksToBlocks chunks blockX) blockX blockY false width position data = .ok after ∧
      ∀ n < count, ∀ f < width, after[position n f]? = some (rows n)[f]? := by
  let cells := (chunksToBlocks chunks blockX).flatMap (cellsOf blockX blockY false width)
  let writeOf := fun cell : Cell R => (position cell.x (columnOf blockY cell), (rows cell.x)[columnOf blockY cell]?)
  have cellIn : ∀ cell ∈ cells, Strip count width blockY rows cell.block ∧ cell.x < count ∧
      cell.y < min blockY (width - cell.block.blockYIndex * blockY) := by
    intro cell mem
    obtain ⟨block, inBlocks, inBlock⟩ := mem_flatMap.mp mem
    obtain ⟨rfl, row, column⟩ := mem_cellsOf.mp inBlock
    have strip := chunked.strip_of_mem few inBlocks
    exact ⟨strip, strip.size ▸ row, column⟩
  have computed : cells.mapM (Cell.write position) = .ok (cells.map writeOf) := by
    apply mapM_eq_pure
    intro cell mem
    obtain ⟨strip, row, column⟩ := cellIn cell mem
    exact strip.write_eq (chunked.even cell.x row) row column
  have writesIn : ∀ done ∈ cells.map writeOf, done.1 < data.length := by
    intro done mem
    obtain ⟨cell, inCells, rfl⟩ := mem_map.mp mem
    obtain ⟨_, row, column⟩ := cellIn cell inCells
    exact inside cell.x row _ (columnOf_lt column)
  refine ⟨setAll data (cells.map writeOf),
    (foldlM_store_iff _ _ _ _ _).mpr ⟨cells.map writeOf, computed, writesIn, rfl⟩, ?_⟩
  intro n row f column
  apply getElem?_setAll_of_agree _ _ (inside n row f column)
  · -- the round in the strip of this column
    have begins : f / blockY * blockY < width := (Nat.div_mul_le_self f blockY).trans_lt column
    obtain ⟨block, inBlocks, position⟩ := chunked.exists_strip few (Nat.zero_lt_of_lt row) begins
    have strip := chunked.strip_of_mem few inBlocks
    have recombined := Nat.mod_add_div' f blockY
    have short := Nat.mod_lt f chunked.positive
    refine ⟨writeOf ⟨block, n, f % blockY⟩, mem_map_of_mem (mem_flatMap.mpr ⟨block, inBlocks, ?_⟩), ?_⟩
    · refine mem_cellsOf.mpr ⟨rfl, by rwa [strip.size], ?_⟩
      rw [position]
      dsimp only
      omega
    · simp only [writeOf, columnOf, position, recombined]
  · intro done mem same
    obtain ⟨cell, inCells, rfl⟩ := mem_map.mp mem
    obtain ⟨_, cellRow, cellColumn⟩ := cellIn cell inCells
    obtain ⟨sameRow, sameColumn⟩ := separate cell.x cellRow _ (columnOf_lt cellColumn) n row f column same
    simp only [writeOf, sameRow, sameColumn]

omit [Zero R] in
/-- A block that begins at the first column holds rows of one block of rows only: a row of an earlier one
would have come first. -/
theorem Chunked.size_le (positive : 0 < blockX)
    (mem : block ∈ chunksToBlocks chunks blockX) (leftmost : block.blockYIndex = 0) :
    block.getActualBlockSize ≤ blockX := by
  obtain ⟨key, first, rest, group, gathered⟩ := gathered_of_mem mem
  have firstAt : first.yIndex = 0 := by
    rw [gathered.header] at leftmost
    exact leftmost
  have keyIs : ∀ chunk ∈ first :: rest,
      chunk.getChunkActualRowIndex / blockX * 10000 + chunk.yIndex = key := by
    intro chunk inGroup
    rw [← group] at inGroup
    exact (mem_groupOf.mp inGroup).2
  have firstKey := keyIs first mem_cons_self
  have orderedGroup : (first :: rest).Pairwise fun one two =>
      one.getChunkActualRowIndex ≤ two.getChunkActualRowIndex := group ▸ chunked.ordered.filter _
  have sameBlock : ∀ chunk ∈ first :: rest,
      chunk.getChunkActualRowIndex / blockX = first.getChunkActualRowIndex / blockX := by
    intro chunk inGroup
    have chunkKey := keyIs chunk inGroup
    have later : first.getChunkActualRowIndex / blockX ≤ chunk.getChunkActualRowIndex / blockX := by
      cases inGroup with
      | head => exact le_rfl
      | tail _ behind => exact Nat.div_le_div_right (rel_of_pairwise_cons orderedGroup behind)
    omega
  have within : ∀ row ∈ block.chunks.keys, row ∈ Finset.Ico (first.getChunkActualRowIndex / blockX * blockX)
      (first.getChunkActualRowIndex / blockX * blockX + blockX) := by
    intro row inKeys
    obtain ⟨chunk, inGroup, rfl⟩ := (gathered.rows row).mp inKeys
    rw [Finset.mem_Ico, ← sameBlock chunk inGroup]
    exact ⟨Nat.div_mul_le_self _ _, Nat.lt_div_mul_add positive⟩
  have bound := getActualBlockSize_le within
  rwa [Nat.card_Ico, Nat.add_sub_cancel_left] at bound

omit [Zero R] in
theorem Chunked.size_le_count (mem : block ∈ chunksToBlocks chunks blockX) : block.getActualBlockSize ≤ count := by
  obtain ⟨key, first, rest, group, gathered⟩ := gathered_of_mem mem
  have within : ∀ row ∈ block.chunks.keys, row ∈ Finset.range count := by
    intro row inKeys
    obtain ⟨chunk, inGroup, rfl⟩ := (gathered.rows row).mp inKeys
    rw [← group] at inGroup
    exact Finset.mem_range.mpr (chunked.cut chunk (mem_groupOf.mp inGroup).1).1
  exact (getActualBlockSize_le within).trans_eq (Finset.card_range count)

end

theorem place_of_write {write : Nat × Option R} (done : cell.write position = .ok write) :
    write.1 = position cell.x (cell.y + cell.block.blockYIndex * cell.block.blockYSize) := by
  obtain ⟨value, _, same⟩ := exists_of_bind_ok done
  cases same
  rfl

omit [Zero R] in
theorem Chunked.ySize_eq (chunked : Chunked chunks count width blockY rows)
    (mem : block ∈ chunksToBlocks chunks blockX) : block.blockYSize = blockY := by
  obtain ⟨key, first, rest, group, gathered⟩ := gathered_of_mem mem
  have inGroup : first ∈ groupOf chunks blockX key := group ▸ mem_cons_self
  rw [gathered.header]
  exact (chunked.cut first (mem_groupOf.mp inGroup).1).2.2.1

/-- The row after the first block of rows is never written: the loops count rows inside their block. -/
theorem Chunked.copyBlocks_skips (chunked : Chunked chunks count width blockY rows) (positive : 0 < blockX)
    (separate : ∀ n < count, ∀ f < width, position n f = position blockX 0 → n = blockX ∧ f = 0)
    (done : copyBlocks (chunksToBlocks chunks blockX) blockX blockY false width position data = .ok after) :
    after[position blockX 0]? = data[position blockX 0]? := by
  obtain ⟨writes, computed, _, rfl⟩ := (foldlM_store_iff _ _ _ _ _).mp done
  apply getElem?_setAll_of_untouched
  intro write mem same
  obtain ⟨cell, inCells, wrote⟩ := exists_of_mem_mapM computed mem
  obtain ⟨block, inBlocks, inBlock⟩ := mem_flatMap.mp inCells
  obtain ⟨rfl, row, column⟩ := mem_cellsOf.mp inBlock
  rw [place_of_write wrote, chunked.ySize_eq inBlocks] at same
  obtain ⟨outside, leftmost⟩ := separate cell.x (row.trans_le (chunked.size_le_count inBlocks)) _
    (columnOf_lt column) same
  have first : cell.block.blockYIndex = 0 := by
    have multiple : cell.block.blockYIndex * blockY = 0 := by
      unfold columnOf at leftmost
      omega
    exact (Nat.mul_eq_zero.mp multiple).resolve_right chunked.positive.ne'
  have bounded := chunked.size_le positive inBlocks first
  omega

end CactusDB.Optimizer.ConvBlocks
