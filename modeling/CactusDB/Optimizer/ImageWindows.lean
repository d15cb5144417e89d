import CactusDB.Optimizer.ConvLowering

/-! The chunks that `img_to_chunks` makes for the windows of one image. -/

namespace CactusDB.Optimizer.ImageWindows
open Library Fallible Buffer FixedWidth ConvHelper ConvBlocks ConvLowering List

variable {R : Type}

section

variable (image : Image R) (kernel stride padding : Nat)

/-- How often the kernel slides to the right, and down. The division truncates. -/
def across : Int := ((image.y : Int) + padding * 2 - kernel).tdiv stride + 1

def down : Int := ((image.x : Int) + padding * 2 - kernel).tdiv stride + 1

def windowCount : Int := across image kernel stride padding * down image kernel stride padding

/-- The row and the column of the image under a tap, from the padding on negative. -/
def placeOf (window : Nat) (tap : Tap) : Int × Int :=
  ((window : Int).tdiv (across image kernel stride padding) * stride + tap.i - padding,
    (window : Int).tmod (across image kernel stride padding) * stride + tap.j - padding)

def Inside (place : Int × Int) : Prop :=
  0 ≤ place.1 ∧ place.1 < image.x ∧ 0 ≤ place.2 ∧ place.2 < image.y

instance (place : Int × Int) : Decidable (Inside image place) := by
  unfold Inside
  infer_instance

/-- The image is asked for a value, unless the place is in the padding. -/
def Accessed (place : Int × Int) : Prop := padding = 0 ∨ Inside image place

variable [Zero R]

def paddedAt (channel : Nat) (place : Int × Int) : R :=
  if Inside image place then valueAt image channel place.1.toNat place.2.toNat else 0

def windowRow (window : Nat) : List R :=
  (taps image.z kernel).map fun tap => paddedAt image tap.channel (placeOf image kernel stride padding window tap)

def chunksOf (result : List (ImageChunk R)) (window : Nat) : List (ImageChunk R) :=
  result.filter (·.blockRow == window)

structure Lossless [One R] (blockY : Nat) (result : List (ImageChunk R)) : Prop where
  values : ∀ window : Nat, window < windowCount image kernel stride padding →
    (chunksOf result window).flatMap ImageChunk.chunk = windowRow image kernel stride padding window ++ [1]
  widths : ∀ window : Nat, window < windowCount image kernel stride padding →
    ∀ chunk ∈ (chunksOf result window).dropLast, chunk.chunk.length = blockY
  inside : ∀ window : Nat, window < windowCount image kernel stride padding →
    ∀ tap ∈ taps image.z kernel, Accessed image padding (placeOf image kernel stride padding window tap) →
      Inside image (placeOf image kernel stride padding window tap)

omit [Zero R] in
/-- A window has a value, is not larger than an image without padding, and is counted by an `int`. -/
structure Slides : Prop where
  moves : 0 < stride
  someTap : 0 < kernel
  someChannel : 0 < image.z
  fits : 0 < padding ∨ kernel ≤ image.x ∧ kernel ≤ image.y
  countable : windowCount image kernel stride padding < 2 ^ 31

end

theorem flatMap_slices (row : List R) (width count : Nat) :
    (range count).flatMap (fun t => slice row (t * width) width) = row.take (count * width) := by
  induction count with
  | zero => simp
  | succ count ih =>
    rw [range_succ, flatMap_append, ih, flatMap_singleton, slice, Nat.succ_mul, take_add]

section

variable {blockY blockRow blockRowStart : Nat} (wide : 0 < blockY) {values : List R} (nonempty : values ≠ [])
include wide nonempty

theorem flatMap_chunk_rowToChunks (last : R) :
    (rowToChunks blockY blockRow blockRowStart values last).flatMap ImageChunk.chunk = values ++ [last] := by
  rw [rowToChunks_eq wide nonempty, flatMap_map]
  refine (flatMap_slices (values ++ [last]) blockY _).trans (take_of_length_le ?_)
  have covered := Nat.lt_mul_div_succ values.length wide
  rw [length_append, length_singleton, Nat.mul_comm]
  exact covered

theorem length_chunk_of_mem_dropLast {last : R} {chunk : ImageChunk R}
    (mem : chunk ∈ (rowToChunks blockY blockRow blockRowStart values last).dropLast) : chunk.chunk.length = blockY := by
  rw [rowToChunks_eq wide nonempty, range_succ, map_append, map_singleton, dropLast_concat] at mem
  obtain ⟨t, inRange, rfl⟩ := mem_map.mp mem
  apply length_slice
  have before := Nat.mul_le_of_le_div _ _ _ (mem_range.mp inRange)
  rw [Nat.succ_mul] at before
  rw [length_append]
  omega

end

theorem rowToChunks_nil (blockY blockRow blockRowStart : Nat) (last : R) :
    rowToChunks blockY blockRow blockRowStart [] last =
      [⟨blockRow, 0, [], blockY, blockRowStart⟩, ⟨blockRow, 1, [last], blockY, blockRowStart⟩] := by
  simp [rowToChunks, Chunking.finish, Chunking.close, Chunking.append]

theorem blockRow_rowToChunks {blockY blockRow blockRowStart : Nat} (wide : 0 < blockY) {values : List R} {last : R}
    {chunk : ImageChunk R} (mem : chunk ∈ rowToChunks blockY blockRow blockRowStart values last) :
    chunk.blockRow = blockRow := by
  by_cases empty : values = []
  · subst empty
    rw [rowToChunks_nil] at mem
    rcases mem_pair.mp mem with rfl | rfl <;> rfl
  · rw [rowToChunks_eq wide empty] at mem
    obtain ⟨t, _, rfl⟩ := mem_map.mp mem
    rfl

/-- Where the chunks of each window know their window, they are found by it. -/
theorem chunksOf_flatMap {count window : Nat} {made : Nat → List (ImageChunk R)}
    (known : ∀ w, ∀ chunk ∈ made w, chunk.blockRow = w) (inside : window < count) :
    chunksOf ((range count).flatMap made) window = made window := by
  have own : (made window).filter (·.blockRow == window) = made window :=
    filter_eq_self.mpr fun chunk mem => beq_iff_eq.mpr (known window chunk mem)
  have others : ∀ w, w ≠ window → (made w).filter (·.blockRow == window) = [] := fun w other =>
    filter_eq_nil_iff.mpr fun chunk mem same => other ((known w chunk mem).symm.trans (beq_iff_eq.mp same))
  have found : ∀ count, (range count).flatMap (fun w => (made w).filter (·.blockRow == window)) =
      if window < count then made window else [] := by
    intro count
    induction count with
    | zero => rfl
    | succ count ih =>
      rw [range_succ, flatMap_append, ih, flatMap_singleton]
      rcases Nat.lt_trichotomy window count with less | rfl | more
      · rw [if_pos less, if_pos (by omega), others count (by omega), append_nil]
      · rw [if_neg (Nat.lt_irrefl window), if_pos (Nat.lt_succ_self window), own, nil_append]
      · rw [if_neg (by omega), if_neg (by omega), others count (by omega), append_nil]
  rw [chunksOf, filter_flatMap, found, if_pos inside]

section

variable {image : Image R} {kernel stride padding window : Nat}

theorem getHSlides_across (width : image.y + padding * 2 < 2 ^ 31) :
    image.getHSlides padding kernel stride = across image kernel stride padding := by
  rw [Image.getHSlides, Image.getY, signed_padded width]
  rfl

theorem getConv2dWindowCount_signed (height : image.x + padding * 2 < 2 ^ 31) (width : image.y + padding * 2 < 2 ^ 31) :
    image.getConv2dWindowCount kernel stride padding = signed 32 (windowCount image kernel stride padding) := by
  rw [Image.getConv2dWindowCount, getHSlides_across width, Image.getVSlides, Image.getX, signed_padded height]
  rfl

/-- Without padding, a window of a kernel that fits stays inside the image. -/
theorem Slides.inside (slides : Slides image kernel stride padding)
    (counted : (window : Int) < windowCount image kernel stride padding) {tap : Tap}
      (inTaps : tap ∈ taps image.z kernel)
    (accessed : Accessed image padding (placeOf image kernel stride padding window tap)) :
    Inside image (placeOf image kernel stride padding window tap) := by
  rcases accessed with rfl | inside
  · obtain ⟨_, inRows, inColumns⟩ := mem_taps.mp inTaps
    obtain ⟨fitsHeight, fitsWidth⟩ := slides.fits.resolve_left (Nat.lt_irrefl 0)
    have right : across image kernel stride 0 = ((image.y - kernel) / stride + 1 : Nat) := slides_eq 0 fitsWidth
    have below : down image kernel stride 0 = ((image.x - kernel) / stride + 1 : Nat) := slides_eq 0 fitsHeight
    rw [windowCount, right, below, ← Nat.cast_mul, Nat.cast_lt] at counted
    have row := slide_lt fitsHeight (Nat.div_lt_of_lt_mul counted) inRows
    have column := slide_lt fitsWidth (Nat.mod_lt window (Nat.succ_pos ((image.y - kernel) / stride))) inColumns
    unfold Inside placeOf
    rw [right, ← Int.ofNat_tdiv, ← Int.ofNat_tmod]
    dsimp only
    rw [← Nat.cast_mul, ← Nat.cast_mul, ← Nat.cast_add, ← Nat.cast_add, Nat.cast_zero, Int.sub_zero, Int.sub_zero]
    exact ⟨Int.natCast_nonneg _, Nat.cast_lt.mpr row, Int.natCast_nonneg _, Nat.cast_lt.mpr column⟩
  · exact inside

variable [Zero R]

theorem getWinValue_padded (width : image.y + padding * 2 < 2 ^ 31) (addressable : image.x * image.y < 2 ^ 31)
    {tap : Tap} (inTaps : tap ∈ taps image.z kernel)
    (safe : Accessed image padding (placeOf image kernel stride padding window tap) →
      Inside image (placeOf image kernel stride padding window tap)) :
    image.getWinValue window tap.i tap.j stride tap.channel kernel padding =
      .ok (paddedAt image tap.channel (placeOf image kernel stride padding window tap)) := by
  obtain ⟨place, named⟩ : ∃ place, placeOf image kernel stride padding window tap = place := ⟨_, rfl⟩
  have body : image.getWinValue window tap.i tap.j stride tap.channel kernel padding =
      if 0 < padding ∧ (place.1 < 0 ∨ place.2 < 0 ∨ image.x ≤ place.1 ∨ image.y ≤ place.2) then .ok 0
      else image.read tap.channel (signed 32 (place.1 * image.y + place.2)) := by
    rw [← named, Image.getWinValue, getHSlides_across width]
    rfl
  rw [named] at safe ⊢
  by_cases within : Inside image place
  · rw [body, paddedAt, if_pos within]
    obtain ⟨top, bottom, left, right⟩ := within
    have read := read_eq image addressable (mem_taps.mp inTaps).1 ((Int.toNat_lt top).mpr bottom)
      ((Int.toNat_lt left).mpr right)
    rw [Int.toNat_of_nonneg top, Int.toNat_of_nonneg left] at read
    rw [if_neg, read]
    rintro ⟨_, outside⟩
    omega
  · have padded : 0 < padding := Nat.pos_of_ne_zero fun none => within (safe (.inl none))
    rw [body, paddedAt, if_neg within, if_pos]
    unfold Inside at within
    exact ⟨padded, by omega⟩

variable [One R] {blockY : Nat} {result : List (ImageChunk R)}

theorem moves_of_ok (made : imgToChunks image blockY stride kernel padding = .ok result) : 0 < stride := by
  rw [Nat.pos_iff_ne_zero]
  rintro rfl
  cases made

/-- No chunk is made for a window that is not counted. -/
theorem blockRow_lt (wide : 0 < blockY) (made : imgToChunks image blockY stride kernel padding = .ok result)
    {chunk : ImageChunk R} (mem : chunk ∈ result) :
    chunk.blockRow < (image.getConv2dWindowCount kernel stride padding).toNat := by
  unfold imgToChunks at made
  rw [if_neg (moves_of_ok made).ne'] at made
  obtain ⟨rows, loop, flat⟩ := exists_of_bind_ok made
  rw [← Except.ok.inj flat] at mem
  obtain ⟨row, inRows, inRow⟩ := mem_flatten.mp mem
  obtain ⟨window, inRange, cut⟩ := exists_of_mem_mapM loop inRows
  obtain ⟨values, _, rfl⟩ := exists_of_map_ok cut
  rw [blockRow_rowToChunks wide inRow]
  exact mem_range.mp inRange

end

section

variable [Zero R] [One R] {image : Image R} {kernel stride padding blockY : Nat} (wide : 0 < blockY)
  (height : image.x + padding * 2 < 2 ^ 31) (width : image.y + padding * 2 < 2 ^ 31)
include wide height width

theorem Slides.lossless (slides : Slides image kernel stride padding) (addressable : image.x * image.y < 2 ^ 31)
    (counted : 0 < windowCount image kernel stride padding) :
    ∃ result, imgToChunks image blockY stride kernel padding = .ok result ∧
      Lossless image kernel stride padding blockY result := by
  obtain ⟨count, counts⟩ : ∃ count : Nat, windowCount image kernel stride padding = count :=
    ⟨_, (Int.toNat_of_nonneg counted.le).symm⟩
  have small : count < 2 ^ 31 := by
    have countable := slides.countable
    rw [counts] at countable
    exact_mod_cast countable
  have found : (image.getConv2dWindowCount kernel stride padding).toNat = count := by
    rw [getConv2dWindowCount_signed height width, counts, signed_natCast (by decide) small, Int.toNat_natCast]
  have nonempty : ∀ window, windowRow image kernel stride padding window ≠ [] := fun window =>
    map_eq_nil_iff.not.mpr (ne_nil_of_mem (mem_taps.mpr ⟨slides.someChannel, slides.someTap, slides.someTap⟩ :
      (⟨0, 0, 0⟩ : Tap) ∈ taps image.z kernel))
  have inside : ∀ window < count, (window : Int) < windowCount image kernel stride padding := fun window before => by
    rw [counts]
    exact_mod_cast before
  have reads : ∀ window < count,
      windowValues image stride kernel padding window = .ok (windowRow image kernel stride padding window) :=
    fun window before => mapM_eq_pure fun tap inTaps =>
      getWinValue_padded width addressable inTaps (slides.inside (inside window before) inTaps)
  have chunks : ∀ window : Nat, window < windowCount image kernel stride padding →
      chunksOf ((range count).flatMap fun window =>
        rowToChunks blockY window (image.index * count) (windowRow image kernel stride padding window) 1) window =
      rowToChunks blockY window (image.index * count) (windowRow image kernel stride padding window) 1 := by
    intro window before
    rw [counts, Nat.cast_lt] at before
    exact chunksOf_flatMap (fun _ _ => blockRow_rowToChunks wide) before
  refine ⟨_, imgToChunks_rows slides.moves found reads, fun window before => ?_, fun window before chunk mem => ?_,
    fun window before tap inTaps => slides.inside before inTaps⟩
  · rw [chunks window before]
    exact flatMap_chunk_rowToChunks wide (nonempty window) 1
  · rw [chunks window before] at mem
    exact length_chunk_of_mem_dropLast wide (nonempty window) mem

theorem countable_of_lossless {result : List (ImageChunk R)}
    (made : imgToChunks image blockY stride kernel padding = .ok result)
    (lossless : Lossless image kernel stride padding blockY result) :
      windowCount image kernel stride padding < 2 ^ 31 := by
  by_contra large
  -- the first window behind those that are counted
  have behind : ((image.getConv2dWindowCount kernel stride padding).toNat : Int) <
      windowCount image kernel stride padding := by
    have high := (signed_bounds (by decide : 0 < 32) (windowCount image kernel stride padding)).2
    rw [getConv2dWindowCount_signed height width]
    omega
  have missing : chunksOf result (image.getConv2dWindowCount kernel stride padding).toNat = [] :=
    filter_eq_nil_iff.mpr fun chunk mem same => (blockRow_lt wide made mem).ne (beq_iff_eq.mp same)
  have values := lossless.values _ behind
  rw [missing] at values
  exact append_ne_nil_of_right_ne_nil _ (cons_ne_nil 1 []) values.symm

/-- An empty window has an empty chunk before the one with the 1. -/
theorem taps_ne_nil_of_lossless {result : List (ImageChunk R)} (counted : 0 < windowCount image kernel stride padding)
    (made : imgToChunks image blockY stride kernel padding = .ok result)
    (lossless : Lossless image kernel stride padding blockY result) : taps image.z kernel ≠ [] := by
  intro empty
  have small := countable_of_lossless wide height width made lossless
  have count : (image.getConv2dWindowCount kernel stride padding).toNat =
      (windowCount image kernel stride padding).toNat := by
    rw [getConv2dWindowCount_signed height width, signed_of_fits (by decide) (by omega) small]
  have reads : ∀ window < (windowCount image kernel stride padding).toNat,
      windowValues image stride kernel padding window = .ok [] := by
    intro window _
    rw [windowValues, empty]
    rfl
  cases made.symm.trans (imgToChunks_rows (moves_of_ok made) count reads)
  have widths := lossless.widths 0 counted
  rw [chunksOf_flatMap (fun _ _ => blockRow_rowToChunks wide) (Int.lt_toNat.mpr counted), rowToChunks_nil] at widths
  exact wide.ne (widths _ mem_cons_self)

/-- Cutting an image loses nothing exactly if its windows have values, lie inside the image where nothing is padded,
and are not too many to be counted. -/
theorem imgToChunks_lossless_iff (addressable : image.x * image.y < 2 ^ 31)
    (counted : 0 < windowCount image kernel stride padding) :
    (∃ result, imgToChunks image blockY stride kernel padding = .ok result ∧
      Lossless image kernel stride padding blockY result) ↔ Slides image kernel stride padding := by
  constructor
  · rintro ⟨result, made, lossless⟩
    obtain ⟨tap, inTaps⟩ := exists_mem_of_ne_nil _ (taps_ne_nil_of_lossless wide height width counted made lossless)
    obtain ⟨inChannels, inRows, _⟩ := mem_taps.mp inTaps
    refine ⟨moves_of_ok made, by omega, by omega, ?_, countable_of_lossless wide height width made lossless⟩
    rcases Nat.eq_zero_or_pos padding with rfl | padded
    · have lastPlace : kernel - 1 < kernel := by omega
      have last : (⟨tap.channel, kernel - 1, kernel - 1⟩ : Tap) ∈ taps image.z kernel :=
        mem_taps.mpr ⟨inChannels, lastPlace, lastPlace⟩
      obtain ⟨_, row, _, column⟩ := lossless.inside 0 counted _ last (.inl rfl)
      simp only [placeOf, Nat.cast_zero, Int.zero_tdiv, Int.zero_tmod, Int.zero_mul, Int.zero_add,
        Int.sub_zero] at row column
      exact .inr ⟨by omega, by omega⟩
    · exact .inl padded
  · intro slides
    exact slides.lossless wide height width addressable counted

end

/-- Two channels of 3 x 4, of which windows of 2 x 2 in a frame of zeros are taken at every second place. -/
def twoChannels : Image Int :=
  ⟨1, 3, 4, 2, [[1, 2, 3, 4, 5, 6, 7, 8, 9, 10, 11, 12], [13, 14, 15, 16, 17, 18, 19, 20, 21, 22, 23, 24]], rfl, by
    decide⟩

theorem twoChannels_lossless : ∃ result, imgToChunks twoChannels 3 2 2 1 = .ok result ∧
    Lossless twoChannels 2 2 1 3 result ∧
    windowRow twoChannels 2 2 1 4 = [6, 7, 10, 11, 18, 19, 22, 23] := by
  have slides : Slides twoChannels 2 2 1 := ⟨by decide, by decide, by decide, .inl (by decide), by decide⟩
  obtain ⟨result, made, lossless⟩ :=
    (imgToChunks_lossless_iff (by decide : 0 < 3) (by decide) (by decide) (by decide) (by decide)).mpr slides
  exact ⟨result, made, lossless, by decide⟩

def onePixel : Image Int := ⟨0, 1, 1, 1, [[2]], rfl, by decide⟩

/-- The division that truncates counts a window although the kernel is larger than the image. -/
theorem larger_kernel_counted : onePixel.getConv2dWindowCount 2 2 0 = 1 ∧
    imgToChunks onePixel 1 2 2 0 = .error .outOfBounds := by
  decide +kernel

end CactusDB.Optimizer.ImageWindows
