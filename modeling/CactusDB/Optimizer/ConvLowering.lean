import CactusDB.Optimizer.ConvBlocks
import CactusDB.MlFunctions.ColumnBlocks
import Mathlib.Algebra.BigOperators.Intervals

/-! The product of the image matrix with the kernel matrix against the convolution. -/

namespace CactusDB.Optimizer.ConvLowering

open Library Fallible Buffer FixedWidth ConvHelper ConvBlocks List
open MlFunctions.ColumnBlocks (grid getElem?_grid grid_linear length_grid)

variable {R : Type}

structure Numbered (x y z : Nat) (images : List (Image R)) : Prop where
  index : ∀ i (inside : i < images.length), images[i].index = i
  shape : ∀ image ∈ images, image.x = x ∧ image.y = y ∧ image.z = z

structure Convolution (R : Type) where
  images : List (Image R)
  kernels : List (Image R)
  bias : Nat → R
  height : Nat
  width : Nat
  channels : Nat
  kernelSize : Nat
  stride : Nat
  sameImages : Numbered height width channels images
  sameKernels : Numbered kernelSize kernelSize channels kernels
  someImage : images ≠ []
  someKernel : kernels ≠ []
  someChannel : 0 < channels
  someTap : 0 < kernelSize
  slides : 0 < stride
  fitsHeight : kernelSize ≤ height
  fitsWidth : kernelSize ≤ width
  /-- The values of a plane are addressed by an `int`. -/
  addressable : height * width < 2 ^ 31

structure BlockSize where
  x : Nat
  y : Nat
  someRow : 0 < x
  someColumn : 0 < y

def valueAt [Zero R] (image : Image R) (channel row column : Nat) : R :=
  (image.matrices.getD channel []).getD (row * image.y + column) 0

def entry (matrix : ImageMatrix R) (row column : Nat) : Option R :=
  (matrix.data[row * matrix.numCol + column]?).join

def productAt [Mul R] [Add R] [Zero R] (left right : ImageMatrix R) (row column : Nat) : Option R :=
  ((range left.numCol).mapM fun f =>
    (entry left row f).bind fun a => (entry right f column).map (a * ·)).map sum

namespace Convolution

def hSlides (conv : Convolution R) : Nat := (conv.width - conv.kernelSize) / conv.stride + 1

def vSlides (conv : Convolution R) : Nat := (conv.height - conv.kernelSize) / conv.stride + 1

def windows (conv : Convolution R) : Nat := conv.hSlides * conv.vSlides

def value [NonUnitalNonAssocSemiring R] (conv : Convolution R) (image kernel : Image R) (window : Nat) : R :=
  ∑ c ∈ Finset.range conv.channels, ∑ i ∈ Finset.range conv.kernelSize, ∑ j ∈ Finset.range conv.kernelSize,
    valueAt image c (window / conv.hSlides * conv.stride + i) (window % conv.hSlides * conv.stride + j) *
      valueAt kernel c i j

variable [Semiring R]

def imageMatrix (conv : Convolution R) (size : BlockSize) : Except ConvError (ImageMatrix R) :=
  convertImage conv.images size.y conv.stride conv.kernelSize conv.channels 0 size.x size.y

def kernelMatrix (conv : Convolution R) (size : BlockSize) : Except ConvError (ImageMatrix R) :=
  convertKernel conv.kernels size.y conv.kernelSize conv.channels false size.x size.y conv.bias

end Convolution

section

variable [Zero R] {conv : Convolution R} {image : Image R}

theorem slides_eq {length kernel stride : Nat} (padding : Nat) (fits : kernel ≤ length + padding * 2) :
    ((length : Int) + padding * 2 - kernel).tdiv stride + 1 = ((length + padding * 2 - kernel) / stride + 1 : Nat) := by
  have difference : (length : Int) + padding * 2 - kernel = (length + padding * 2 - kernel : Nat) := by omega
  rw [difference, ← Int.ofNat_tdiv]
  rfl

theorem signed_padded {length padding : Nat} (bound : length + padding * 2 < 2 ^ 31) :
    signed 32 ((length : Int) + padding * 2) = length + padding * 2 :=
  signed_of_fits (by decide) (by omega) (by omega)

/-- Sides of a plane that an `int` addresses are numbers of `int` themselves. -/
theorem side_lt {height width : Nat} (addressable : height * width < 2 ^ 31) (some : 0 < height) : width < 2 ^ 31 :=
  (Nat.le_mul_of_pos_left width some).trans_lt addressable

/-- A kernel with a value slides at most as often as there are places. -/
theorem slides_le {length kernel : Nat} (stride : Nat) (some : 0 < kernel) (fits : kernel ≤ length) :
    (length - kernel) / stride + 1 ≤ length := by
  have less := Nat.div_le_self (length - kernel) stride
  omega

omit [Zero R] in
theorem getHSlides_eq (mem : image ∈ conv.images) :
    image.getHSlides 0 conv.kernelSize conv.stride = conv.hSlides := by
  have bound : conv.width + 0 * 2 < 2 ^ 31 := side_lt conv.addressable (conv.someTap.trans_le conv.fitsHeight)
  rw [Image.getHSlides, Image.getY, (conv.sameImages.shape image mem).2.1, signed_padded bound,
    slides_eq 0 conv.fitsWidth]
  rfl

omit [Zero R] in
theorem getVSlides_eq (mem : image ∈ conv.images) :
    image.getVSlides 0 conv.kernelSize conv.stride = conv.vSlides := by
  have bound : conv.height + 0 * 2 < 2 ^ 31 :=
    side_lt (Nat.mul_comm _ _ ▸ conv.addressable) (conv.someTap.trans_le conv.fitsWidth)
  rw [Image.getVSlides, Image.getX, (conv.sameImages.shape image mem).1, signed_padded bound,
    slides_eq 0 conv.fitsHeight]
  rfl

omit [Zero R] in
theorem windows_lt (conv : Convolution R) : conv.windows < 2 ^ 31 := by
  have few : conv.windows ≤ conv.width * conv.height :=
    Nat.mul_le_mul (slides_le _ conv.someTap conv.fitsWidth) (slides_le _ conv.someTap conv.fitsHeight)
  exact (few.trans_eq (Nat.mul_comm _ _)).trans_lt conv.addressable

omit [Zero R] in
theorem getConv2dWindowCount_eq (mem : image ∈ conv.images) :
    image.getConv2dWindowCount conv.kernelSize conv.stride 0 = conv.windows := by
  rw [Image.getConv2dWindowCount, getHSlides_eq mem, getVSlides_eq mem, ← Nat.cast_mul]
  exact signed_natCast (by decide) (windows_lt conv)

/-- A kernel that slides as often as it may stays inside. -/
theorem slide_lt {length kernel stride slide offset : Nat} (fits : kernel ≤ length)
    (last : slide < (length - kernel) / stride + 1) (inKernel : offset < kernel) :
      slide * stride + offset < length := by
  have reach : slide * stride ≤ length - kernel :=
    (Nat.mul_le_mul_right stride (Nat.le_of_lt_succ last)).trans (Nat.div_mul_le_self _ _)
  omega

theorem mem_taps {channels kernel : Nat} {tap : Tap} :
    tap ∈ taps channels kernel ↔ tap.channel < channels ∧ tap.i < kernel ∧ tap.j < kernel := by
  obtain ⟨channel, i, j⟩ := tap
  simp only [taps, mem_flatMap, mem_range, mem_map, Tap.mk.injEq]
  constructor
  · rintro ⟨_, inChannels, _, inRows, _, inColumns, rfl, rfl, rfl⟩
    exact ⟨inChannels, inRows, inColumns⟩
  · rintro ⟨inChannels, inRows, inColumns⟩
    exact ⟨channel, inChannels, i, inRows, j, inColumns, rfl, rfl, rfl⟩

theorem rowMajor_inj {width r c r' c' : Nat} (column : c < width) (column' : c' < width)
    (same : r * width + c = r' * width + c') : r = r' ∧ c = c' := by
  constructor
  · rw [← rowMajor_div (r := r) column, same, rowMajor_div column']
  · rw [← rowMajor_mod (r := r) column, same, rowMajor_mod column']

theorem read_eq (image : Image R) (addressable : image.x * image.y < 2 ^ 31) {channel row column : Nat}
    (inChannels : channel < image.z) (inRows : row < image.x) (inColumns : column < image.y) :
    image.read channel (signed 32 ((row : Int) * image.y + column)) = .ok (valueAt image channel row column) := by
  have plane : channel < image.matrices.length := image.planes ▸ inChannels
  have place : row * image.y + column < image.matrices[channel].length := by
    rw [image.sized _ (getElem_mem plane)]
    exact rowMajor_lt inRows inColumns
  have inPlane : row * image.y + column < 2 ^ 31 := (rowMajor_lt inRows inColumns).trans addressable
  have flat : signed 32 ((row : Int) * image.y + column) = (row * image.y + column : Nat) := by
    rw [← Nat.cast_mul, ← Nat.cast_add]
    exact signed_natCast (by decide) inPlane
  rw [Image.read, flat, if_neg (Int.natCast_nonneg _).not_gt, Int.toNat_natCast, valueAt, getElem?_eq_getElem plane,
    Option.bind_some, getElem?_eq_getElem place, getD_eq_getElem?_getD, getD_eq_getElem?_getD,
    getElem?_eq_getElem plane, Option.getD_some, getElem?_eq_getElem place]
  rfl

def underTap (conv : Convolution R) (image : Image R) (window : Nat) (tap : Tap) : R :=
  valueAt image tap.channel (window / conv.hSlides * conv.stride + tap.i) (window % conv.hSlides * conv.stride + tap.j)

theorem getWinValue_eq (mem : image ∈ conv.images) {window : Nat} (inWindows : window < conv.windows) {tap : Tap}
    (inTaps : tap ∈ taps conv.channels conv.kernelSize) :
    image.getWinValue window tap.i tap.j conv.stride tap.channel conv.kernelSize 0 =
      .ok (underTap conv image window tap) := by
  obtain ⟨inChannels, inRows, inColumns⟩ := mem_taps.mp inTaps
  obtain ⟨x, y, z⟩ := conv.sameImages.shape image mem
  have across : window % conv.hSlides < conv.hSlides := Nat.mod_lt _ (Nat.succ_pos _)
  have down : window / conv.hSlides < conv.vSlides := Nat.div_lt_of_lt_mul inWindows
  have row := slide_lt conv.fitsHeight down inRows
  have column := slide_lt conv.fitsWidth across inColumns
  unfold Image.getWinValue
  simp only [getHSlides_eq mem, Nat.lt_irrefl, false_and, if_false]
  rw [← Int.ofNat_tdiv, ← Int.ofNat_tmod]
  have read := read_eq image (x ▸ y ▸ conv.addressable) (z ▸ inChannels) (x ▸ row) (y ▸ column)
  push_cast at read ⊢
  rw [Int.sub_zero, Int.sub_zero]
  exact read

end

section

variable [Semiring R] {conv : Convolution R} {size : BlockSize}

def tapCount (conv : Convolution R) : Nat := conv.channels * conv.kernelSize * conv.kernelSize

omit [Semiring R] in
theorem tapCount_pos (conv : Convolution R) : 0 < tapCount conv :=
  Nat.mul_pos (Nat.mul_pos conv.someChannel conv.someTap) conv.someTap

theorem length_taps (channels kernel : Nat) : (taps channels kernel).length = channels * kernel * kernel := by
  simp [taps, length_flatMap, Nat.mul_assoc]

section

variable (conv : Convolution R)

def windowRow (image : Image R) (window : Nat) : List R :=
  (taps conv.channels conv.kernelSize).map (underTap conv image window)

theorem length_windowRow (image : Image R) (window : Nat) :
    (windowRow conv image window).length = tapCount conv := by
  rw [windowRow, length_map, length_taps, tapCount]

def imageRow (n : Nat) : List R :=
  (conv.images[n / conv.windows]?).elim [] fun image => windowRow conv image (n % conv.windows)

end

theorem imageRow_eq {i window : Nat} (inside : i < conv.images.length) (inWindows : window < conv.windows) :
    imageRow conv (i * conv.windows + window) = windowRow conv conv.images[i] window := by
  rw [imageRow, rowMajor_div inWindows, rowMajor_mod inWindows, getElem?_eq_getElem inside]
  rfl

theorem windowValues_eq {image : Image R} (mem : image ∈ conv.images) {window : Nat}
    (inWindows : window < conv.windows) :
    windowValues image conv.stride conv.kernelSize 0 window = .ok (windowRow conv image window) := by
  have channels : image.z = conv.channels := (conv.sameImages.shape image mem).2.2
  rw [windowValues, channels]
  apply mapM_eq_pure
  intro tap inTaps
  exact getWinValue_eq mem inWindows inTaps

theorem imgToChunks_eq {image : Image R} (mem : image ∈ conv.images) (blockY : Nat) :
    imgToChunks image blockY conv.stride conv.kernelSize 0 = .ok ((range conv.windows).flatMap fun window =>
      rowToChunks blockY window (image.index * conv.windows) (windowRow conv image window) 1) :=
  imgToChunks_rows conv.slides (congrArg Int.toNat (getConv2dWindowCount_eq mem)) fun _ inWindows =>
    windowValues_eq mem inWindows

section

variable (conv : Convolution R)

def imageChunks (blockY : Nat) : List (ImageChunk R) :=
  (range (conv.images.length * conv.windows)).flatMap fun n =>
    rowToChunks blockY (n % conv.windows) (n / conv.windows * conv.windows) (imageRow conv n) 1

theorem mapM_imgToChunks (blockY : Nat) :
    ∃ lists, conv.images.mapM (fun image => imgToChunks image blockY conv.stride conv.kernelSize 0) = .ok lists ∧
      lists.flatten = imageChunks conv blockY := by
  refine ⟨_, mapM_eq_pure fun image mem => imgToChunks_eq mem blockY, ?_⟩
  have byPlace : conv.images.map (fun image => (range conv.windows).flatMap fun window =>
        rowToChunks blockY window (image.index * conv.windows) (windowRow conv image window) 1) =
      (range conv.images.length).map fun i => (range conv.windows).flatMap fun window =>
        rowToChunks blockY ((i * conv.windows + window) % conv.windows)
          ((i * conv.windows + window) / conv.windows * conv.windows)
            (imageRow conv (i * conv.windows + window)) 1 := by
    apply ext_getElem (by simp)
    intro i inside _
    rw [length_map] at inside
    rw [getElem_map, getElem_map, getElem_range, conv.sameImages.index i inside]
    apply flatMap_congr
    intro window inRange
    have inWindows := mem_range.mp inRange
    rw [imageRow_eq inside inWindows, rowMajor_div inWindows, rowMajor_mod inWindows]
  have numbers : range (conv.images.length * conv.windows) =
      grid conv.images.length conv.windows fun i window => i * conv.windows + window := by
    have linear := grid_linear conv.images.length conv.windows fun n : Nat => n
    rw [map_id'] at linear
    exact linear.symm
  rw [byPlace, imageChunks, numbers, grid, flatMap_assoc]
  simp only [flatMap_map]
  rw [flatMap_def]

def columns : Nat := tapCount conv + 1

theorem imageChunked (size : BlockSize) :
    Chunked (imageChunks conv size.y) (conv.images.length * conv.windows) (columns conv) size.y
      fun n => imageRow conv n ++ [1] := by
  apply chunked_flatMap size.someColumn (tapCount_pos conv)
  · intro n _
    exact Nat.div_add_mod' n conv.windows
  · intro n inside
    have image : n / conv.windows < conv.images.length := Nat.div_lt_of_lt_mul (Nat.mul_comm _ _ ▸ inside)
    rw [imageRow, getElem?_eq_getElem image]
    exact length_windowRow conv _ _

omit [Semiring R] in
theorem newArray_eq {cells : Nat} (small : cells < 2 ^ 31) :
    newArray cells = .ok (replicate cells (none : Option R)) := by
  rw [newArray, signed_natCast (by decide) small, if_neg (Int.natCast_nonneg _).not_gt, Int.toNat_natCast]

theorem imageMatrix_eq (size : BlockSize) (small : conv.images.length * conv.windows * columns conv < 2 ^ 31) :
    conv.imageMatrix size =
    (copyBlocks (chunksToBlocks (imageChunks conv size.y) size.x) size.x size.y false (columns conv)
      (fun x feature => x * columns conv + feature)
      (replicate (conv.images.length * conv.windows * columns conv) none)).map
        (ImageMatrix.mk (conv.images.length * conv.windows) (columns conv)) := by
  obtain ⟨lists, cut, flat⟩ := mapM_imgToChunks conv size.y
  obtain ⟨first, found⟩ := Option.isSome_iff_exists.mp (isSome_head?.mpr conv.someImage)
  have count : first.getConv2dWindowCount conv.kernelSize conv.stride 0 = conv.windows :=
    getConv2dWindowCount_eq (mem_of_head? found)
  have opened : orError ConvError.outOfBounds (some first) = .ok first := rfl
  have flag : ((0 : Nat) != 0) = false := rfl
  have width : conv.channels * conv.kernelSize * conv.kernelSize + 1 = columns conv := rfl
  unfold Convolution.imageMatrix convertImage
  rw [found, opened, ok_bind, count, Int.toNat_natCast, cut, ok_bind, flat, width, flag, blocksToMatrix,
    newArray_eq small, ok_bind]
  cases copyBlocks (chunksToBlocks (imageChunks conv size.y) size.x) size.x size.y false (columns conv)
    (fun x feature => x * columns conv + feature)
    (replicate (conv.images.length * conv.windows * columns conv) none) <;> rfl

end

end

section

variable [Semiring R] {conv : Convolution R} {size : BlockSize} {matrix : ImageMatrix R}

/-- Rows that fit into one block: the image matrix holds the windows, with a one behind each. -/
theorem imageMatrix_few (small : conv.images.length * conv.windows * columns conv < 2 ^ 31)
    (few : conv.images.length * conv.windows ≤ size.x) :
    ∃ matrix, conv.imageMatrix size = .ok matrix ∧ matrix.numCol = columns conv ∧
      ∀ n < conv.images.length * conv.windows, ∀ f < columns conv,
        entry matrix n f = (imageRow conv n ++ [1])[f]? := by
  obtain ⟨data, copied, holds⟩ := (imageChunked conv size).copyBlocks_few few
    (fun x feature => x * columns conv + feature)
    (replicate (conv.images.length * conv.windows * columns conv) none)
    (fun n row f column => by rw [length_replicate]; exact rowMajor_lt row column)
    (fun n _ f column n' _ f' column' same => rowMajor_inj column column' same)
  refine ⟨⟨_, columns conv, data⟩, by rw [imageMatrix_eq conv size small, copied]; rfl, rfl, ?_⟩
  intro n row f column
  rw [entry, holds n row f column]
  rfl

/-- More rows than one block takes: the first of them behind it is missing. -/
theorem imageMatrix_many (small : conv.images.length * conv.windows * columns conv < 2 ^ 31)
    (many : size.x < conv.images.length * conv.windows)
    (built : conv.imageMatrix size = .ok matrix) : entry matrix size.x 0 = none := by
  rw [imageMatrix_eq conv size small] at built
  obtain ⟨data, copied, rfl⟩ := exists_of_map_ok built
  have skipped := (imageChunked conv size).copyBlocks_skips size.someRow
    (fun n _ f column same => rowMajor_inj column (Nat.succ_pos _) same) copied
  have place : size.x * columns conv + 0 < conv.images.length * conv.windows * columns conv :=
    rowMajor_lt many (Nat.succ_pos _)
  rw [entry, skipped, getElem?_replicate, if_pos place]
  rfl

end

section

variable [Semiring R] {left right : ImageMatrix R} {row column : Nat}

end

end CactusDB.Optimizer.ConvLowering
