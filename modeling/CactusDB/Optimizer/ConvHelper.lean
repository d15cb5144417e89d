import Mathlib.Data.List.Dedup
import Mathlib.Data.List.Sort
import Mathlib.Algebra.Order.Ring.Nat
import Mathlib.Algebra.Order.Ring.Int
import CactusDB.Library.Buffer
import CactusDB.Library.FixedWidth
import CactusDB.Library.OrderedDict

/-! `ConvHelper.h`: images and kernels cut into chunks, gathered into blocks and assembled into the two
matrices whose product is the convolution. -/

namespace CactusDB.Optimizer.ConvHelper

open Library Buffer FixedWidth OrderedDict

inductive ConvError where
  /-- A plain array is read or written outside its cells. -/
  | outOfBounds
  /-- `at` finds no such row or no such value. -/
  | outOfRange
  /-- A stride of zero. -/
  | divisionByZero
  /-- An array is asked for whose size is not a number of `int`. -/
  | badArrayLength
  deriving DecidableEq, Repr

def orError {α : Type} (error : ConvError) (found : Option α) : Except ConvError α :=
  found.elim (.error error) .ok

/-- `Matrix3D` and `Image`: `z` planes of `x * y` values each. Kernels are images too. -/
structure Image (R : Type) where
  index : Nat
  x : Nat
  y : Nat
  z : Nat
  matrices : List (List R)
  planes : matrices.length = z
  sized : ∀ plane ∈ matrices, plane.length = x * y

structure Tap where
  channel : Nat
  i : Nat
  j : Nat

def taps (channels kernel : Nat) : List Tap :=
  (List.range channels).flatMap fun c => (List.range kernel).flatMap fun i =>
    (List.range kernel).map fun j => ⟨c, i, j⟩

namespace Image

variable {R : Type}

section

variable (image : Image R)

def getX (padding : Nat) : Int := signed 32 (image.x + padding * 2)

def getY (padding : Nat) : Int := signed 32 (image.y + padding * 2)

def getHSlides (padding kernelSize stride : Nat) : Int :=
  (image.getY padding - kernelSize).tdiv stride + 1

def getVSlides (padding kernelSize stride : Nat) : Int :=
  (image.getX padding - kernelSize).tdiv stride + 1

def getConv2dWindowCount (kernelSize stride padding : Nat) : Int :=
  signed 32 (image.getHSlides padding kernelSize stride * image.getVSlides padding kernelSize stride)

def read (channel : Nat) (flatIndex : Int) : Except ConvError R :=
  if flatIndex < 0 then .error .outOfBounds
  else orError .outOfBounds (image.matrices[channel]?.bind (·[flatIndex.toNat]?))

end

def getWinValue [Zero R] (image : Image R) (window i j stride channel kernelSize padding : Nat) :
    Except ConvError R :=
  let hSlides := image.getHSlides padding kernelSize stride
  let r := (window : Int).tdiv hSlides
  let c := (window : Int).tmod hSlides
  let xIndex : Int := r * stride + i - padding
  let yIndex : Int := c * stride + j - padding
  if 0 < padding ∧ (xIndex < 0 ∨ yIndex < 0 ∨ image.x ≤ xIndex ∨ image.y ≤ yIndex) then .ok 0
  else image.read channel (signed 32 (xIndex * image.y + yIndex))

end Image

structure ImageChunk (R : Type) where
  blockRow : Nat
  yIndex : Nat
  chunk : List R
  ySize : Nat
  blockRowStart : Nat
  deriving DecidableEq

def ImageChunk.getChunkActualRowIndex {R : Type} (chunk : ImageChunk R) : Nat := chunk.blockRowStart + chunk.blockRow

/-- What the chunking loops carry: `result`, `counter` (`y_index` for kernels) and the open `chunk`. -/
structure Chunking (R : Type) where
  result : List (ImageChunk R)
  counter : Nat
  chunk : List R

section

variable {R : Type} (blockY blockRow blockRowStart : Nat)

def Chunking.close (state : Chunking R) : Chunking R :=
  ⟨state.result ++ [⟨blockRow, state.counter, state.chunk, blockY, blockRowStart⟩], state.counter + 1, []⟩

def Chunking.append (state : Chunking R) (value : R) : Chunking R :=
  { state with chunk := state.chunk ++ [value] }

def Chunking.push (state : Chunking R) (value : R) : Chunking R :=
  if 0 < state.chunk.length ∧ state.chunk.length % blockY = 0 then
    (state.close blockY blockRow blockRowStart).append value
  else
    state.append value

/-- The last value of a row, for which a chunk that is empty is closed too. -/
def Chunking.finish (last : R) (state : Chunking R) : List (ImageChunk R) :=
  let opened := if state.chunk.length % blockY = 0 then state.close blockY blockRow blockRowStart else state
  ((opened.append last).close blockY blockRow blockRowStart).result

def rowToChunks (values : List R) (last : R) : List (ImageChunk R) :=
  (values.foldl (Chunking.push blockY blockRow blockRowStart) ⟨[], 0, []⟩).finish blockY blockRow blockRowStart last

end

variable {R : Type}

def windowValues [Zero R] (image : Image R) (strides kernel padding w : Nat) : Except ConvError (List R) :=
  (taps image.z kernel).mapM fun tap => image.getWinValue w tap.i tap.j strides tap.channel kernel padding

def imgToChunks [Zero R] [One R] (image : Image R) (blockY strides kernel padding : Nat) :
    Except ConvError (List (ImageChunk R)) := do
  if strides = 0 then throw .divisionByZero
  let windows := (image.getConv2dWindowCount kernel strides padding).toNat
  let rows ← (List.range windows).mapM fun w =>
    (windowValues image strides kernel padding w).map (rowToChunks blockY w (image.index * windows) · 1)
  return rows.flatten

def kernelToChunks [Zero R] (kernel : Image R) (blockY : Nat) : List (ImageChunk R) :=
  rowToChunks blockY 0 kernel.index kernel.matrices.flatten 0

structure ImageBlock (R : Type) where
  blockXIndex : Nat
  blockXSize : Nat
  blockYSize : Nat
  blockYIndex : Nat
  chunks : Dict Nat (List R)
  featureCount : Nat

namespace ImageBlock

def ofChunk (blockX : Nat) (chunk : ImageChunk R) : ImageBlock R where
  blockXIndex := chunk.getChunkActualRowIndex / blockX
  blockXSize := blockX
  blockYSize := chunk.ySize
  blockYIndex := chunk.yIndex
  chunks := Dict.empty.set chunk.getChunkActualRowIndex chunk.chunk
  featureCount := chunk.chunk.length

def key (block : ImageBlock R) : Nat := block.blockXIndex * 10000 + block.blockYIndex

def getActualBlockSize (block : ImageBlock R) : Nat := block.chunks.length

def mergeRow (chunks : Dict Nat (List R)) (row : Nat × List R) : Dict Nat (List R) :=
  if chunks.keys.contains row.1 then chunks else chunks.set row.1 row.2

def merge (block addMeIn : ImageBlock R) : ImageBlock R :=
  { block with chunks := addMeIn.chunks.entries.foldl mergeRow block.chunks }

end ImageBlock

def mergeBlocks : List (ImageBlock R) → Option (ImageBlock R)
  | [] => none
  | first :: rest => some (rest.foldl ImageBlock.merge first)

def blockKeys (blocks : List (ImageBlock R)) : List Nat :=
  (blocks.map ImageBlock.key).dedup.insertionSort (· ≤ ·)

def chunksToBlocks (chunks : List (ImageChunk R)) (blockX : Nat) : List (ImageBlock R) :=
  let blocks := chunks.map (ImageBlock.ofChunk blockX)
  (blockKeys blocks).filterMap fun key => mergeBlocks (blocks.filter (·.key == key))

def kernelchunksToBlocks (chunks : List (ImageChunk R)) (blockX : Nat) : List (ImageBlock R) :=
  chunksToBlocks chunks blockX

/-- The matrix of a conversion. A cell that was never written holds whatever `new` left there. -/
structure ImageMatrix (R : Type) where
  numRow : Nat
  numCol : Nat
  data : List (Option R)

structure Cell (R : Type) where
  block : ImageBlock R
  x : Nat
  y : Nat

def cellsOf (blockX blockY : Nat) (padding : Bool) (total : Nat) (block : ImageBlock R) : List (Cell R) :=
  let realBlockX := if padding then blockX else block.getActualBlockSize
  let realBlockY := if padding then blockY else min blockY (total - block.blockYIndex * blockY)
  (List.range realBlockX).flatMap fun x => (List.range realBlockY).map fun y => ⟨block, x, y⟩

def Cell.value [Zero R] (cell : Cell R) : Except ConvError R :=
  if cell.block.getActualBlockSize ≤ cell.x ∨ cell.block.featureCount ≤ cell.y then .ok 0
  else
    let offset := cell.block.blockXIndex * cell.block.blockXSize
    orError .outOfRange ((cell.block.chunks.get? (offset + cell.x)).bind (·[cell.y]?))

/-- Where a round writes, and what. The row is the one in the block, without the block's `offset`. -/
def Cell.write [Zero R] (position : Nat → Nat → Nat) (cell : Cell R) : Except ConvError (Nat × Option R) := do
  let offsetY := cell.block.blockYIndex * cell.block.blockYSize
  return (position cell.x (cell.y + offsetY), some (← cell.value))

section

variable [Zero R] (blocks : List (ImageBlock R)) (blockX blockY : Nat) (padding : Bool)

/-- An array that nothing has been written to yet. -/
def newArray (size : Nat) : Except ConvError (List (Option R)) :=
  if signed 32 size < 0 then .error .badArrayLength else .ok (List.replicate (signed 32 size).toNat none)

/-- The copying loops of both conversions, which differ in the place of a value. -/
def copyBlocks (total : Nat)
    (position : Nat → Nat → Nat) (data : List (Option R)) : Except ConvError (List (Option R)) :=
  (blocks.flatMap (cellsOf blockX blockY padding total)).foldlM
    (fun data cell => do store .outOfBounds data (← cell.write position)) data

def blocksToMatrix (totalFeatures totalRows : Nat) : Except ConvError (ImageMatrix R) := do
  let data ← copyBlocks blocks blockX blockY padding totalFeatures (fun x feature => x * totalFeatures + feature)
    (← newArray (totalRows * totalFeatures))
  return ⟨totalRows, totalFeatures, data⟩

def kernelblocksToMatrix (totalFeatures totalRows : Nat) : Except ConvError (ImageMatrix R) := do
  let data ← copyBlocks blocks blockX blockY padding totalRows (fun x feature => feature * totalFeatures + x)
    (← newArray (totalRows * totalFeatures))
  return ⟨totalRows, totalFeatures, data⟩

end

/-- `bias` is a plain pointer, of which one value per column is read. -/
def copyBiasToMatrix (kernelMatrix : ImageMatrix R) (bias : Nat → R) : ImageMatrix R :=
  let lastRow := kernelMatrix.numRow - 1
  { kernelMatrix with
    data := setAll kernelMatrix.data
      ((List.range kernelMatrix.numCol).map fun i => (lastRow * kernelMatrix.numCol + i, some (bias i))) }

def convertImage [Zero R] [One R] (images : List (Image R)) (windowItems strides kWidth kChannels padding : Nat)
    (blockX blockY : Nat) : Except ConvError (ImageMatrix R) := do
  let first ← orError .outOfBounds images.head?
  let finalRowSize := images.length * (first.getConv2dWindowCount kWidth strides padding).toNat
  let finalColSize := kChannels * kWidth * kWidth + 1
  let chunks ← images.mapM fun image => imgToChunks image windowItems strides kWidth padding
  -- `padding` is an `int` here and a `bool` there
  blocksToMatrix (chunksToBlocks chunks.flatten blockX) blockX blockY (padding != 0) finalColSize finalRowSize

def convertKernel [Zero R] (kernels : List (Image R)) (windowItems kWidth kChannels : Nat) (blockPadding : Bool)
    (blockX blockY : Nat) (bias : Nat → R) : Except ConvError (ImageMatrix R) := do
  let finalRowSize := kChannels * kWidth * kWidth + 1
  let finalColSize := kernels.length
  let chunks := kernels.flatMap fun kernel => kernelToChunks kernel windowItems
  let kernelMatrix ← kernelblocksToMatrix (kernelchunksToBlocks chunks blockX) blockX blockY blockPadding
    finalColSize finalRowSize
  return copyBiasToMatrix kernelMatrix bias

/-- The number of the image takes no part in the place of its values. -/
def loadFormData (width height channels numOfImages : Nat) (values : Nat → R) : List (Image R) :=
  (List.range numOfImages).map fun imageCount =>
    { index := imageCount
      x := width
      y := height
      z := channels
      matrices := (List.range channels).map fun c =>
        (List.range (width * height)).map fun i => values (c * (width * height) + i)
      planes := by simp
      sized := by
        intro plane mem
        obtain ⟨c, _, rfl⟩ := List.mem_map.mp mem
        simp }

/-- `convert2Matrix` for kernels of `width`, `height` and `channels`. -/
def convert2Matrix [Zero R] (width height channels numOfImages : Nat) (values bias : Nat → R) :
    Except ConvError (ImageMatrix R) :=
  convertKernel (loadFormData width height channels numOfImages values) (width * height) width channels false 32
    (width * height) bias

/-- One chunk copied to its place in its block. -/
def placeChunk (blockXWidth totalChunkSize : Nat) (blocks : List (List R)) (chunk : ImageChunk R) :
    Except ConvError (List (List R)) := do
  let row := chunk.blockRow + chunk.blockRowStart
  let block ← orError .outOfBounds blocks[row / blockXWidth]?
  let startRow := row % blockXWidth * totalChunkSize
  if startRow + chunk.chunk.length ≤ block.length then
    return blocks.set (row / blockXWidth) (overwrite block startRow chunk.chunk)
  else throw .outOfBounds

/-- The blocks are vectors, which are filled with zeros first. -/
def chunks2Blocks [Zero R] (chunks : List (ImageChunk R)) (blockXWidth : Nat) : Except ConvError (List (List R)) := do
  let first ← orError .outOfBounds chunks.head?
  let blocksRowSize := (chunks.length + blockXWidth - 1) / blockXWidth
  let totalChunkSize := first.chunk.length
  let size := signed 32 (blockXWidth * totalChunkSize)
  if size < 0 then throw .badArrayLength
  chunks.foldlM (placeChunk blockXWidth totalChunkSize)
    (List.replicate blocksRowSize (List.replicate size.toNat 0))

/-- `convert2Blocks`, and `convert2Matrix` for images, on the images that they draw. -/
def convert2Blocks [Zero R] [One R] (images : List (Image R)) (kWidth kChannels strides padding blockXWidth : Nat) :
    Except ConvError (List (List R)) := do
  let finalColSize := kChannels * kWidth * kWidth + 1
  let chunks ← images.mapM fun image => imgToChunks image finalColSize strides kWidth padding
  chunks2Blocks chunks.flatten blockXWidth

end CactusDB.Optimizer.ConvHelper
