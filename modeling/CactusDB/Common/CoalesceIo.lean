import CactusDB.Library.FixedWidth
import Mathlib.Algebra.BigOperators.Group.List.Basic
import Mathlib.Algebra.Order.BigOperators.Group.Finset
import Mathlib.Data.List.Forall2

/-! `coalesceIo` of common/base/CoalesceIo.h, one pass that reads nearby items together. -/

namespace CactusDB.Common.CoalesceIo
open Library.FixedWidth List

structure CoalesceIoStats where
  numIos : Int
  payloadBytes : Int
  extraBytes : Int
deriving DecidableEq

def kNoCoalesce : Int := -1

/-- The vector of items by what the callbacks say of each index. -/
structure Items (Range : Type) where
  size : Nat
  offsetFunc : Nat → Nat
  sizeFunc : Nat → Nat
  numRanges : Nat → Int
  addRanges : Nat → List Range
  skipRange : Int → List Range

/-- The arguments of a call of `ioFunc`. -/
structure IoCall (Range : Type) where
  startItem : Nat
  endItem : Nat
  startOffset : Nat
  ranges : List Range
deriving DecidableEq

/-- The variables of the loop, and the calls made so far. -/
structure Pass (Range : Type) where
  startItem : Nat
  startOffset : Nat
  lastEndOffset : Nat
  ranges : List Range
  calls : List (IoCall Range)
  result : CoalesceIoStats

variable {Range : Type} (items : Items Range) (maxGap rangesPerIo : Int)

namespace Pass

def start : Pass Range :=
  { startItem := 0, startOffset := items.offsetFunc 0, lastEndOffset := items.offsetFunc 0, ranges := [], calls := [],
    result := ⟨0, 0, 0⟩ }

def ioCall (pass : Pass Range) (endItem : Nat) : IoCall Range :=
  ⟨pass.startItem, endItem, pass.startOffset, pass.ranges⟩

def ioFunc (pass : Pass Range) (endItem : Nat) : Pass Range :=
  { pass with
    calls := pass.calls ++ [pass.ioCall endItem],
    result.numIos := signed 32 (pass.result.numIos + 1) }

/-- The counts are compared as `size_t`. -/
def enoughRanges (pass : Pass Range) (i : Nat) : Bool :=
  (items.numRanges i = kNoCoalesce ∨ rangesPerIo % 2 ^ 64 ≤ (pass.ranges.length + items.numRanges i) % 2 ^ 64) &&
    !pass.ranges.isEmpty

def gap (pass : Pass Range) (i : Nat) : Int := signed 64 (items.offsetFunc i - pass.lastEndOffset)

def separate (pass : Pass Range) (i : Nat) : Pass Range :=
  let enough := pass.enoughRanges items rangesPerIo i
  let gap := pass.gap items i
  if pass.lastEndOffset ≠ items.offsetFunc i ∨ enough then
    if 0 < gap ∧ gap < maxGap ∧ !enough then
      { pass with
        ranges := pass.ranges ++ items.skipRange gap,
        result.extraBytes := signed 64 (pass.result.extraBytes + gap) }
    else
      { pass.ioFunc i with ranges := [], startItem := i, startOffset := items.offsetFunc i }
  else
    pass

def addItem (pass : Pass Range) (i : Nat) : Pass Range :=
  { pass with
    ranges := pass.ranges ++ items.addRanges i,
    lastEndOffset := (items.offsetFunc i + items.sizeFunc i) % 2 ^ 64 }

def round (pass : Pass Range) (i : Nat) : Pass Range :=
  let paid := { pass with result.payloadBytes := signed 64 (pass.result.payloadBytes + items.sizeFunc i) }
  (paid.separate items maxGap rangesPerIo i).addItem items i

/-- The loop up to an index; `++i` must stay an `int32_t`. -/
def rounds : Nat → Option (Pass Range)
  | 0 => some (start items)
  | i + 1 => do
    let pass ← rounds i
    if i + 1 < 2 ^ 31 then some (pass.round items maxGap rangesPerIo i) else none

end Pass

/-- A part of what one call reads. -/
inductive Piece where
  | item (i : Nat)
  | skip (gap : Nat)

namespace Piece

def item? : Piece → Option Nat
  | item i => some i
  | skip _ => none

def skipped : Piece → Nat
  | item _ => 0
  | skip gap => gap

def ranges : Piece → List Range
  | item i => items.addRanges i
  | skip gap => items.skipRange gap

end Piece

def Items.stop (i : Nat) : Nat := items.offsetFunc i + items.sizeFunc i

def IoCall.indices (call : IoCall Range) : List Nat := range' call.startItem (call.endItem - call.startItem)

/-- Each piece begins where the one before it ends. -/
def Tiles : Nat → List Piece → Nat → Prop
  | start, [], stop => start = stop
  | start, .item i :: rest, stop => items.offsetFunc i = start ∧ Tiles (start + items.sizeFunc i) rest stop
  | start, .skip gap :: rest, stop => Tiles (start + gap) rest stop

/-- The call reads its items in their order and the gaps between them, from the first byte to the last. -/
structure Reads (call : IoCall Range) (pieces : List Piece) : Prop where
  nonempty : call.startItem < call.endItem
  indices : pieces.filterMap Piece.item? = call.indices
  ranges : call.ranges = pieces.flatMap (Piece.ranges items)
  offset : call.startOffset = items.offsetFunc call.startItem
  tiles : Tiles items call.startOffset pieces (items.stop (call.endItem - 1))
  gaps : ∀ gap, Piece.skip gap ∈ pieces → 0 < gap ∧ (gap : Int) < maxGap

def skippedBytes (pieces : List Piece) : Nat := (pieces.map Piece.skipped).sum

def payload (count : Nat) : Nat := ∑ i ∈ Finset.range count, items.sizeFunc i

/-- Every item is read once, in its order, and the totals are those of the calls. -/
def Exact (calls : List (IoCall Range)) (result : CoalesceIoStats) : Prop :=
  calls.flatMap IoCall.indices = range items.size ∧
    ∃ pieces, Forall₂ (Reads items maxGap) calls pieces ∧
      result = ⟨calls.length, payload items items.size, skippedBytes pieces.flatten⟩

variable {items maxGap rangesPerIo} {call : IoCall Range} {pieces between : List Piece} {pass : Pass Range}
  {closed : List (List Piece)} {i : Nat}

theorem tiles_append {start middle stop : Nat} {first second : List Piece} (left : Tiles items start first middle)
    (right : Tiles items middle second stop) : Tiles items start (first ++ second) stop := by
  induction first generalizing start with
  | nil => exact left.symm ▸ right
  | cons piece rest ih =>
    cases piece with
    | item i => exact ⟨left.1, ih left.2⟩
    | skip gap => exact ih left

theorem IoCall.indices_succ {first last : Nat} (le : first ≤ last) (offset other : Nat) (ranges more : List Range) :
    (IoCall.mk first (last + 1) offset ranges).indices = (IoCall.mk first last other more).indices ++ [last] := by
  simp only [IoCall.indices, Nat.succ_sub le, range'_1_concat, Nat.add_sub_cancel' le]

theorem Reads.single (items : Items Range) (maxGap : Int) (i : Nat) :
    Reads items maxGap ⟨i, i + 1, items.offsetFunc i, items.addRanges i⟩ [.item i] where
  nonempty := Nat.lt_succ_self i
  indices := by simp [Piece.item?, IoCall.indices]
  ranges := by simp [Piece.ranges]
  offset := rfl
  tiles := ⟨rfl, rfl⟩
  gaps := by simp

theorem Reads.extend (reads : Reads items maxGap call pieces) (between : List Piece)
    (noItem : between.filterMap Piece.item? = [])
    (tiles : Tiles items (items.stop (call.endItem - 1)) between (items.offsetFunc call.endItem))
    (gaps : ∀ gap, Piece.skip gap ∈ between → 0 < gap ∧ (gap : Int) < maxGap) :
    Reads items maxGap
      { call with
        endItem := call.endItem + 1,
        ranges := call.ranges ++ between.flatMap (Piece.ranges items) ++ items.addRanges call.endItem }
      (pieces ++ between ++ [.item call.endItem]) where
  nonempty := Nat.lt_succ_of_lt reads.nonempty
  indices := by
    rw [filterMap_append, filterMap_append, noItem, reads.indices, IoCall.indices_succ reads.nonempty.le, append_nil]
    rfl
  ranges := by
    rw [reads.ranges]
    simp [Piece.ranges]
  offset := reads.offset
  tiles := tiles_append (tiles_append reads.tiles tiles) ⟨rfl, rfl⟩
  gaps := by
    intro gap mem
    rcases mem_append.mp mem with mem | mem
    · rcases mem_append.mp mem with mem | mem
      · exact reads.gaps gap mem
      · exact gaps gap mem
    · simp at mem

/-- The loop before the round of index `i`: if it stopped here, the calls would read the items up to `i`. -/
structure Progress (items : Items Range) (maxGap : Int) (i : Nat) (pass : Pass Range) (closed : List (List Piece))
    (pieces : List Piece) : Prop where
  made : Forall₂ (Reads items maxGap) pass.calls closed
  reads : Reads items maxGap (pass.ioCall i) pieces
  covered : pass.calls.flatMap IoCall.indices ++ (pass.ioCall i).indices = range i
  last : pass.lastEndOffset = items.stop (i - 1)
  result : pass.result = ⟨pass.calls.length, payload items i, skippedBytes (closed.flatten ++ pieces)⟩
  few : pass.calls.length < i
  skipped : skippedBytes (closed.flatten ++ pieces) < 2 ^ 31 * i

/-- The offsets ascend and the ends are offsets too. -/
structure Sorted (items : Items Range) : Prop where
  ascending : ∀ i < items.size, ∀ earlier < i, items.offsetFunc earlier ≤ items.offsetFunc i
  ends : ∀ i < items.size, items.stop i < 2 ^ 64

theorem skippedBytes_append (first second : List Piece) :
    skippedBytes (first ++ second) = skippedBytes first + skippedBytes second := by
  simp [skippedBytes]

theorem Progress.join (progress : Progress items maxGap i pass closed pieces) (between : List Piece)
    (noItem : between.filterMap Piece.item? = [])
    (tiles : Tiles items (items.stop (i - 1)) between (items.offsetFunc i))
    (gaps : ∀ gap, Piece.skip gap ∈ between → 0 < gap ∧ (gap : Int) < maxGap)
    (short : skippedBytes between ≤ 2 ^ 31) :
    Progress items maxGap (i + 1)
      { pass with
        ranges := pass.ranges ++ between.flatMap (Piece.ranges items) ++ items.addRanges i,
        lastEndOffset := items.stop i,
        result := ⟨pass.calls.length, payload items (i + 1),
          skippedBytes (closed.flatten ++ pieces) + skippedBytes between⟩ }
      closed (pieces ++ between ++ [.item i]) := by
  have extended := progress.reads.extend between noItem tiles gaps
  have total : skippedBytes (closed.flatten ++ (pieces ++ between ++ [.item i])) =
      skippedBytes (closed.flatten ++ pieces) + skippedBytes between := by
    simp only [skippedBytes_append]
    simp [skippedBytes, Piece.skipped, Nat.add_assoc]
  have skipped := progress.skipped
  refine ⟨progress.made, extended, ?_, rfl, ?_, Nat.lt_succ_of_lt progress.few, by rw [total]; omega⟩
  · rw [range_succ, ← progress.covered]
    exact (congrArg (_ ++ ·) (IoCall.indices_succ progress.reads.nonempty.le ..)).trans (append_assoc ..).symm
  · rw [total]
    simp

theorem Progress.close (progress : Progress items maxGap i pass closed pieces) :
    Progress items maxGap (i + 1)
      { startItem := i, startOffset := items.offsetFunc i, lastEndOffset := items.stop i,
        ranges := items.addRanges i, calls := pass.calls ++ [pass.ioCall i],
        result := ⟨pass.calls.length + 1, payload items (i + 1), skippedBytes (closed.flatten ++ pieces)⟩ }
      (closed ++ [pieces]) [.item i] := by
  have total : skippedBytes ((closed ++ [pieces]).flatten ++ [.item i]) = skippedBytes (closed.flatten ++ pieces) := by
    simp [skippedBytes, Piece.skipped]
  have skipped := progress.skipped
  refine ⟨rel_append progress.made (.cons progress.reads .nil), Reads.single items maxGap i, ?_, rfl, ?_, ?_, ?_⟩
  · rw [range_succ, ← progress.covered]
    simp [Pass.ioCall, IoCall.indices]
  · rw [total]
    simp
  · simpa using progress.few
  · rw [total]
    omega

end CactusDB.Common.CoalesceIo
