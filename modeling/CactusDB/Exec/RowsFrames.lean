import CactusDB.Library.Fallible
import CactusDB.Library.FixedWidth
import Mathlib.Data.List.Forall2

/-! Window frames that are counted in rows. Rows are numbered with 32 bits. -/

namespace CactusDB.Exec.RowsFrames
open Library FixedWidth Fallible List

inductive WindowFailure where
  /-- Window frame offset must not be null. -/
  | nullOffset
  /-- Window frame offset must not be negative. -/
  | negativeOffset (offset : Int)
  deriving DecidableEq

inductive FrameChannelArg where
  | constant (offset : Int)
  | column (index : Nat)

inductive BoundType where
  | kUnboundedPreceding
  | kPreceding (frameArg : FrameChannelArg)
  | kCurrentRow
  | kFollowing (frameArg : FrameChannelArg)
  | kUnboundedFollowing

structure WindowFrame where
  startType : BoundType
  endType : BoundType

structure WindowPartition where
  numRows : Nat
  offsets : Nat → Nat → Option Int
  small : numRows < 2 ^ 31

variable (partition : WindowPartition) (frame : WindowFrame)

/-- Rising numbers of 64 bits, stored with 32. -/
def iota (value : Int) (numRows : Nat) : List Int :=
  (range numRows).map fun i : Nat => signed 32 (signed 64 (value + i))

def checkOffset : Option Int → Except WindowFailure Int
  | none => .error .nullOffset
  | some offset => if 0 ≤ offset then .ok offset else .error (.negativeOffset offset)

def updateKRowsFrameBounds (isKPreceding : Bool) (startRow numRows : Nat) :
    FrameChannelArg → Except WindowFailure (List Int)
  | .constant offset => .ok (iota (signed 64 (startRow + if isKPreceding then -offset else offset)) numRows)
  | .column index => (range numRows).mapM fun i => do
    let offset ← checkOffset (partition.offsets index (startRow + i))
    return signed 32 ((startRow + i : Nat) + signed 32 (if isKPreceding then -offset else offset))

def updateFrameBounds (startRow numRows : Nat) : BoundType → Except WindowFailure (List Int)
  | .kUnboundedPreceding => .ok (replicate numRows 0)
  | .kUnboundedFollowing => .ok (replicate numRows (partition.numRows - 1))
  | .kCurrentRow => .ok (iota startRow numRows)
  | .kPreceding frameArg => updateKRowsFrameBounds partition true startRow numRows frameArg
  | .kFollowing frameArg => updateKRowsFrameBounds partition false startRow numRows frameArg

structure RowFrame where
  start : Int
  finish : Int
  valid : Bool
  deriving DecidableEq

def computeValidFrame (lastRow frameStart frameEnd : Int) : RowFrame :=
  if frameStart ≤ frameEnd ∧ 0 ≤ frameEnd ∧ frameStart ≤ lastRow then ⟨max frameStart 0, min frameEnd lastRow, true⟩
  else ⟨frameStart, frameEnd, false⟩

def BoundType.hasOffset : BoundType → Bool
  | .kPreceding _ | .kFollowing _ => true
  | _ => false

/-- Frames are checked and cut off only where a bound has an offset. -/
def computeValidFrames (frameStart frameEnd : Int) : RowFrame :=
  if frame.startType.hasOffset || frame.endType.hasOffset then
    computeValidFrame (partition.numRows - 1) frameStart frameEnd
  else ⟨frameStart, frameEnd, true⟩

def computeFrameBuffers (startRow numRows : Nat) : Except WindowFailure (List RowFrame) := do
  let rawFrameStarts ← updateFrameBounds partition startRow numRows frame.startType
  let rawFrameEnds ← updateFrameBounds partition startRow numRows frame.endType
  return zipWith (computeValidFrames partition frame) rawFrameStarts rawFrameEnds

def getOutputs : Nat → List Nat → Except WindowFailure (List RowFrame)
  | _, [] => .ok []
  | partitionOffset, numOutputRows :: calls => do
    let numRows := min numOutputRows (partition.numRows - partitionOffset)
    let frames ← computeFrameBuffers partition frame partitionOffset numRows
    return frames ++ (← getOutputs (partitionOffset + numRows) calls)

section

def offsetOf (row : Nat) : FrameChannelArg → Int
  | .constant offset => offset
  | .column index => (partition.offsets index row).getD 0

/-- There is an offset, and it is not negative. Those of a column are converted to 32 bits before they are added. -/
def HasOffset (row : Nat) : FrameChannelArg → Prop
  | .constant offset => 0 ≤ offset
  | .column index => ∃ offset, partition.offsets index row = some offset ∧ 0 ≤ offset ∧ offset ≤ 2 ^ 31

def position (row : Nat) : BoundType → Int
  | .kUnboundedPreceding => 0
  | .kPreceding frameArg => row - offsetOf partition row frameArg
  | .kCurrentRow => row
  | .kFollowing frameArg => row + offsetOf partition row frameArg
  | .kUnboundedFollowing => partition.numRows - 1

def InFrame (row : Nat) (other : Int) : Prop :=
  (0 ≤ other ∧ other < partition.numRows) ∧
    position partition row frame.startType ≤ other ∧ other ≤ position partition row frame.endType

/-- A frame is marked as valid if it has rows, and these are its rows. -/
def Exact (row : Nat) (result : RowFrame) : Prop :=
  (result.valid = true ↔ ∃ other, InFrame partition frame row other) ∧
    (result.valid = true → ∀ other, result.start ≤ other ∧ other ≤ result.finish ↔ InFrame partition frame row other)

structure Countable (row : Nat) (bound : BoundType) : Prop where
  offset : ∀ frameArg, bound = .kPreceding frameArg ∨ bound = .kFollowing frameArg → HasOffset partition row frameArg
  low : -2 ^ 31 ≤ position partition row bound
  high : position partition row bound < 2 ^ 31

structure Bounded (row : Nat) : Prop where
  start : Countable partition row frame.startType
  finish : Countable partition row frame.endType
  ordered : (frame.startType.hasOffset || frame.endType.hasOffset) = true ∨
    position partition row frame.startType ≤ position partition row frame.endType

variable {partition frame} {row : Nat} {bound : BoundType}

theorem signed_position (countable : Countable partition row bound) :
    signed 32 (position partition row bound) = position partition row bound :=
  signed_of_fits (by decide) countable.low countable.high

/-- Cutting off to 64 bits first changes nothing. -/
theorem signed_wide (value : Int) : signed 32 (signed 64 value) = signed 32 value := by
  obtain ⟨turns, same⟩ := signed_eq_add 64 value
  refine signed_congr (2 ^ 32 * turns) ?_
  rw [same]
  omega

theorem exact_computeValidFrame (inside : row < partition.numRows) :
    Exact partition frame row (computeValidFrame (partition.numRows - 1) (position partition row frame.startType)
      (position partition row frame.endType)) := by
  unfold Exact InFrame computeValidFrame
  generalize position partition row frame.startType = first
  generalize position partition row frame.endType = last
  split_ifs with valid
  · refine ⟨iff_of_true rfl ⟨max first 0, ?_⟩, fun _ other => ?_⟩
    · omega
    · simp only
      omega
  · refine ⟨iff_of_false (by simp) ?_, by simp⟩
    rintro ⟨other, inside⟩
    omega

theorem exact_computeValidFrames (inside : row < partition.numRows) (bounded : Bounded partition frame row) :
    Exact partition frame row (computeValidFrames partition frame (position partition row frame.startType)
      (position partition row frame.endType)) := by
  unfold computeValidFrames
  split_ifs with checked
  · exact exact_computeValidFrame inside
  · have between := bounded.ordered.resolve_left checked
    -- Without offsets, both bounds are rows of the partition.
    have within (bound : BoundType) (none : bound.hasOffset = false) :
        0 ≤ position partition row bound ∧ position partition row bound < partition.numRows := by
      cases bound <;> simp_all [BoundType.hasOffset, position] <;> omega
    rw [Bool.not_eq_true, Bool.or_eq_false_iff] at checked
    have first := within _ checked.1
    have last := within _ checked.2
    refine ⟨iff_of_true rfl ⟨position partition row frame.startType, first, Int.le_refl _, between⟩, fun _ other => ?_⟩
    unfold InFrame
    simp only
    omega

end

section

variable {partition frame} {start count : Nat} {bound : BoundType}

theorem updateKRows_eq (isKPreceding : Bool) {frameArg : FrameChannelArg} {value : Nat → Int}
    (offset : ∀ i < count, HasOffset partition (start + i) frameArg)
    (values : ∀ i < count, signed 32 (value (start + i)) = value (start + i))
    (is : ∀ row, value row =
      row + if isKPreceding then -offsetOf partition row frameArg else offsetOf partition row frameArg) :
    updateKRowsFrameBounds partition isKPreceding start count frameArg =
      .ok ((range count).map fun i => value (start + i)) := by
  cases frameArg with
  | constant offset =>
    refine congrArg Except.ok (map_congr_left fun i mem => ?_)
    rw [← values i (mem_range.mp mem), signed_signed_add, signed_wide, is]
    congr 1
    simp only [offsetOf]
    push_cast
    omega
  | column index =>
    refine mapM_eq_pure fun i mem => ?_
    have inside := mem_range.mp mem
    obtain ⟨known, shows, positive, _⟩ := offset i inside
    rw [← values i inside, is, offsetOf, shows, checkOffset, if_pos positive]
    refine congrArg Except.ok ?_
    rw [Int.add_comm, signed_signed_add, Int.add_comm]
    rfl

theorem updateFrameBounds_eq (countable : ∀ i < count, Countable partition (start + i) bound) :
    updateFrameBounds partition start count bound =
      .ok ((range count).map fun i => position partition (start + i) bound) := by
  have fits (i : Nat) (inside : i < count) := signed_position (countable i inside)
  cases bound with
  | kUnboundedPreceding | kUnboundedFollowing => simp [updateFrameBounds, position, map_const']
  | kCurrentRow =>
    refine congrArg Except.ok (map_congr_left fun i mem => ?_)
    rw [← fits i (mem_range.mp mem), signed_wide]
    rfl
  | kPreceding frameArg =>
    exact updateKRows_eq true (fun i inside => (countable i inside).offset frameArg (.inl rfl)) fits fun row => rfl
  | kFollowing frameArg =>
    exact updateKRows_eq false (fun i inside => (countable i inside).offset frameArg (.inr rfl)) fits fun row => rfl

theorem computeFrameBuffers_exact (inside : start + count ≤ partition.numRows)
    (bounded : ∀ row < partition.numRows, Bounded partition frame row) :
    ∃ frames, computeFrameBuffers partition frame start count = .ok frames ∧
      Forall₂ (Exact partition frame) (range' start count) frames := by
  have known (i : Nat) (small : i < count) := bounded (start + i) (by omega)
  rw [computeFrameBuffers, updateFrameBounds_eq fun i small => (known i small).start,
    updateFrameBounds_eq fun i small => (known i small).finish]
  refine ⟨_, rfl, ?_⟩
  rw [zipWith_map, zipWith_self, range'_eq_map_range, forall₂_map_left_iff, forall₂_map_right_iff, forall₂_same]
  intro i mem
  have small := mem_range.mp mem
  exact exact_computeValidFrames (by omega) (known i small)

end

/-- However many rows each call asks for, the frames of the rows are exact unless a bound needs more than 32 bits or
the bounds without offset are in the wrong order. -/
theorem rows_frames_exact (bounded : ∀ row < partition.numRows, Bounded partition frame row) (calls : List Nat) :
    ∃ frames, getOutputs partition frame 0 calls = .ok frames ∧
      Forall₂ (Exact partition frame) ((range partition.numRows).take calls.sum) frames := by
  suffices fromRow : ∀ start ≤ partition.numRows, ∃ frames, getOutputs partition frame start calls = .ok frames ∧
      Forall₂ (Exact partition frame) (range' start (min calls.sum (partition.numRows - start))) frames by
    rw [take_range, range_eq_range']
    exact fromRow 0 (Nat.zero_le _)
  induction calls with
  | nil => exact fun start _ => ⟨[], rfl, by simp⟩
  | cons numOutputRows calls ih =>
    intro start inside
    have within : start + min numOutputRows (partition.numRows - start) ≤ partition.numRows := by omega
    obtain ⟨frames, done, exact⟩ := computeFrameBuffers_exact within bounded
    obtain ⟨more, later, others⟩ := ih _ within
    have rows := range'_append_1 (s := start) (m := min numOutputRows (partition.numRows - start))
      (n := min calls.sum (partition.numRows - (start + min numOutputRows (partition.numRows - start))))
    refine ⟨frames ++ more, ?_, ?_⟩
    · rw [getOutputs, done]
      simp only [bind, Except.bind, later]
      rfl
    · have size : min (numOutputRows :: calls).sum (partition.numRows - start) =
          min numOutputRows (partition.numRows - start) +
            min calls.sum (partition.numRows - (start + min numOutputRows (partition.numRows - start))) := by
        rw [sum_cons]
        omega
      rw [size, ← rows]
      exact rel_append exact others

def threeRows : WindowPartition := ⟨3, fun _ row => some row, by decide⟩

def aroundFrame : WindowFrame := ⟨.kPreceding (.constant 1), .kFollowing (.column 0)⟩

theorem aroundFrame_exact : ∃ frames, getOutputs threeRows aroundFrame 0 [2, 2] = .ok frames ∧
    Forall₂ (Exact threeRows aroundFrame) ((range 3).take [2, 2].sum) frames := by
  refine rows_frames_exact threeRows aroundFrame (fun row inside => ?_) [2, 2]
  have small : row < 3 := inside
  refine ⟨⟨?_, ?_, ?_⟩, ⟨?_, ?_, ?_⟩, .inl rfl⟩
  · rintro frameArg (⟨⟨⟩⟩ | ⟨⟨⟩⟩)
    exact Int.zero_le_ofNat 1
  · simp [aroundFrame, position, offsetOf]
    omega
  · simp [aroundFrame, position, offsetOf]
    omega
  · rintro frameArg (⟨⟨⟩⟩ | ⟨⟨⟩⟩)
    exact ⟨row, rfl, Int.natCast_nonneg row, by omega⟩
  · simp [aroundFrame, threeRows, position, offsetOf]
    omega
  · simp [aroundFrame, threeRows, position, offsetOf]
    omega

/-- Four billion rows behind the first row, it is found again. -/
theorem wrapped_offset_finds_row :
    getOutputs threeRows ⟨.kFollowing (.constant (2 ^ 32)), .kUnboundedFollowing⟩ 0 [1] = .ok [⟨0, 2, true⟩] ∧
      ¬Exact threeRows ⟨.kFollowing (.constant (2 ^ 32)), .kUnboundedFollowing⟩ 0 ⟨0, 2, true⟩ := by
  refine ⟨by decide +kernel, fun exact => ?_⟩
  obtain ⟨other, inside, behind, _⟩ := exact.1.mp rfl
  simp only [position, offsetOf, threeRows] at inside behind
  omega

end CactusDB.Exec.RowsFrames
