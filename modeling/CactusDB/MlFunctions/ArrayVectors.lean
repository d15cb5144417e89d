import CactusDB.Library.Buffer
import Mathlib.Data.List.Infix
import Mathlib.Data.List.Perm.Subperm

/-! Columns of arrays, as the vector functions see them: one buffer with the entries of all arrays, and
for every row the place of its own entries in it. -/

namespace CactusDB.MlFunctions.ArrayVectors
open Library.Buffer List

variable {K : Type}

/-- The rows that a function has to compute, in ascending order. `endRow` bounds them but need not be
the next row after the last. -/
structure SelectivityVector where
  selected : List Nat
  endRow : Nat
  ascending : selected.Pairwise (· < ·)
  bound : ∀ row ∈ selected, row < endRow

structure Span where
  offset : Nat
  size : Nat
  deriving DecidableEq

structure ArrayVector (K : Type) where
  isNullAt : Nat → Bool
  spans : List Span
  elements : List K
  inside : ∀ span ∈ spans, span.offset + span.size ≤ elements.length

structure DecodedArray (K : Type) where
  base : ArrayVector K
  index : Nat → Nat

def SelectivityVector.all (size : Nat) : SelectivityVector :=
  ⟨range size, size, pairwise_lt_range, fun _ => mem_range.mp⟩

/-- The rows are fewer than their bound. -/
theorem SelectivityVector.length_le (rows : SelectivityVector) : rows.selected.length ≤ rows.endRow := by
  have distinct : rows.selected.Nodup := rows.ascending.imp Nat.ne_of_lt
  have sublist : rows.selected.Subperm (range rows.endRow) :=
    distinct.subperm fun row mem => mem_range.mpr (rows.bound row mem)
  simpa using sublist.length_le

namespace ArrayVector

variable (vector : ArrayVector K)

def values (span : Span) : List K := slice vector.elements span.offset span.size

def valuesAt (row : Nat) : List K := ((vector.spans[row]?).map vector.values).getD []

def arrayAt (row : Nat) : Option (List K) :=
  if vector.isNullAt row then none else some (vector.valuesAt row)

/-- A vector that nobody else holds is made long enough. New rows are empty and not null. -/
def ensureWritable (endRow : Nat) : ArrayVector K where
  isNullAt row := decide (row < vector.spans.length) && vector.isNullAt row
  spans := vector.spans ++ replicate (endRow - vector.spans.length) ⟨0, 0⟩
  elements := vector.elements
  inside := by
    intro span mem
    rcases mem_append.mp mem with old | new
    · exact vector.inside span old
    · rw [eq_of_mem_replicate new]
      exact Nat.zero_le _

def clearNulls (rows : SelectivityVector) : ArrayVector K :=
  { vector with isNullAt := fun row => vector.isNullAt row && !rows.selected.contains row }

def fillZero (endRow : Nat) : ArrayVector K where
  isNullAt := vector.isNullAt
  spans := replicate endRow ⟨0, 0⟩ ++ vector.spans.drop endRow
  elements := vector.elements
  inside := by
    intro span mem
    rcases mem_append.mp mem with zero | old
    · rw [eq_of_mem_replicate zero]
      exact Nat.zero_le _
    · exact vector.inside span (mem_of_mem_drop old)

/-- The new entries are not initialised; they hold whatever `unset` says. -/
def growElements (unset : List K) : ArrayVector K where
  isNullAt := vector.isNullAt
  spans := vector.spans
  elements := vector.elements ++ unset
  inside := by
    intro span mem
    rw [length_append]
    exact Nat.le_add_right_of_le (vector.inside span mem)

def store (row position : Nat) (values : List K)
    (room : position + values.length ≤ vector.elements.length) : ArrayVector K where
  isNullAt := vector.isNullAt
  spans := vector.spans.set row ⟨position, values.length⟩
  elements := overwrite vector.elements position values
  inside := by
    intro span mem
    rw [length_overwrite room]
    rcases mem_or_eq_of_mem_set mem with old | new
    · exact vector.inside span old
    · rw [new]
      exact room

end ArrayVector

end CactusDB.MlFunctions.ArrayVectors
