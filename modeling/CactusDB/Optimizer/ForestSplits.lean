import CactusDB.Library.FixedWidth
import CactusDB.Library.TextScan

/-! The decision-forest rewrite writes the paths of the trees to a fixed number of files, from
which the new plan scans them. -/

namespace CactusDB.Optimizer.ForestSplits
open Library FixedWidth TextScan List

def numTreeSplits : Nat := 8

/-- A row of a split: the 16-bit tree id and the path of the tree. -/
abbrev TreeRow := Int × Text

section
variable (pathVectors : List Text)

def numTrees : Int := signed 32 pathVectors.length

/-- The quotient is taken over integers, so the `ceil` around it has nothing left to round. -/
def numTreeRowsPerSplit : Nat := ((numTrees pathVectors).tdiv numTreeSplits).toNat

def treeRow (treeIndex : Nat) : TreeRow := (signed 16 treeIndex, pathVectors.getD treeIndex [])

/-- The splits that the loop still writes from split `i` on. -/
def splitsFrom (i treeIndex : Nat) : Nat → List (List TreeRow)
  | 0 => []
  | remaining + 1 =>
    let endIdx := min (treeIndex + (i + 1) * numTreeRowsPerSplit pathVectors) (numTrees pathVectors).toNat
    (range' treeIndex (endIdx - treeIndex)).map (treeRow pathVectors)
      :: splitsFrom (i + 1) endIdx remaining

def treeSplits : List (List TreeRow) := splitsFrom pathVectors 0 0 numTreeSplits

end

/-- The splits written from one on hold consecutive trees, up to the last tree or to the sum of
the planned sizes. -/
theorem splitsFrom_consecutive (pathVectors : List Text) (remaining i treeIndex : Nat)
    (inside : treeIndex ≤ (numTrees pathVectors).toNat) :
    (splitsFrom pathVectors i treeIndex remaining).flatten =
      (range' treeIndex (min ((numTrees pathVectors).toNat - treeIndex)
        ((range' (i + 1) remaining).sum * numTreeRowsPerSplit pathVectors))).map (treeRow pathVectors) := by
  induction remaining generalizing i treeIndex with
  | zero => simp [splitsFrom]
  | succ remaining ih =>
    simp only [splitsFrom, flatten_cons]
    rw [ih (i + 1) _ (Nat.min_le_right _ _), ← map_append, range'_succ, sum_cons, Nat.add_mul (i + 1)]
    generalize (range' (i + 1 + 1) remaining).sum * _ = later
    generalize (i + 1) * _ = size
    have reached : min (treeIndex + size) (numTrees pathVectors).toNat =
        treeIndex + (min (treeIndex + size) (numTrees pathVectors).toNat - treeIndex) := by omega
    congr 1
    rw [reached, Nat.add_sub_cancel_left, range'_append_1]
    congr 1
    omega

theorem rows_in_order (pathVectors : List Text) :
    (range pathVectors.length).map (treeRow pathVectors) =
      pathVectors.mapIdx fun i path => ((signed 16 i, path) : TreeRow) := by
  apply ext_getElem (by simp)
  intro i inRows inPaths
  have bound : i < pathVectors.length := by simpa using inPaths
  simp [treeRow, bound]

section
variable {pathVectors : List Text} (countable : pathVectors.length < 2 ^ 31)
include countable

theorem numTrees_eq : numTrees pathVectors = pathVectors.length :=
  signed_of_fits (by decide) (by omega) (by omega)

theorem numTreeRowsPerSplit_eq : numTreeRowsPerSplit pathVectors = pathVectors.length / 8 := by
  rw [numTreeRowsPerSplit, numTrees_eq countable, numTreeSplits, Int.tdiv_eq_ediv_of_nonneg (Int.natCast_nonneg _)]
  omega

/-- The splits hold the first trees of the forest, as many as the planned sizes allow for. -/
theorem treeSplits_flatten :
    (treeSplits pathVectors).flatten =
      (range (min pathVectors.length (36 * (pathVectors.length / 8)))).map (treeRow pathVectors) := by
  have planned : (range' 1 8).sum = 36 := by decide
  rw [treeSplits, splitsFrom_consecutive _ _ _ _ (Nat.zero_le _), numTrees_eq countable,
    numTreeRowsPerSplit_eq countable, range_eq_range', numTreeSplits, Nat.zero_add, planned, Int.toNat_natCast,
    Nat.sub_zero]

/-- The splits hold every tree exactly once, in the order of the forest, exactly when there are at least
as many trees as splits. -/
theorem treeSplits_partition_iff (inhabited : pathVectors ≠ []) :
    (treeSplits pathVectors).flatten = pathVectors.mapIdx (fun i path => (signed 16 i, path)) ↔
      8 ≤ pathVectors.length := by
  have positive := length_pos_of_ne_nil inhabited
  rw [treeSplits_flatten countable, ← rows_in_order]
  constructor
  · intro same
    have lengths := congrArg length same
    rw [length_map, length_map, length_range, length_range] at lengths
    omega
  · intro enough
    have whole : min pathVectors.length (36 * (pathVectors.length / 8)) = pathVectors.length := by omega
    rw [whole]

end

def nineTrees : List Text := (range 9).map fun i => replicate (i + 1) 'x'

theorem nine_trees_split :
    (treeSplits nineTrees).flatten = nineTrees.mapIdx fun i path => (signed 16 i, path) :=
  (treeSplits_partition_iff (by decide) (by decide)).mpr (by decide)

/-- A forest of seven trees loses all of them: no split has a row. -/
theorem seven_trees_lost :
    (treeSplits (replicate 7 "tree".toList)).flatten ≠
        (replicate 7 "tree".toList).mapIdx (fun i path => (signed 16 i, path)) ∧
      (treeSplits (replicate 7 "tree".toList)).flatten = [] := by
  decide

end CactusDB.Optimizer.ForestSplits
