import CactusDB.Exec.MergedStreams
import CactusDB.Library.FixedWidth

/-! The numbers that the nodes of a tree of losers get. The constructor computes in 32 bits where the
first leaf lies, and the tree keeps node numbers in an index type of its own. -/

namespace CactusDB.Exec.NodeNumbers
open Library FixedWidth Common.BitUtil TreeOfLosers MergedStreams

/-- The checks of the constructor, for an index type with the largest number `max`. -/
def acceptsStreams (max numStreams : Nat) : Bool := numStreams < max && 1 ≤ numStreams

/-- The loop of the constructor as it runs on `int32_t`, given up after some rounds. -/
def fillLevels32 (numStreams : Int) : Nat → Int → Int → Option (Int × Int)
  | 0, _, _ => none
  | rounds + 1, size, levelSize =>
    if levelSize < numStreams then
      fillLevels32 numStreams rounds (signed 32 (size + levelSize)) (signed 32 (levelSize * 2))
    else some (size, levelSize)

def unsigned (width : Nat) (value : Int) : Nat := (value % 2 ^ width).toNat

/-- The number of the first leaf, from what the loop leaves behind. The comparison with the power of two is
one of 64 bits without a sign. -/
def firstLeaf (numStreams size levelSize : Int) : Int :=
  if unsigned 64 numStreams = unsigned 64 (nextPowerOfTwo (unsigned 64 numStreams)) then size
  else
    let secondLastSize := levelSize.tdiv 2
    let overflow := signed 32 (numStreams - secondLastSize)
    signed 32 (signed 32 (size - secondLastSize) + overflow)

def firstStreamOf32 (streams rounds : Nat) : Option Int :=
  (fillLevels32 (signed 32 streams) rounds 0 1).map fun levels => firstLeaf (signed 32 streams) levels.1 levels.2

/-- The node numbers that `first`, `propagate` and the calls of them compute. -/
inductive NodeNumber (firstStream : Int) (numStreams : Nat) : Int → Prop
  | root : NodeNumber firstStream numStreams 0
  | left {node : Int} (known : NodeNumber firstStream numStreams node) (inner : node < firstStream) :
    NodeNumber firstStream numStreams (node * 2 + 1)
  | right {node : Int} (known : NodeNumber firstStream numStreams node) (inner : node < firstStream) :
    NodeNumber firstStream numStreams (node * 2 + 2)
  | leaf {stream : Nat} (inside : stream < numStreams) : NodeNumber firstStream numStreams (firstStream + stream)
  | up {node : Int} (known : NodeNumber firstStream numStreams node) (below : node ≠ 0) :
    NodeNumber firstStream numStreams ((node - 1).tdiv 2)

/-- The constructor puts the leaves behind the inner nodes, of which there is one less than streams, and every
node number is a number of the index type. -/
def NumbersFit (max numStreams : Nat) : Prop :=
  ∃ rounds firstStream, firstStreamOf32 numStreams rounds = some firstStream ∧ firstStream = numStreams - 1 ∧
    ∀ node, NodeNumber firstStream numStreams node → 0 ≤ node ∧ node ≤ max

section

variable {numStreams : Nat}

/-- Up to `2 ^ 30` streams the loop does the same in 32 bits as without a bound. -/
theorem fillLevels32_eq (few : numStreams ≤ 2 ^ 30) {size levelSize : Nat} {positive : 0 < levelSize}
    (before : size < levelSize) (fits : levelSize < 2 ^ 31) :
    ∃ rounds, fillLevels32 numStreams rounds size levelSize =
      some (((fillLevels numStreams size levelSize positive).1 : Int),
        ((fillLevels numStreams size levelSize positive).2 : Int)) := by
  fun_induction fillLevels numStreams size levelSize positive with
  | case1 size levelSize positive smaller ih =>
    obtain ⟨rounds, later⟩ := ih (by omega) (by omega)
    refine ⟨rounds + 1, ?_⟩
    have sum : signed 32 ((size : Int) + levelSize) = (size + levelSize : Nat) :=
      signed_of_fits (by decide) (by omega) (by omega)
    have double : signed 32 ((levelSize : Int) * 2) = (levelSize * 2 : Nat) :=
      signed_of_fits (by decide) (by omega) (by omega)
    rw [fillLevels32, if_pos (by exact_mod_cast smaller), sum, double, later]
  | case2 size levelSize positive large =>
    refine ⟨1, ?_⟩
    rw [fillLevels32, if_neg (by exact_mod_cast large)]

theorem nextPowerOfTwo_le {size : Nat} (positive : 0 < size) : nextPowerOfTwo size ≤ 2 * size := by
  have lower : 2 ^ size.log2 ≤ size := Nat.log2_self_le (Nat.ne_of_gt positive)
  unfold nextPowerOfTwo
  rw [if_neg (Nat.ne_of_gt positive)]
  dsimp only
  split <;> omega

theorem unsigned_natCast {value : Nat} (fits : value < 2 ^ 64) : unsigned 64 value = value := by
  unfold unsigned
  rw [Int.emod_eq_of_lt (by omega) (by omega), Int.toNat_natCast]

theorem firstStreamOf32_eq (few : numStreams ≤ 2 ^ 30) (present : 1 ≤ numStreams) :
    ∃ rounds, firstStreamOf32 numStreams rounds = some ((numStreams : Int) - 1) := by
  have spec : ∃ bits, fillLevels numStreams 0 1 Nat.one_pos = (2 ^ bits - 1, 2 ^ bits) ∧ numStreams ≤ 2 ^ bits ∧
      (bits = 0 ∨ 2 ^ bits / 2 < numStreams) := fillLevels_spec rfl ⟨0, rfl⟩ (.inl rfl)
  obtain ⟨bits, filled, room, least⟩ := spec
  obtain ⟨rounds, levels⟩ := @fillLevels32_eq numStreams few 0 1 Nat.one_pos Nat.one_pos (by decide)
  have number := firstStreamOf_eq present
  have own : signed 32 (numStreams : Int) = numStreams := signed_of_fits (by decide) (by omega) (by omega)
  have bound := nextPowerOfTwo_le present
  have small : 2 ^ bits < 2 ^ 31 := by
    rcases least with rfl | half
    · decide
    · omega
  rw [filled] at levels
  unfold firstStreamOf at number
  rw [filled] at number
  dsimp only at number levels
  refine ⟨rounds, ?_⟩
  have start : fillLevels32 numStreams rounds 0 1 = some (((2 ^ bits - 1 : Nat) : Int), ((2 ^ bits : Nat) : Int)) :=
    levels
  rw [firstStreamOf32, own, start, Option.map_some, Option.some.injEq, firstLeaf, unsigned_natCast (by omega),
    unsigned_natCast (by omega)]
  generalize 2 ^ bits = width at *
  split at number
  · next power =>
      rw [if_pos power]
      omega
  · next other =>
      have half : ((width : Nat) : Int).tdiv 2 = (width / 2 : Nat) := by
        rw [Int.tdiv_eq_ediv_of_nonneg (Int.natCast_nonneg _)]
        omega
      have overflow : signed 32 ((numStreams : Int) - (width / 2 : Nat)) = (numStreams : Int) - (width / 2 : Nat) :=
        signed_of_fits (by decide) (by omega) (by omega)
      have rest : signed 32 (((width - 1 : Nat) : Int) - (width / 2 : Nat)) = ((width - 1 : Nat) : Int) - (width / 2 :
        Nat) :=
        signed_of_fits (by decide) (by omega) (by omega)
      rw [if_neg other]
      dsimp only
      rw [half, overflow, rest, signed_of_fits (by decide) (by omega) (by omega)]
      omega

end

/-- The sizes of the levels that 32 bits can hold: the powers of two, then the least number, then zero. -/
def LevelSize (levelSize : Int) : Prop := (∃ bits ≤ 30, levelSize = 2 ^ bits) ∨ levelSize = -2 ^ 31 ∨ levelSize = 0

theorem LevelSize.double {levelSize : Int} (level : LevelSize levelSize) : LevelSize (signed 32 (levelSize * 2)) := by
  obtain ⟨bits, small, rfl⟩ | rfl | rfl := level
  · by_cases last : bits = 30
    · subst last
      exact .inr (.inl (by decide))
    · have less : (2 : Int) ^ (bits + 1) ≤ 2 ^ 30 := pow_le_pow_right₀ (by decide) (by omega)
      have positive : (0 : Int) < 2 ^ (bits + 1) := pow_pos (by decide) _
      rw [← pow_succ, signed_of_fits (by decide) (by omega) (by omega)]
      exact .inl ⟨bits + 1, by omega, rfl⟩
  · exact .inr (.inr (by decide))
  · exact .inr (.inr (by decide))

theorem LevelSize.le {levelSize : Int} (level : LevelSize levelSize) : levelSize ≤ 2 ^ 30 := by
  obtain ⟨bits, small, rfl⟩ | rfl | rfl := level
  · exact pow_le_pow_right₀ (by decide) small
  · decide
  · decide

/-- With more than `2 ^ 30` streams no level is large enough, and the loop does not end. -/
theorem fillLevels32_endless {numStreams : Int} (many : 2 ^ 30 < numStreams) (rounds : Nat) {size levelSize : Int}
    (level : LevelSize levelSize) : fillLevels32 numStreams rounds size levelSize = none := by
  induction rounds generalizing size levelSize with
  | zero => rfl
  | succ rounds ih =>
    have less := level.le
    rw [fillLevels32, if_pos (by omega)]
    exact ih level.double

theorem fillLevels32_size_lt {numStreams : Int} {rounds : Nat} {size levelSize : Int} {levels : Int × Int}
    (bound : size < 2 ^ 31) (filled : fillLevels32 numStreams rounds size levelSize = some levels) :
      levels.1 < 2 ^ 31 := by
  induction rounds generalizing size levelSize with
  | zero => cases filled
  | succ rounds ih =>
    rw [fillLevels32] at filled
    split at filled
    · exact ih (signed_bounds (by decide) _).2 filled
    · obtain rfl := Option.some.inj filled
      exact bound

theorem firstLeaf_lt (numStreams levelSize : Int) {size : Int} (bound : size < 2 ^ 31) :
    firstLeaf numStreams size levelSize < 2 ^ 31 := by
  unfold firstLeaf
  split
  · exact bound
  · exact (signed_bounds (by decide) _).2

/-- A negative number of streams leaves the loop at once, with a first leaf that is not positive. -/
theorem firstLeaf_of_neg {numStreams : Int} (low : -2 ^ 31 ≤ numStreams) (negative : numStreams < 0) :
    firstLeaf numStreams 0 1 ≤ 0 := by
  unfold firstLeaf
  split
  · exact Int.le_refl 0
  · have half : (1 : Int).tdiv 2 = 0 := by decide
    have zero : signed 32 0 = 0 := by decide
    have own : signed 32 numStreams = numStreams := signed_of_fits (by decide) low (by omega)
    dsimp only
    rw [half, Int.sub_zero, Int.sub_zero, zero, Int.zero_add, own, own]
    exact Int.le_of_lt negative

/-- The first leaf is where it belongs for at most `2 ^ 30` streams. -/
theorem few_of_firstStreamOf32 {numStreams rounds : Nat} (present : 1 ≤ numStreams)
    (constructed : firstStreamOf32 numStreams rounds = some ((numStreams : Int) - 1)) : numStreams ≤ 2 ^ 30 := by
  obtain ⟨levels, filled, leaf⟩ := Option.map_eq_some_iff.mp constructed
  by_contra many
  rcases Nat.lt_or_ge numStreams (2 ^ 31) with less | more
  · have own : signed 32 (numStreams : Int) = numStreams := signed_of_fits (by decide) (by omega) (by omega)
    have endless : fillLevels32 numStreams rounds 0 1 = none :=
      fillLevels32_endless (by omega) rounds (.inl ⟨0, by decide, rfl⟩)
    rw [own, endless] at filled
    cases filled
  · have below := firstLeaf_lt (signed 32 numStreams) levels.2 (fillLevels32_size_lt (by decide) filled)
    have exact : numStreams = 2 ^ 31 := by omega
    subst exact
    have own : signed 32 ((2 ^ 31 : Nat) : Int) = -2 ^ 31 := by decide
    rw [own] at filled leaf
    cases rounds with
    | zero => cases filled
    | succ rounds =>
      rw [fillLevels32, if_neg (by decide)] at filled
      obtain rfl := Option.some.inj filled
      have low : firstLeaf (-2 ^ 31) 0 1 ≤ 0 := firstLeaf_of_neg (by decide) (by decide)
      rw [leaf] at low
      exact absurd low (by decide)

theorem NodeNumber.bounds {numStreams : Nat} {node : Int} (present : 1 ≤ numStreams)
    (number : NodeNumber ((numStreams : Int) - 1) numStreams node) : 0 ≤ node ∧ node ≤ 2 * numStreams - 2 := by
  induction number with
  | root => omega
  | left _ inner => omega
  | right _ inner => omega
  | leaf inside => omega
  | up _ below ih =>
    rw [Int.tdiv_eq_ediv_of_nonneg (by omega)]
    omega

/-- The constructor is right about the first leaf and all node numbers are numbers of the index type exactly for
half as many streams as the type has numbers, and no more than `2 ^ 30`. -/
theorem numbersFit_iff {max numStreams : Nat} (accepted : acceptsStreams max numStreams = true) :
    NumbersFit max numStreams ↔ 2 * numStreams ≤ max + 2 ∧ numStreams ≤ 2 ^ 30 := by
  have present : 1 ≤ numStreams := of_decide_eq_true (Bool.and_eq_true_iff.mp accepted).2
  constructor
  · rintro ⟨rounds, firstStream, constructed, rfl, fit⟩
    have last := fit _ (.leaf (Nat.sub_one_lt_of_lt present))
    exact ⟨by omega, few_of_firstStreamOf32 present constructed⟩
  · rintro ⟨half, few⟩
    obtain ⟨rounds, constructed⟩ := firstStreamOf32_eq few present
    refine ⟨rounds, _, constructed, rfl, fun node number => ?_⟩
    have bounds := number.bounds present
    omega

theorem twelve_streams_fit : acceptsStreams 255 12 = true ∧ NumbersFit 255 12 :=
  ⟨by decide, (numbersFit_iff (by decide)).mpr (by decide)⟩

/-- The leaf of the last of 40000 streams is beyond the numbers of `uint16_t`. -/
theorem last_leaf_too_large :
    acceptsStreams 65535 40000 = true ∧ NodeNumber 39999 40000 79998 ∧ ¬ NumbersFit 65535 40000 := by
  have last : NodeNumber 39999 40000 (39999 + (39999 : Nat)) := .leaf (by decide)
  refine ⟨by decide, last, ?_⟩
  rintro ⟨rounds, firstStream, constructed, rfl, fit⟩
  have bound := (fit 79998 last).2
  omega

end CactusDB.Exec.NodeNumbers
