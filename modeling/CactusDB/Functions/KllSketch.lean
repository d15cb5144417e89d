import CactusDB.Functions.KllBuffers
import CactusDB.Library.FixedWidth
import CactusDB.Library.WeakOrder

/-! A sketch for quantiles: levels of items in one buffer, where an item of level `i` stands for `2 ^ i` values.
Offsets into the buffer are numbers of 32 bits. -/

namespace CactusDB.Functions

open Library Buffer FixedWidth WeakOrder KllBuffers List

inductive KllFailure where
  /-- An array is read or written outside of its bounds. Debug builds stop with a check. -/
  | outOfBounds
  /-- A loop does not end. -/
  | endless
  /-- `finish()` must be called before estimate quantiles. -/
  | notFinished
  /-- A repeated value needs more levels than `kMaxLevel`. -/
  | tooManyLevels (numLevels : Nat)
  /-- Unsupported version. -/
  | unsupportedVersion (version : Nat)
  deriving DecidableEq

/-- What the type of the values and the standard library bring. -/
structure KllTraits (α : Type) where
  less : α → α → Bool
  equal : α → α → Bool
  sort : List α → List α
  /-- The place of the range at the top of a priority queue. -/
  top : List (List α) → Nat
  /-- The product of `k` and a power of two thirds, cut off to an integer. -/
  scaled : Nat → Nat → Nat
  encode : α → List Nat
  decode : List Nat → α
  width : Nat

structure KllSketch (α : Type) where
  k : Nat
  n : Nat
  minValue : α
  maxValue : α
  items : List α
  levels : List Nat
  isLevelZeroSorted : Bool
  /-- The bits that are drawn next. -/
  randomBit : Nat → Bool

namespace KllSketch

variable {α : Type} [Inhabited α] (traits : KllTraits α)

def kMaxLevel : Nat := 60

def kMinBufferWidth : Nat := 8

/-- The powers of two thirds are read from an array of `kMaxLevel` numbers. -/
def levelCapacity (k numLevels height : Nat) : Except KllFailure Nat :=
  if numLevels - height - 1 < kMaxLevel then .ok (max kMinBufferWidth (traits.scaled k (numLevels - height - 1)))
  else .error .outOfBounds

def computeTotalCapacity (k numLevels : Nat) : Except KllFailure Nat :=
  (range numLevels).foldlM (fun total height => return total + (← levelCapacity traits k numLevels height)) 0

/-- The logarithm of `p`. The power it is compared with wraps around to zero at the last bit. -/
def floorLog2 (p : Nat) : Except KllFailure Nat := if p < 2 ^ 63 then .ok p.log2 else .error .endless

def sumSampleWeights (numLevels : Nat) (levels : List Nat) : Nat :=
  ((range numLevels).map fun level => 2 ^ level * (levels.getD (level + 1) 0 - levels.getD level 0)).sum

section

omit [Inhabited α]

variable (sketch : KllSketch α)

def numLevels : Nat := sketch.levels.length - 1

def levelAt (index : Nat) : Nat := sketch.levels.getD index 0

def safeLevelSize (level : Nat) : Nat :=
  if level < sketch.numLevels then sketch.levelAt (level + 1) - sketch.levelAt level else 0

def getNumRetained : Nat := sketch.levels.getLastD 0 - sketch.levelAt 0

def level (index : Nat) : List α := slice sketch.items (sketch.levelAt index) (sketch.safeLevelSize index)

end

def create (k : Nat) (seed : Nat → Bool) (minValue maxValue : α) : KllSketch α :=
  ⟨k, 0, minValue, maxValue, [], [0, 0], false, seed⟩

def shiftItems (sketch : KllSketch α) (delta : Nat) : KllSketch α :=
  { sketch with
    items := overwrite (sketch.items ++ replicate delta default) delta sketch.items
    levels := sketch.levels.map (· + delta) }

def findLevelFrom (sketch : KllSketch α) : Nat → Nat → Except KllFailure Nat
  | 0, _ => .error .outOfBounds
  | rounds + 1, level =>
    if sketch.levels.length ≤ level + 1 then .error .outOfBounds
    else do
      let pop := sketch.levelAt (level + 1) - sketch.levelAt level
      let cap ← levelCapacity traits sketch.k sketch.numLevels level
      if cap ≤ pop ∨ level + 1 = sketch.numLevels then return level
      else findLevelFrom sketch rounds (level + 1)

section

variable (sketch : KllSketch α)

def findLevelToCompact : Except KllFailure Nat :=
  findLevelFrom traits sketch sketch.levels.length 0

def addEmptyTopLevelToCompletelyFullSketch : Except KllFailure (KllSketch α) := do
  let deltaCap ← levelCapacity traits sketch.k (sketch.numLevels + 1) 0
  let sketch := sketch.shiftItems deltaCap
  return { sketch with levels := sketch.levels ++ [sketch.levels.getLastD 0] }

def compactLevel (level : Nat) : KllSketch α :=
  let rawBeg := sketch.levelAt level
  let rawLim := sketch.levelAt (level + 1)
  let popAbove := sketch.levelAt (level + 2) - rawLim
  let rawPop := rawLim - rawBeg
  let oddPop := rawPop % 2
  let adjBeg := rawBeg + oddPop
  let adjPop := rawPop - oddPop
  let halfAdjPop := adjPop / 2
  let items := compactRange traits.less traits.sort sketch.items adjBeg adjPop popAbove
    (level = 0 && !sketch.isLevelZeroSorted) (sketch.randomBit 0)
  let start := rawLim - halfAdjPop - oddPop
  let items := if oddPop = 1 ∧ start ≠ rawBeg then items.set start (items.getD rawBeg default) else items
  let levels := (sketch.levels.set (level + 1) (rawLim - halfAdjPop)).set level start
  let bottom := levels.getD 0 0
  { sketch with
    items := if 0 < level then overwrite items (bottom + halfAdjPop) (slice items bottom (rawBeg - bottom)) else items
    levels := (levels.take level).map (· + halfAdjPop) ++ levels.drop level
    randomBit := fun draw => sketch.randomBit (draw + 1) }

def makeRoom : Except KllFailure (KllSketch α) := do
  let level ← findLevelToCompact traits sketch
  if level = sketch.numLevels - 1 then
    let total ← computeTotalCapacity traits sketch.k sketch.numLevels
    let delta := signed 32 ((total : Int) - sketch.items.length)
    if 0 < delta then return sketch.shiftItems delta.toNat
    else return compactLevel traits (← addEmptyTopLevelToCompletelyFullSketch traits sketch) level
  else return compactLevel traits sketch level

def insertPosition : Except KllFailure (Nat × KllSketch α) := do
  let sketch ← if sketch.levelAt 0 = 0 then makeRoom traits sketch else .ok sketch
  let position := sketch.levelAt 0 - 1
  return (position, { sketch with levels := sketch.levels.set 0 position })

def doInsert (value : α) : Except KllFailure (KllSketch α) := do
  let sketch ←
    if sketch.items.length < sketch.k ∧ sketch.numLevels = 1 then
      pure { sketch with
        items := sketch.items ++ [value]
        levels := sketch.levels.set 1 (sketch.levelAt 1 + 1) }
    else do
      let (position, sketch) ← insertPosition traits sketch
      pure { sketch with items := sketch.items.set position value }
  return { sketch with
    n := (sketch.n + 1) % 2 ^ 64
    isLevelZeroSorted := false }

end

def least (left right : α) : α := if traits.less right left then right else left

def greatest (left right : α) : α := if traits.less left right then right else left

def insert (sketch : KllSketch α) (value : α) : Except KllFailure (KllSketch α) :=
  let sketch :=
    if sketch.n = 0 then { sketch with minValue := value, maxValue := value }
    else { sketch with
      minValue := least traits sketch.minValue value
      maxValue := greatest traits sketch.maxValue value }
  doInsert traits sketch value

section

def finish (sketch : KllSketch α) : KllSketch α :=
  if sketch.isLevelZeroSorted then sketch
  else
    { sketch with
      items := overwrite sketch.items (sketch.levelAt 0)
        (traits.sort (slice sketch.items (sketch.levelAt 0) (sketch.levelAt 1 - sketch.levelAt 0)))
      isLevelZeroSorted := true }

/-- Of two equal neighbours one moves to the level above. The other items move to the place `k`. -/
def collapse (items : List α) (k j stop : Nat) (moved : List α) : Nat → List α × Nat × List α
  | 0 => (items, k, moved)
  | rounds + 1 =>
    if j < stop then
      if j + 1 < stop ∧ traits.equal (items.getD j default) (items.getD (j + 1) default) = true then
        collapse items k (j + 2) stop (moved ++ [items.getD j default]) rounds
      else collapse (items.set k (items.getD j default)) (k + 1) (j + 1) stop moved rounds
    else (items, k, moved)

def mergeMoved (items moved : List α) (start stop : Nat) : List α × Nat :=
  if moved.isEmpty then (items, start)
  else
    let begin := start - moved.length
    let items := overwrite items begin moved
    (overwrite items begin (mergeBy (fun one other => !traits.less other one) (slice items begin moved.length)
      (slice items start (stop - start))), begin)

def compactFrom (items : List α) (levels : List Nat) (k : Nat) (moved : List α) (start stop index : Nat) :
    Nat → Except KllFailure (List α × List Nat)
  | 0 => .error .endless
  | rounds + 1 =>
    if index < levels.length - 1 then
      if start < k + moved.length then .error .outOfBounds
      else
        let (items, start) := mergeMoved traits items moved start stop
        let (items, k, moved) := collapse traits items k start stop [] (stop - start)
        let levels :=
          if index + 1 = levels.length - 1 ∧ moved.isEmpty = false then levels ++ [levels.getLastD 0] else levels
        let next := if index + 1 < levels.length - 1 then levels.getD (index + 2) 0 else stop
        compactFrom items (levels.set (index + 1) k) k moved stop next (index + 1) rounds
    else .ok (items.take k, levels)

def compact (sketch : KllSketch α) : Except KllFailure (KllSketch α) := do
  let sketch := finish traits sketch
  if sketch.levels.length < 2 then .error .outOfBounds
  else
    let (items, levels) ← compactFrom traits sketch.items (sketch.levels.set 0 0) 0 [] (sketch.levelAt 0)
      (sketch.levelAt 1) 0 (sketch.numLevels + sketch.items.length + 1)
    return { sketch with items := items, levels := levels }

omit [Inhabited α] in
def gather (value : α) (weight : Nat) : List (α × Nat) → List (α × Nat)
  | [] => [(value, weight)]
  | (other, more) :: rest =>
    if traits.equal other value then gather value (weight + more) rest
    else (value, weight) :: gather other more rest

/-- The items of a level are counted by a signed number of 32 bits, which ends below the end of the level. -/
def pastInt (levels : List Nat) (index : Nat) : Bool :=
  decide (levels.getD index 0 < levels.getD (index + 1) 0 ∧ 2 ^ 31 ≤ levels.getD (index + 1) 0)

theorem any_pastInt {levels : List Nat} (small : ∀ offset ∈ levels, offset < 2 ^ 31) (indices : List Nat) :
    indices.any (pastInt levels) = false := by
  rw [any_eq_false]
  intro index _ past
  have large := (of_decide_eq_true past).2
  rcases lt_or_ge (index + 1) levels.length with inside | behind
  · rw [getD_eq_getElem _ _ inside] at large
    exact Nat.not_le_of_lt (small _ (getElem_mem inside)) large
  · rw [getD_eq_default _ _ behind] at large
    exact absurd large (by decide)

omit [Inhabited α] in
def getFrequencies (sketch : KllSketch α) : Except KllFailure (List (α × Nat)) :=
  if sketch.isLevelZeroSorted then
    if (range sketch.numLevels).any (pastInt sketch.levels) then .error .outOfBounds
    else
      let entries := (range sketch.numLevels).foldl (fun entries index =>
        mergeBy (fun one other => !traits.less other.1 one.1) entries
          ((sketch.level index).map fun item => (item, 2 ^ index))) []
      .ok (match entries with
        | [] => []
        | (value, weight) :: rest => gather traits value weight rest)
  else .error .notFinished

end

section

structure View (α : Type) where
  k : Nat
  n : Nat
  minValue : α
  maxValue : α
  items : List α
  levels : List Nat

omit [Inhabited α] in
def toView (sketch : KllSketch α) : View α :=
  ⟨sketch.k, sketch.n, sketch.minValue, sketch.maxValue, sketch.items, sketch.levels⟩

omit [Inhabited α] in
def isSorted : List α → Bool
  | first :: second :: rest => !traits.less second first && isSorted (second :: rest)
  | _ => true

omit [Inhabited α] in
def fromView (view : View α) (seed : Nat → Bool) : KllSketch α :=
  ⟨view.k, view.n, view.minValue, view.maxValue, view.items, view.levels,
    isSorted traits (slice view.items (view.levels.getD 0 0) (view.levels.getD 1 0 - view.levels.getD 0 0)), seed⟩

namespace View

omit [Inhabited α]

variable (view : View α)

def numLevels : Nat := view.levels.length - 1

def safeLevelSize (level : Nat) : Nat :=
  if level < view.numLevels then view.levels.getD (level + 1) 0 - view.levels.getD level 0 else 0

def level (index : Nat) : List α := slice view.items (view.levels.getD index 0) (view.safeLevelSize index)

end View

def kVersion : Nat := 1

omit [Inhabited α] in
def serialize (sketch : KllSketch α) : List Nat :=
  toBytes 2 kVersion ++ toBytes 4 sketch.k ++ toBytes 8 sketch.n ++ traits.encode sketch.minValue ++
    traits.encode sketch.maxValue ++ toBytes 8 sketch.items.length ++ sketch.items.flatMap traits.encode ++
    toBytes 8 sketch.levels.length ++ sketch.levels.flatMap (toBytes 4)

def readNumber (data : List Nat) (offset count : Nat) : Nat := ofBytes (slice data offset count)

omit [Inhabited α] in
def deserializeView (data : List Nat) : Except KllFailure (View α) :=
  let version := readNumber data 0 2
  if version = kVersion then
    let valuesAt := 14
    let sizeAt := valuesAt + 2 * traits.width
    let size := readNumber data sizeAt 8
    let itemsAt := sizeAt + 8
    let levelsSizeAt := itemsAt + traits.width * size
    let levelsSize := readNumber data levelsSizeAt 8
    .ok {
      k := readNumber data 2 4
      n := readNumber data 6 8
      minValue := traits.decode (slice data valuesAt traits.width)
      maxValue := traits.decode (slice data (valuesAt + traits.width) traits.width)
      items := (range size).map fun index => traits.decode (slice data (itemsAt + traits.width * index) traits.width)
      levels := (range levelsSize).map fun index => readNumber data (levelsSizeAt + 8 + 4 * index) 4 }
  else .error (.unsupportedVersion version)

omit [Inhabited α] in
def deserialize (data : List Nat) (seed : Nat → Bool) : Except KllFailure (KllSketch α) := do
  return fromView traits (← deserializeView traits data) seed

end

structure Compression (α : Type) where
  items : List α
  inLevels : List Nat
  outLevels : List Nat
  currentNumLevels : Nat
  currentItemCount : Nat
  targetItemCount : Nat
  randomBit : Nat → Bool

def moveOver (state : Compression α) (level : Nat) : Compression α :=
  let rawBeg := state.inLevels.getD level 0
  let rawPop := state.inLevels.getD (level + 1) 0 - rawBeg
  let out := state.outLevels.getD level 0
  { state with
    items := overwrite state.items out (slice state.items rawBeg rawPop)
    outLevels := state.outLevels.set (level + 1) (out + rawPop) }

def halveOver (isLevelZeroSorted : Bool) (state : Compression α) (level : Nat) : Compression α :=
  let rawBeg := state.inLevels.getD level 0
  let rawLim := state.inLevels.getD (level + 1) 0
  let rawPop := rawLim - rawBeg
  let popAbove := state.inLevels.getD (level + 2) 0 - rawLim
  let oddPop := rawPop % 2
  let adjBeg := rawBeg + oddPop
  let adjPop := rawPop - oddPop
  let halfAdjPop := adjPop / 2
  let out := state.outLevels.getD level 0
  let items := if oddPop = 1 then state.items.set out (state.items.getD rawBeg default) else state.items
  { state with
    items := compactRange traits.less traits.sort items adjBeg adjPop popAbove (level = 0 && !isLevelZeroSorted)
      (state.randomBit 0)
    outLevels := state.outLevels.set (level + 1) (out + oddPop)
    currentItemCount := state.currentItemCount - halfAdjPop
    inLevels := state.inLevels.set (level + 1) (rawLim - halfAdjPop)
    randomBit := fun draw => state.randomBit (draw + 1) }

def compactOver (k : Nat) (isLevelZeroSorted : Bool) (state : Compression α) (level : Nat) :
    Except KllFailure (Compression α) := do
  let state := halveOver traits isLevelZeroSorted state level
  if level = state.currentNumLevels - 1 then
    let added ← levelCapacity traits k (state.currentNumLevels + 1) 0
    return { state with
      currentNumLevels := state.currentNumLevels + 1
      targetItemCount := state.targetItemCount + added }
  else return state

def openTop (state : Compression α) (level : Nat) : Compression α :=
  if level = state.currentNumLevels - 1 then
    { state with inLevels := state.inLevels.set (level + 2) (state.inLevels.getD (level + 1) 0) }
  else state

section

variable (k : Nat) (isLevelZeroSorted : Bool) (state : Compression α) (level : Nat)

/-- Only a full level is compacted, and only while there are too many items. -/
def compressOpened :
    Except KllFailure (Compression α) :=
  if state.inLevels.length ≤ level + 2 then .error .outOfBounds
  else if state.currentItemCount < state.targetItemCount then .ok (moveOver state level)
  else do
    let rawPop := state.inLevels.getD (level + 1) 0 - state.inLevels.getD level 0
    if rawPop < (← levelCapacity traits k state.currentNumLevels level) then return moveOver state level
    else compactOver traits k isLevelZeroSorted state level

def compressLevel :
    Except KllFailure (Compression α) :=
  compressOpened traits k isLevelZeroSorted (openTop state level) level

end

def compressFrom (k : Nat) (isLevelZeroSorted : Bool) (state : Compression α) (level : Nat) :
    Nat → Except KllFailure (Compression α)
  | 0 => .error .outOfBounds
  | rounds + 1 =>
    if level < state.currentNumLevels then do
      let state ← compressLevel traits k isLevelZeroSorted state level
      compressFrom k isLevelZeroSorted state (level + 1) rounds
    else .ok state

def generalCompress (k numLevelsIn : Nat) (items : List α) (inLevels outLevels : List Nat) (isLevelZeroSorted : Bool)
    (randomBit : Nat → Bool) : Except KllFailure (Compression α) := do
  let targetItemCount ← computeTotalCapacity traits k numLevelsIn
  compressFrom traits k isLevelZeroSorted
    { items := items
      inLevels := inLevels
      outLevels := outLevels.set 0 0
      currentNumLevels := numLevelsIn
      currentItemCount := inLevels.getD numLevelsIn 0 - inLevels.getD 0 0
      targetItemCount := targetItemCount
      randomBit := randomBit } 0 (inLevels.length + 1)

def drain (queue : List (List α)) : Nat → List α
  | 0 => []
  | rounds + 1 =>
    match queue.getD (traits.top queue) [] with
    | [] => []
    | item :: rest =>
      let others := queue.eraseIdx (traits.top queue)
      item :: drain (if rest.isEmpty then others else rest :: others) rounds

def mergeRange (state : Nat × α × α) (other : View α) : Nat × α × α :=
  if other.n = 0 then state
  else
    let (newN, minValue, maxValue) := state
    if newN = 0 then ((newN + other.n) % 2 ^ 64, other.minValue, other.maxValue)
    else
      ((newN + other.n) % 2 ^ 64, least traits minValue other.minValue, greatest traits maxValue other.maxValue)

section

variable (sketch : KllSketch α) (others : List (View α))

def rangesOf (index : Nat) : List (List α) :=
  (sketch.level index :: others.map (·.level index)).filter fun range => !range.isEmpty

def mergeLevel (work : List α × List Nat) (index : Nat) :
    List α × List Nat :=
  let ranges := rangesOf sketch others index
  let out := work.2.getD index 0
  let merged := drain traits ranges ranges.flatten.length
  (overwrite work.1 out merged, work.2.set (index + 1) (out + merged.length))

def mergeHigherLevels (tmpNumItems provisionalNumLevels newN : Nat) :
    Except KllFailure (KllSketch α) := do
  let ub := 1 + (← floorLog2 newN)
  let workLevelsSize := ub + 2
  if workLevelsSize ≤ provisionalNumLevels then .error .outOfBounds
  else
    let workbuf := overwrite (replicate tmpNumItems default) 0 (sketch.level 0)
    let worklevels := (replicate workLevelsSize 0).set 1 (sketch.safeLevelSize 0)
    let (workbuf, worklevels) := (range' 1 (provisionalNumLevels - 1)).foldl (mergeLevel traits sketch others)
      (workbuf, worklevels)
    if (range' 1 (provisionalNumLevels - 1)).any (pastInt worklevels) then .error .outOfBounds
    else
      let result ← generalCompress traits sketch.k provisionalNumLevels workbuf worklevels
        (replicate workLevelsSize 0) sketch.isLevelZeroSorted sketch.randomBit
      if result.targetItemCount < result.currentItemCount then .error .outOfBounds
      else
        let freeSpaceAtBottom := result.targetItemCount - result.currentItemCount
        let resized := (sketch.items ++ replicate result.targetItemCount default).take result.targetItemCount
        return { sketch with
          items := overwrite resized freeSpaceAtBottom (slice result.items 0 result.currentItemCount)
          levels := (result.outLevels.take (result.currentNumLevels + 1)).map (· + freeSpaceAtBottom)
          randomBit := result.randomBit }

def mergeHigher (newN : Nat) : Except KllFailure (KllSketch α) :=
  let higher := others.filter fun other => 2 ≤ other.numLevels
  let tmpNumItems := sketch.getNumRetained +
    (higher.map fun other => other.levels.getLastD 0 - other.levels.getD 1 0).sum
  let provisionalNumLevels := higher.foldl (fun most other => max most other.numLevels) sketch.numLevels
  if sketch.getNumRetained < tmpNumItems then
    mergeHigherLevels traits sketch others tmpNumItems provisionalNumLevels newN
  else .ok sketch

def mergeViews : Except KllFailure (KllSketch α) := do
  let (newN, minValue, maxValue) := others.foldl (mergeRange traits) (sketch.n, sketch.minValue, sketch.maxValue)
  let sketch := { sketch with minValue := minValue, maxValue := maxValue }
  if newN = sketch.n then return sketch
  else
    let bottoms := (others.filter fun other => other.n ≠ 0).flatMap fun other => other.level 0
    let sketch ← bottoms.foldlM (doInsert traits) sketch
    let sketch ← mergeHigher traits sketch others newN
    return { sketch with n := newN }

end

def merge (sketch : KllSketch α) (others : List (KllSketch α)) : Except KllFailure (KllSketch α) :=
  mergeViews traits sketch (others.map toView)

def mergeDeserialized (sketch : KllSketch α) (others : List (List Nat)) : Except KllFailure (KllSketch α) := do
  mergeViews traits sketch (← others.mapM (deserializeView traits))

/-- Where each level begins when level `i` has an item exactly if bit `i` of the count is set. -/
def repeatedLevels (start count : Nat) : Nat → List Nat
  | 0 => [start]
  | numLevels + 1 => start :: repeatedLevels (start + count % 2) (count / 2) numLevels

def bitLength (count : Nat) : Nat := if count = 0 then 0 else count.log2 + 1

omit [Inhabited α] in
def fromRepeatedValue (value : α) (count k : Nat) (seed : Nat → Bool) : Except KllFailure (KllSketch α) :=
  let numLevels := bitLength count
  if kMaxLevel < numLevels then .error (.tooManyLevels numLevels)
  else
    let levels := repeatedLevels 0 count numLevels
    .ok ⟨k, count, value, value, replicate (levels.getLastD 0) value, levels, true, seed⟩

end KllSketch

end CactusDB.Functions
