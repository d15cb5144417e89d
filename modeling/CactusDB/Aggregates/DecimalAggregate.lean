import CactusDB.Library.FixedWidth
import Mathlib.Data.Finset.Card

/-! Sums of decimals. An accumulator keeps 127 bits of the sum, with its sign, and counts how often the sum went over.
-/

namespace CactusDB.Aggregates.Decimals
open Library.FixedWidth

abbrev Decimal := { value : Int // -10 ^ 38 < value ∧ value < 10 ^ 38 }

def kOverflowMultiplier : Int := 2 ^ 127

def addUnsignedValues (lhs rhs : Int) (isResultNegative : Bool) : Int × Int :=
  let unsignedSum := (lhs % 2 ^ 128 + rhs % 2 ^ 128) % 2 ^ 128
  let sum := unsignedSum % 2 ^ 127
  (if isResultNegative then -sum else sum, unsignedSum / 2 ^ 127)

def addWithOverflow (lhs rhs : Int) : Int × Int :=
  if decide (lhs < 0) = decide (rhs < 0) then
    if lhs < 0 then
      let (sum, overflow) := addUnsignedValues (-lhs) (-rhs) true
      (sum, -overflow)
    else addUnsignedValues lhs rhs false
  else (lhs + rhs, 0)

def adjustSumForOverflow (sum overflow : Int) : Option Int :=
  if (overflow = 1 ∧ sum < 0) ∨ (overflow = -1 ∧ 0 < sum) then some (signed 128 (kOverflowMultiplier * overflow + sum))
  else if overflow ≠ 0 then none
  else some sum

def valueInRange (value : Int) : Except String Unit :=
  if -10 ^ 38 + 1 ≤ value ∧ value ≤ 10 ^ 38 - 1 then .ok ()
  else .error ("Decimal overflow. Value '" ++ toString value ++ "' is not in the range of Decimal Type")

structure LongDecimalWithOverflowState where
  sum : Int
  count : Int
  overflow : Int

namespace LongDecimalWithOverflowState

def fresh : LongDecimalWithOverflowState := ⟨0, 0, 0⟩

def serializedSize : Nat := 8 * 4

def serialize (state : LongDecimalWithOverflowState) : List Nat :=
  toBytes 8 (state.count % 2 ^ 64).toNat ++ toBytes 8 (state.overflow % 2 ^ 64).toNat ++
    toBytes 8 (state.sum % 2 ^ 64).toNat ++ toBytes 8 (state.sum / 2 ^ 64 % 2 ^ 64).toNat

def word (bytes : List Nat) (place : Nat) : Nat := ofBytes ((bytes.drop (8 * place)).take 8)

variable (state : LongDecimalWithOverflowState)

def mergeWith (serializedData : List Nat) :
    Except String LongDecimalWithOverflowState :=
  if serializedData.length = serializedSize then
    let count := signed 64 (state.count + signed 64 (word serializedData 0))
    let overflow := signed 64 (state.overflow + signed 64 (word serializedData 1))
    let lowerSum := word serializedData 2
    let upperSum := word serializedData 3
    let added := addWithOverflow (signed 128 (upperSum * 2 ^ 64 + lowerSum)) state.sum
    .ok ⟨added.1, count, signed 64 (overflow + added.2)⟩
  else .error "serializedData.size() == serializedSize()"

def addValue (value : Decimal) : LongDecimalWithOverflowState :=
  let added := addWithOverflow value.1 state.sum
  { state with sum := added.1, overflow := signed 64 (state.overflow + added.2) }

def update (value : Decimal) : LongDecimalWithOverflowState :=
  let added := state.addValue value
  { added with count := signed 64 (added.count + 1) }

def computeFinalValue : Except String Int :=
  match adjustSumForOverflow state.sum state.overflow with
  | none => .error "Decimal overflow"
  | some sum => do
    valueInRange sum
    .ok sum

end LongDecimalWithOverflowState

section

structure Group where
  null : Bool
  accumulator : LongDecimalWithOverflowState

structure DecimalAggregate (G : Type) where
  groups : G → Group
  numNulls : Nat

inductive Encoding where
  | constant
  | flat (saysNulls : Bool)
  /-- A dictionary over a flat vector. -/
  | dictionary (saysNulls : Bool)
  /-- A dictionary that adds nulls to a constant. -/
  | nullsOverConstant

namespace Encoding

def isConstant : Encoding → Bool
  | constant => true
  | _ => false

def isFlat : Encoding → Bool
  | flat _ => true
  | _ => false

def saysNulls : Encoding → Bool
  | constant => false
  | flat saysNulls | dictionary saysNulls => saysNulls
  | nullsOverConstant => true

/-- What is decoded last is a `FlatVector`. A constant of scalars is its own base. -/
def hasFlatBase : Encoding → Bool
  | flat _ | dictionary _ => true
  | constant | nullsOverConstant => false

end Encoding

structure DecodedVector (T : Type) where
  isConstantMapping : Bool
  isIdentityMapping : Bool
  mayHaveNulls : Bool
  hasFlatBase : Bool
  valueAt : Nat → Option T

/-- A vector that has a null among the selected rows says so. -/
def decode {T : Type} (encoding : Encoding) (rows : List Nat) (values : Nat → Option T) : DecodedVector T :=
  if encoding.isConstant then ⟨true, false, (values 0).isNone, encoding.hasFlatBase, fun _ => values 0⟩
  else ⟨false, encoding.isFlat, encoding.saysNulls || rows.any fun row => (values row).isNone, encoding.hasFlatBase,
    values⟩

variable {G : Type} [DecidableEq G]

namespace DecimalAggregate

section

variable (self : DecimalAggregate G)

def isNull (group : G) : Bool := self.numNulls ≠ 0 && (self.groups group).null

def initializeNewGroups (indices : Finset G) : DecimalAggregate G where
  groups group := if group ∈ indices then ⟨true, .fresh⟩ else self.groups group
  numNulls := self.numNulls + indices.card

def setGroup (group : G) (value : Group) : DecimalAggregate G :=
  { self with groups := fun other => if other = group then value else self.groups other }

def clearNull (group : G) : DecimalAggregate G :=
  if self.numNulls ≠ 0 ∧ (self.groups group).null then
    { self.setGroup group { self.groups group with null := false } with numNulls := self.numNulls - 1 }
  else self

def change (tableHasNulls : Bool) (group : G)
    (operation : LongDecimalWithOverflowState → Except String LongDecimalWithOverflowState) :
    Except String (DecimalAggregate G) := do
  let cleared := if tableHasNulls then self.clearNull group else self
  let accumulator ← operation (cleared.groups group).accumulator
  .ok (cleared.setGroup group { cleared.groups group with accumulator := accumulator })

def mergeAccumulators (tableHasNulls : Bool) (group : G) (serialized : List Nat) :
    Except String (DecimalAggregate G) :=
  self.change tableHasNulls group (·.mergeWith serialized)

def updateNonNullValue (tableHasNulls : Bool) (group : G) (value : Decimal) :
    Except String (DecimalAggregate G) :=
  self.change tableHasNulls group fun state => .ok (state.update value)

end

def unlessNull {T : Type} (value : Option T) (self : DecimalAggregate G)
    (operation : DecimalAggregate G → T → Except String (DecimalAggregate G)) : Except String (DecimalAggregate G) :=
  match value with
  | none => .ok self
  | some value => operation self value

def addRawInput (self : DecimalAggregate G) (groups : Nat → G) (rows : List Nat) (decodedRaw : DecodedVector Decimal) :
    Except String (DecimalAggregate G) :=
  if decodedRaw.isConstantMapping then
    match decodedRaw.valueAt 0 with
    | none => .ok self
    | some value => rows.foldlM (fun self row => self.updateNonNullValue true (groups row) value) self
  else if decodedRaw.mayHaveNulls then
    rows.foldlM (fun self row => unlessNull (decodedRaw.valueAt row) self fun self value =>
      self.updateNonNullValue true (groups row) value) self
  else if self.numNulls = 0 ∧ decodedRaw.isIdentityMapping then
    rows.foldlM (fun self row => unlessNull (decodedRaw.valueAt row) self fun self value =>
      self.updateNonNullValue false (groups row) value) self
  else
    rows.foldlM (fun self row => unlessNull (decodedRaw.valueAt row) self fun self value =>
      self.updateNonNullValue true (groups row) value) self

def sumRows (rows : List Nat) (decodedRaw : DecodedVector Decimal) : LongDecimalWithOverflowState :=
  let state := rows.foldl (fun state row => (decodedRaw.valueAt row).elim state
    (LongDecimalWithOverflowState.addValue state))
    LongDecimalWithOverflowState.fresh
  { state with count := signed 64 rows.length }

variable (self : DecimalAggregate G)

def addSingleGroupRawInput (group : G) (rows : List Nat)
    (decodedRaw : DecodedVector Decimal) : Except String (DecimalAggregate G) :=
  if decodedRaw.isConstantMapping then
    match decodedRaw.valueAt 0 with
    | none => .ok self
    | some value => rows.foldlM (fun self _ => self.updateNonNullValue true group value) self
  else if decodedRaw.mayHaveNulls then
    rows.foldlM (fun self row => unlessNull (decodedRaw.valueAt row) self fun self value =>
      self.updateNonNullValue true group value) self
  else if self.numNulls = 0 ∧ decodedRaw.isIdentityMapping then
    self.mergeAccumulators false group (sumRows rows decodedRaw).serialize
  else self.mergeAccumulators true group (sumRows rows decodedRaw).serialize

/-- `intermediateFlatVector->valueAt`, where the cast of a base that is not flat is a null pointer. -/
def readPartial (decodedPartial : DecodedVector (List Nat)) (serialized : List Nat) : Except String (List Nat) :=
  if decodedPartial.hasFlatBase then .ok serialized else .error "null pointer"

def addIntermediateResults (groups : Nat → G) (rows : List Nat)
    (decodedPartial : DecodedVector (List Nat)) : Except String (DecimalAggregate G) :=
  if decodedPartial.isConstantMapping then
    match decodedPartial.valueAt 0 with
    | none => .ok self
    | some serialized => do
      let serialized ← readPartial decodedPartial serialized
      rows.foldlM (fun self row => self.mergeAccumulators true (groups row) serialized) self
  else
    rows.foldlM (fun self row => unlessNull (decodedPartial.valueAt row) self fun self serialized => do
      self.mergeAccumulators true (groups row) (← readPartial decodedPartial serialized)) self

def addSingleGroupIntermediateResults (group : G) (rows : List Nat)
    (decodedPartial : DecodedVector (List Nat)) : Except String (DecimalAggregate G) :=
  if decodedPartial.isConstantMapping then
    match decodedPartial.valueAt 0 with
    | none => .ok self
    | some serialized => do
      let serialized ← readPartial decodedPartial serialized
      let cleared := if rows.isEmpty then self else self.clearNull group
      rows.foldlM (fun self _ => self.mergeAccumulators true group serialized) cleared
  else if decodedPartial.mayHaveNulls then
    rows.foldlM (fun self row => unlessNull (decodedPartial.valueAt row) self fun self serialized => do
      (self.clearNull group).mergeAccumulators true group (← readPartial decodedPartial serialized)) self
  else
    let cleared := if rows.isEmpty then self else self.clearNull group
    rows.foldlM (fun self row => unlessNull (decodedPartial.valueAt row) self fun self serialized => do
      self.mergeAccumulators true group (← readPartial decodedPartial serialized)) cleared

def extractAccumulator (group : G) : Option (List Nat) :=
  if self.isNull group then none else some (self.groups group).accumulator.serialize

def extractValue (group : G) : Except String (Option Int) :=
  if self.isNull group then .ok none else (self.groups group).accumulator.computeFinalValue.map some

end DecimalAggregate

end

variable {G : Type} [DecidableEq G]

/-- What an aggregate has been given. The rows of an intermediate result are groups of other aggregates, which
have run before. -/
inductive History (G : Type) where
  | fresh
  | newGroups (before : History G) (new : List G)
  | addRawInput (before : History G) (groups : Nat → G) (rows : List Nat) (encoding : Encoding)
      (values : Nat → Option Decimal)
  | addSingleGroupRawInput (before : History G) (group : G) (rows : List Nat) (encoding : Encoding)
      (values : Nat → Option Decimal)
  | addIntermediateResults (before : History G) (groups : Nat → G) (rows : List Nat) (encoding : Encoding)
      (others : Nat → History G) (sources : Nat → G)
  | addSingleGroupIntermediateResults (before : History G) (group : G) (rows : List Nat) (encoding : Encoding)
      (others : Nat → History G) (sources : Nat → G)

/-- The places of a batch that a vector holds: of a constant, the first. -/
def used (encoding : Encoding) (rows : List Nat) : List Nat := if encoding.isConstant then [0] else rows

structure Table (G : Type) where
  created : Finset G
  aggregate : DecimalAggregate G

def Table.withGroups (table : Table G) (wanted : List G) : Table G :=
  ⟨table.created ∪ wanted.toFinset, table.aggregate.initializeNewGroups (wanted.toFinset \ table.created)⟩

/-- What an aggregate that has run gives of a group. -/
def Table.part (table : Except String (Table G)) (group : G) : Option (List Nat) :=
  match table with
  | .error _ => none
  | .ok table => if group ∈ table.created then table.aggregate.extractAccumulator group else none

def Table.call (table : Table G) (wanted : List G)
    (operation : DecimalAggregate G → Except String (DecimalAggregate G)) : Except String (Table G) :=
  let prepared := table.withGroups wanted
  (operation prepared.aggregate).map fun aggregate => { prepared with aggregate := aggregate }

def run : History G → Except String (Table G)
  | .fresh => .ok ⟨∅, ⟨fun _ => ⟨false, .fresh⟩, 0⟩⟩
  | .newGroups before new => do
    let table ← run before
    .ok (table.withGroups new)
  | .addRawInput before groups rows encoding values => do
    let table ← run before
    table.call (rows.map groups) (·.addRawInput groups rows (decode encoding rows values))
  | .addSingleGroupRawInput before group rows encoding values => do
    let table ← run before
    table.call [group] (·.addSingleGroupRawInput group rows (decode encoding rows values))
  | .addIntermediateResults before groups rows encoding others sources => do
    let table ← run before
    let _ ← (used encoding rows).mapM fun row => run (others row)
    let parts := fun row => Table.part (run (others row)) (sources row)
    table.call (rows.map groups) (·.addIntermediateResults groups rows (decode encoding rows parts))
  | .addSingleGroupIntermediateResults before group rows encoding others sources => do
    let table ← run before
    let _ ← (used encoding rows).mapM fun row => run (others row)
    let parts := fun row => Table.part (run (others row)) (sources row)
    table.call [group] (·.addSingleGroupIntermediateResults group rows (decode encoding rows parts))

end CactusDB.Aggregates.Decimals
