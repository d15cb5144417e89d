import CactusDB.MlFunctions.TorchDNN

/-! The vector functions that plans call. -/

namespace CactusDB.MlFunctions.Functions
open Library.TextScan Rows TorchDNN

inductive VectorFunction (K : Type) where
  | matrixMultiply (weights : List K) (rows columns : Nat)
  | matrixMultiplyBlock (rows columns samples blocks : Nat)
  | matrixVectorAddition (bias : List K) (size : Nat)
  | relu
  | softmax
  | sigmoid
  | argmax
  | batchNorm1D (weights bias : List K) (eps : K) (size : Nat)
  | torchDNN2Level (weights bias : List (List K)) (dims : List Nat)
  | torchDNNV2 (network : TorchDNNV2 K)
  | other (name : Text)

variable {K : Type} [Field K] [LinearOrder K]

def mean (column : List K) : K := column.sum / column.length

def variance (column : List K) : K :=
  (column.map fun x => (x - mean column) * (x - mean column)).sum / (column.length - 1 : Nat)

section

variable (elementary : Elementary K) (weights bias : List K) (eps : K) (size : Nat) (rows : List (List K))

def batchNormRow : List K :=
  (List.range size).map fun i =>
    let column := rows.map fun row => row.getD i 0
    normalize elementary (mean column) (variance column) eps (weights.getD i 0) (bias.getD i 0)
      ((rows.getLastD []).getD i 0)

/-- The offset of the output stays where it is from row to row, so that every row of the batch shows
the result of the last one. A batch of one row divides zero by zero. -/
def batchNorm : Option (List (List K)) :=
  if rows.length = 1 then none
  else some (rows.map fun _ => batchNormRow elementary weights bias eps size rows)

end

def VectorFunction.apply (elementary : Elementary K) : VectorFunction K → Value K → Option (Value K)
  | .matrixMultiply weights inputs outputs, .arrays rows =>
    (inputMatrix inputs rows).map fun input => .arrays (input.map (dense inputs outputs weights))
  | .matrixVectorAddition bias size, .arrays rows =>
    (inputMatrix size rows).map fun input => .arrays (input.map (addRow bias))
  | .relu, .arrays rows => some (.arrays (rows.map (List.map reluFunction)))
  | .sigmoid, .arrays rows => some (.arrays (rows.map (List.map (sigmoidFunction elementary))))
  | .softmax, .arrays rows =>
    (inputMatrix (numCols rows) rows).map fun input => .arrays (input.map (softmaxRow elementary))
  | .argmax, .arrays rows => (inputMatrix (numCols rows) rows).map fun input => .labels (input.map argmaxRow)
  | .batchNorm1D weights bias eps size, .arrays rows =>
    ((inputMatrix size rows).bind (batchNorm elementary weights bias eps size)).map .arrays
  | .torchDNNV2 network, .arrays rows => network.apply elementary rows
  | _, _ => none

def composition (elementary : Elementary K) (functions : List (VectorFunction K)) (input : Value K) :
    Option (Value K) :=
  functions.foldlM (fun value function => function.apply elementary value) input

end CactusDB.MlFunctions.Functions
