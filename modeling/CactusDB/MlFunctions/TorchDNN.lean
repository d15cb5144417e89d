import CactusDB.Library.TextScan
import CactusDB.MlFunctions.Rows

/-! A network of Torch layers, built from a list of kernel types, the buffers with their weights and
their dimensions. The three lists are read at a pace of their own, and a bias is taken together with
the product before it. -/

namespace CactusDB.MlFunctions.TorchDNN
open Library.TextScan Rows List

variable {K : Type}

inductive KernelType where
  | matMul
  | matAdd
  | reLU
  | softmax
  | batchNorm
  | argmax
  | sigmoid
  deriving DecidableEq, Repr

/-- The stream operator has no case for the sigmoid. -/
def KernelType.print : KernelType → Text
  | .matMul => "MatMul".toList
  | .matAdd => "MatAdd".toList
  | .reLU => "ReLU".toList
  | .softmax => "Softmax".toList
  | .batchNorm => "BatchNorm".toList
  | .argmax => "Argmax".toList
  | .sigmoid => "Unknown".toList

/-- Why a construction has no result: an exception, or memory outside of a buffer or vector. -/
inductive Fault where
  | thrown (message : Text)
  | undefined
  deriving DecidableEq, Repr

/-- The weight of a linear layer is kept as it lies in its buffer, before transposition. -/
inductive Layer (K : Type) where
  | linear (inputs outputs : Nat) (weight bias : List K)
  | batchNorm1d (features : Nat) (weight bias : List K)
  | reLU
  | sigmoid
  | softmax
  | argmax

def fromBlob (buffer : List K) (count : Nat) : Except Fault (List K) :=
  if count ≤ buffer.length then .ok (buffer.take count) else .error .undefined

def nextTensors (weightCount biasCount : Nat) :
    List (List K) → Except Fault (List K × List K × List (List K))
  | first :: second :: rest => do
    let weight ← fromBlob first weightCount
    let bias ← fromBlob second biasCount
    return (weight, bias, rest)
  | _ => .error .undefined

def unsupported (kernel : KernelType) : Fault :=
  .thrown ("Unsupported kernel type of TorchDNNV2: ".toList ++ kernel.print)

/-- What the constructor does for one kernel: the layers it adds, and the buffers it leaves. The
kernel after the last one is read past the end of the list. -/
def pushLayer (kernel : KernelType) (next : Option KernelType) (weights : List (List K))
    (inputs outputs : Nat) : Except Fault (List (Layer K) × List (List K)) :=
  match kernel with
  | .matMul =>
    if next = none then .error .undefined
    else if next = some .matAdd then do
      let (weight, bias, rest) ← nextTensors (inputs * outputs) outputs weights
      return ([.linear inputs outputs weight bias], rest)
    else .error (unsupported .matMul)
  | .matAdd => .ok ([], weights)
  | .batchNorm => do
    let (weight, bias, rest) ← nextTensors outputs outputs weights
    return ([.batchNorm1d inputs weight bias], rest)
  | .reLU => .ok ([.reLU], weights)
  | .sigmoid => .ok ([.sigmoid], weights)
  | .softmax => .ok ([.softmax], weights)
  | .argmax => .ok ([.argmax], weights)

def buildLayers : List KernelType → List (List K) → List Nat → Except Fault (List (Layer K))
  | [], _, _ => .ok []
  | kernel :: rest, weights, inputs :: outputs :: dims => do
    let (pushed, remaining) ← pushLayer kernel rest.head? weights inputs outputs
    let layers ← buildLayers rest remaining dims
    return pushed ++ layers
  | _ :: _, _, _ => .error .undefined

theorem exists_of_buildLayers_ok {kernel : KernelType} {rest : List KernelType} {weights : List (List K)}
    {inputs outputs : Nat} {dims : List Nat} {layers : List (Layer K)}
    (built : buildLayers (kernel :: rest) weights (inputs :: outputs :: dims) = .ok layers) :
    ∃ pushed remaining tail, pushLayer kernel rest.head? weights inputs outputs = .ok (pushed, remaining) ∧
      buildLayers rest remaining dims = .ok tail ∧ layers = pushed ++ tail := by
  simp only [buildLayers, bind, Except.bind] at built
  cases first : pushLayer kernel rest.head? weights inputs outputs with
  | error fault => simp [first] at built
  | ok pair =>
    cases second : buildLayers rest pair.2 dims with
    | error fault => simp [first, second] at built
    | ok tail =>
      simp only [first, second, pure, Except.pure, Except.ok.injEq] at built
      exact ⟨pair.1, pair.2, tail, rfl, second, built.symm⟩

structure TorchDNNV2 (K : Type) where
  dims : List Nat
  layers : List (Layer K)
  hasArgmax : Bool

def mismatched (numOps numDims : Nat) : Fault :=
  .thrown ("Mismatched number of  2*kernel types and dimensions: ".toList ++ decimal (2 * numOps) ++
    " vs ".toList ++ decimal numDims)

def TorchDNNV2.make (kernelTypes : List KernelType) (weights : List (List K)) (dims : List Nat) :
    Except Fault (TorchDNNV2 K) :=
  if 2 * kernelTypes.length ≠ dims.length then .error (mismatched kernelTypes.length dims.length)
  else do
    let layers ← buildLayers kernelTypes weights dims
    return ⟨dims, layers, kernelTypes.contains .argmax⟩

/-- The rows of the output are cut from the data of the last tensor at the recorded width. -/
def copyRows (width : Nat) (rows : List (List K)) : Option (List (List K)) :=
  if rows.length * width ≤ rows.flatten.length then
    some ((List.range rows.length).map fun i => (rows.flatten.drop (i * width)).take width)
  else none

variable {width : Nat} {rows output : List (List K)}

theorem length_flatten (wide : Wide width rows) : rows.flatten.length = rows.length * width := by
  have lengths : rows.map List.length = List.replicate rows.length width := by
    rw [eq_replicate_iff]
    simpa [Wide] using wide
  simp [lengths]

theorem slices_flatten (wide : Wide width rows) :
    ((List.range rows.length).map fun i => (rows.flatten.drop (i * width)).take width) = rows := by
  induction rows with
  | nil => rfl
  | cons row rest ih =>
    have here : row.length = width := wide row mem_cons_self
    have below := ih fun other mem => wide other (mem_cons_of_mem row mem)
    have shift (i : Nat) : (row ++ rest.flatten).drop ((i + 1) * width) = rest.flatten.drop (i * width) := by
      rw [← here, Nat.succ_mul, Nat.add_comm, drop_length_add_append]
    have first : (row ++ rest.flatten).take width = row := by rw [← here, take_left]
    rw [length_cons, range_succ_eq_map, map_cons, map_map, flatten_cons]
    simp only [Function.comp_def, Nat.succ_eq_add_one, shift, below, Nat.zero_mul, drop_zero, first]

theorem copyRows_eq (wide : Wide width rows) : copyRows width rows = some rows := by
  simp [copyRows, length_flatten wide, slices_flatten wide]

variable {recorded : Nat}

/-- The rows that come out have the recorded width. -/
theorem width_of_copyRows
    (copied : copyRows recorded rows = some output) (wide : Wide width output) (inhabited : output ≠ []) :
    recorded = width := by
  unfold copyRows at copied
  split at copied
  case isFalse => cases copied
  case isTrue enough =>
    cases copied
    cases rows with
    | nil => exact absurd rfl inhabited
    | cons row rest =>
      have first := wide (((row :: rest).flatten.drop (0 * recorded)).take recorded)
        (mem_map_of_mem (mem_range.mpr (Nat.succ_pos rest.length)))
      rw [length_cons, Nat.succ_mul] at enough
      rw [Nat.zero_mul, drop_zero, length_take, Nat.min_eq_left (by omega)] at first
      exact first

theorem length_of_copyRows (copied : copyRows recorded rows = some output) : output.length = rows.length := by
  unfold copyRows at copied
  split at copied
  case isFalse => cases copied
  case isTrue =>
    cases copied
    simp

/-- Rows that keep their width are not changed. -/
theorem eq_of_copyRows (wide : Wide width rows)
    (copied : copyRows recorded rows = some output) (same : Wide width output) : output = rows := by
  by_cases empty : output = []
  · have lengths := length_of_copyRows copied
    rw [empty, length_nil] at lengths
    rw [empty, length_eq_zero_iff.mp lengths.symm]
  · cases width_of_copyRows copied same empty
    rw [copyRows_eq wide] at copied
    exact (Option.some.inj copied).symm

/-- Integers are copied one by one, arrays at the recorded width. -/
def readOutput (hasArgmax : Bool) (width : Nat) : Value K → Option (Value K)
  | .labels indices => if hasArgmax then some (.labels indices) else none
  | .arrays rows => if hasArgmax then none else (copyRows width rows).map .arrays

theorem readOutput_cases {hasArgmax : Bool} {value result : Value K}
    (read : readOutput hasArgmax width value = some result) :
    (∃ indices, value = .labels indices ∧ result = .labels indices) ∨
      ∃ rows output, value = .arrays rows ∧ result = .arrays output ∧ copyRows width rows = some output := by
  cases value with
  | labels indices =>
    cases hasArgmax <;> cases read
    exact .inl ⟨indices, rfl, rfl⟩
  | arrays rows =>
    cases hasArgmax with
    | true => cases read
    | false =>
      obtain ⟨output, copied, rfl⟩ := Option.map_eq_some_iff.mp read
      exact .inr ⟨rows, output, rfl, rfl, copied⟩

variable [Field K] [LinearOrder K]

/-- In evaluation mode a normalisation uses its running statistics, which nobody has changed: mean
zero, variance one. Layers refuse rows of another width. -/
def Layer.forward (elementary : Elementary K) : Layer K → Value K → Option (Value K)
  | _, .labels _ => none
  | .linear inputs outputs weight bias, .arrays rows =>
    if rows.all (fun row => row.length = inputs) then
      some (.arrays (rows.map fun row => addRow bias (dense inputs outputs weight row)))
    else none
  | .batchNorm1d features weight bias, .arrays rows =>
    if rows.all (fun row => row.length = features) ∧ weight.length = features then
      some (.arrays (rows.map fun row => (List.range features).map fun i =>
        normalize elementary 0 1 (1 / 100000) (weight.getD i 0) (bias.getD i 0) (row.getD i 0)))
    else none
  | .reLU, .arrays rows => some (.arrays (rows.map (List.map reluFunction)))
  | .sigmoid, .arrays rows => some (.arrays (rows.map (List.map (sigmoidFunction elementary))))
  | .softmax, .arrays rows => some (.arrays (rows.map (softmaxRow elementary)))
  | .argmax, .arrays rows => some (.labels (rows.map argmaxRow))

def forward (elementary : Elementary K) (layers : List (Layer K)) (input : Value K) : Option (Value K) :=
  layers.foldlM (fun value layer => layer.forward elementary value) input

def TorchDNNV2.apply (elementary : Elementary K) (network : TorchDNNV2 K) (rows : List (List K)) :
    Option (Value K) := do
  let input ← inputMatrix (network.dims.headD 0) rows
  let output ← forward elementary network.layers (.arrays input)
  readOutput network.hasArgmax (network.dims.getLastD 0) output

end CactusDB.MlFunctions.TorchDNN
