import CactusDB.Optimizer.NestedCalls
import CactusDB.Optimizer.RewriteAction

/-! The rewrite of nested kernel calls into one call of a Torch network. -/

namespace CactusDB.Optimizer.MultiLayerUDF2TorchNN
open Library.TextScan Core.Expressions Core.Plan MlFunctions Rows TorchDNN List Option
open MlFunctions.Functions Resources RewriteAction NestedCalls

variable {K : Type}

def supportedDLKernels : List Text :=
  ["mat_mul", "mat_sparse_mul", "mat_vector_add", "mat_add", "relu", "batch_norm", "softmax", "argmax",
    "sigmoid"].map String.toList

/-- Multiplications by blocks are told by the letter after the underscore. -/
def isSupportedDLKernel (dlKernelName : Text) : Bool :=
  supportedDLKernels.any fun supportedDLKernel =>
    decide (supportedDLKernel <:+: dlKernelName ∧ ¬ "_h".toList <:+: dlKernelName)

def fusionTarget (expr : Text) : Option Text :=
  ((parseDLExpressions expr).reverse.takeWhile fun call => isSupportedDLKernel call.1).getLast?.map Prod.snd

def check (_ : CataLog) (_ : TextMap (VectorFunction K)) (root : PlanNode) : Bool × List Text :=
  (true, targetsIn (fun expr => (fusionTarget expr).toList) root)

/-- The kernel that a name stands for: the first of these words that occurs in it. -/
def kernelTypeOf (dlKernelName : Text) : Option KernelType :=
  if "mat_mul".toList <:+: dlKernelName then some .matMul
  else if "mat_add".toList <:+: dlKernelName ∨ "mat_vector_add".toList <:+: dlKernelName then some .matAdd
  else if "relu".toList <:+: dlKernelName then some .reLU
  else if "batch_norm".toList <:+: dlKernelName then some .batchNorm
  else if "softmax".toList <:+: dlKernelName then some .softmax
  else if "argmax".toList <:+: dlKernelName then some .argmax
  else if "sigmoid".toList <:+: dlKernelName then some .sigmoid
  else none

structure Parts (K : Type) where
  kernelTypes : List KernelType
  weights : List (List K)
  dims : List Nat

def Parts.add (parts : Parts K) (kernelType : KernelType) (buffers : List (List K)) (input output : Nat) :
    Parts K :=
  ⟨parts.kernelTypes ++ [kernelType], parts.weights ++ buffers, parts.dims ++ [input, output]⟩

/-- An activation has no dimensions of its own and continues with the last one; the sigmoid and
`argmax` record one output. A function of another class is a null pointer after the cast. -/
def addKernel (functions : TextMap (VectorFunction K)) (parts : Parts K) (dlKernelName : Text) :
    Except Fault (Parts K) :=
  match kernelTypeOf dlKernelName, functions[sanitizeName dlKernelName]?, parts.dims.getLast? with
  | some .matMul, some (.matrixMultiply weights rows columns), _ => .ok (parts.add .matMul [weights] rows columns)
  | some .matAdd, some (.matrixVectorAddition bias size), _ => .ok (parts.add .matAdd [bias] size size)
  | some .batchNorm, some (.batchNorm1D weights bias _ size), _ =>
    .ok (parts.add .batchNorm [weights, bias] size size)
  | some .reLU, _, some last => .ok (parts.add .reLU [] last last)
  | some .softmax, _, some last => .ok (parts.add .softmax [] last last)
  | some .argmax, _, some last => .ok (parts.add .argmax [] last 1)
  | some .sigmoid, _, some last => .ok (parts.add .sigmoid [] last 1)
  | _, _, _ => .error .undefined

def fuse (functions : TextMap (VectorFunction K)) (target : Text) : Except Fault (TorchDNNV2 K) := do
  let parts ← ((parseDLExpressions target).map Prod.fst).reverse.foldlM (addKernel functions) ⟨[], [], []⟩
  TorchDNNV2.make parts.kernelTypes parts.weights parts.dims

def kernelType : VectorFunction K → Option KernelType
  | .matrixMultiply .. => some .matMul
  | .matrixVectorAddition .. => some .matAdd
  | .batchNorm1D .. => some .batchNorm
  | .relu => some .reLU
  | .softmax => some .softmax
  | .argmax => some .argmax
  | .sigmoid => some .sigmoid
  | _ => none

def buffers : VectorFunction K → List (List K)
  | .matrixMultiply weights _ _ => [weights]
  | .matrixVectorAddition bias _ => [bias]
  | .batchNorm1D weights bias _ _ => [weights, bias]
  | _ => []

def recordedDims (last : Nat) : VectorFunction K → Nat × Nat
  | .matrixMultiply _ rows columns => (rows, columns)
  | .matrixVectorAddition _ size => (size, size)
  | .batchNorm1D _ _ _ size => (size, size)
  | .argmax => (last, 1)
  | .sigmoid => (last, 1)
  | _ => (last, last)

def allDims : Nat → List (VectorFunction K) → List Nat
  | _, [] => []
  | last, function :: rest =>
    (recordedDims last function).1 :: (recordedDims last function).2 ::
      allDims (recordedDims last function).2 rest

def lastDim (last : Nat) (functions : List (VectorFunction K)) : Nat :=
  functions.foldl (fun last function => (recordedDims last function).2) last

def hasDims : KernelType → Bool
  | .matMul | .matAdd | .batchNorm => true
  | _ => false

section

theorem getLast?_add (parts : Parts K) (kernelType : KernelType) (buffers : List (List K))
    (input output : Nat) : (parts.add kernelType buffers input output).dims.getLast? = some output := by
  simp [Parts.add]

variable {functions : TextMap (VectorFunction K)} {kernel : KernelType} {function : VectorFunction K} {name : Text}

section

variable (named : kernelTypeOf name = some kernel) (kind : kernelType function = some kernel)
  (registered : functions[sanitizeName name]? = some function)
include named kind registered

theorem addKernel_eq {parts : Parts K} {last : Nat} (current : parts.dims.getLast? = some last) :
    addKernel functions parts name =
      .ok (parts.add kernel (buffers function) (recordedDims last function).1 (recordedDims last function).2) := by
  cases function <;> cases kind <;>
    simp only [addKernel, named, registered, current, buffers, recordedDims]

/-- The innermost call needs dimensions of its own. -/
theorem addKernel_first (own : hasDims kernel) :
    addKernel functions ⟨[], [], []⟩ name =
      .ok (Parts.add ⟨[], [], []⟩ kernel (buffers function) (recordedDims 0 function).1
        (recordedDims 0 function).2) := by
  cases function <;> cases kind <;> cases own <;>
    simp only [addKernel, named, registered, buffers, recordedDims]

end

theorem addKernel_first_error (functions : TextMap (VectorFunction K)) (named : kernelTypeOf name = some kernel)
    (without : hasDims kernel = false) :
    addKernel functions ⟨[], [], []⟩ name = .error .undefined := by
  cases kernel <;> cases without <;> simp [addKernel, named]

structure Recognised (functions : TextMap (VectorFunction K)) (call : Text × VectorFunction K) : Prop where
  named : kernelTypeOf call.1 = kernelType call.2
  supported : (kernelType call.2).isSome
  registered : functions[sanitizeName call.1]? = some call.2

theorem foldlM_addKernel :
    ∀ {calls : List (Text × VectorFunction K)} {parts : Parts K} {last : Nat},
      (∀ call ∈ calls, Recognised functions call) → parts.dims.getLast? = some last →
        (calls.map Prod.fst).foldlM (addKernel functions) parts =
          .ok ⟨parts.kernelTypes ++ (calls.map Prod.snd).filterMap kernelType,
            parts.weights ++ (calls.map Prod.snd).flatMap buffers,
            parts.dims ++ allDims last (calls.map Prod.snd)⟩ := by
  intro calls
  induction calls with
  | nil =>
    intro parts last _ _
    simp [allDims, pure, Except.pure]
  | cons call rest ih =>
    intro parts last recognised current
    have here := recognised call mem_cons_self
    obtain ⟨kernel, kind⟩ := isSome_iff_exists.mp here.supported
    have step := addKernel_eq (here.named.trans kind) kind here.registered current
    have next := ih (fun other mem => recognised other (mem_cons_of_mem call mem))
      (getLast?_add parts kernel (buffers call.2) (recordedDims last call.2).1 (recordedDims last call.2).2)
    simp only [map_cons, foldlM_cons, step, bind, Except.bind, next]
    simp [Parts.add, allDims, kind]

end

/-- A function that takes rows of a width, with buffers of the size that its constructor copies. -/
def Accepts (width : Nat) : VectorFunction K → Prop
  | .matrixMultiply weights rows columns => rows = width ∧ weights.length = rows * columns ∧ 0 < columns
  | .matrixVectorAddition bias size => size = width ∧ bias.length = size
  | .batchNorm1D weights bias _ size => size = width ∧ weights.length = size ∧ bias.length = size
  | .relu | .softmax | .argmax | .sigmoid => True
  | _ => False

def outputWidth (width : Nat) : VectorFunction K → Nat
  | .matrixMultiply _ _ columns => columns
  | _ => width

def Fits : Nat → List (VectorFunction K) → Prop
  | _, [] => True
  | width, function :: rest =>
    Accepts width function ∧ (function = .argmax → rest = []) ∧ Fits (outputWidth width function) rest

def finalWidth (width : Nat) (functions : List (VectorFunction K)) : Nat := functions.foldl outputWidth width

theorem map_kernelType {functions : List (VectorFunction K)}
    (supported : ∀ function ∈ functions, (kernelType function).isSome) :
    functions.map kernelType = (functions.filterMap kernelType).map some := by
  induction functions with
  | nil => rfl
  | cons function rest ih =>
    obtain ⟨kernel, kind⟩ := isSome_iff_exists.mp (supported function mem_cons_self)
    simp [kind, ih fun other mem => supported other (mem_cons_of_mem function mem)]

variable {function : VectorFunction K} {width : Nat}

theorem Accepts.supported (accepts : Accepts width function) : (kernelType function).isSome := by
  cases function <;> first | rfl | exact accepts.elim

theorem buffers_activation {kernel : KernelType}
    (kind : kernelType function = some kernel) (plain : hasDims kernel = false) : buffers function = [] := by
  cases function <;> cases kind <;> cases plain <;> rfl

/-- A product and its bias are of one size. -/
theorem exists_dense {types : List KernelType} {functions : List (VectorFunction K)}
    (kinds : functions.map kernelType = (.matMul :: .matAdd :: types).map some) (fits : Fits width functions) :
    ∃ weights bias size rest,
      functions = .matrixMultiply weights width size :: .matrixVectorAddition bias size :: rest ∧
      weights.length = width * size ∧ bias.length = size ∧ rest.map kernelType = types.map some ∧ Fits size rest := by
  obtain ⟨first, tail, rfl, firstKind, tailKinds⟩ := map_eq_cons_iff.mp kinds
  obtain ⟨second, rest, rfl, secondKind, restKinds⟩ := map_eq_cons_iff.mp tailKinds
  cases first <;> cases firstKind
  cases second <;> cases secondKind
  obtain ⟨⟨rfl, weightsFit, _⟩, _, ⟨rfl, biasFits⟩, _, fits⟩ := fits
  exact ⟨_, _, _, rest, rfl, weightsFit, biasFits, restKinds, fits⟩

open VectorFunction

section

variable [Field K] [LinearOrder K] (elementary : Elementary K)

@[simp] theorem composition_nil (value : Value K) : composition elementary [] value = some value := rfl

theorem composition_cons (function : VectorFunction K) (rest : List (VectorFunction K)) (value : Value K) :
    composition elementary (function :: rest) value =
      (function.apply elementary value).bind (composition elementary rest) := rfl

@[simp] theorem forward_nil (value : Value K) : forward elementary [] value = some value := rfl

theorem forward_cons (layer : Layer K) (rest : List (Layer K)) (value : Value K) :
    forward elementary (layer :: rest) value =
      (layer.forward elementary value).bind (forward elementary rest) := rfl

variable {elementary}

/-- What a kernel does to rows of its width: it works row by row, or takes the places of the largest
entries, or puts one row in the place of all. -/
inductive RowAction (elementary : Elementary K) (width : Nat) (rows : List (List K)) :
    VectorFunction K → Prop where
  | rowwise {function : VectorFunction K} (f : List K → List K)
      (resize : ∀ row, row.length = width → (f row).length = outputWidth width function)
      (other : kernelType function ≠ some .batchNorm) (notArgmax : function ≠ .argmax)
      (applied : function.apply elementary (.arrays rows) = some (.arrays (rows.map f))) :
      RowAction elementary width rows function
  | argmax (applied : argmax.apply elementary (.arrays rows) =
      some (.labels (rows.map argmaxRow))) : RowAction elementary width rows .argmax
  | single {function : VectorFunction K} (kind : kernelType function = some .batchNorm)
      (one : rows.length = 1) (applied : function.apply elementary (.arrays rows) = none) :
      RowAction elementary width rows function
  | normalised {function : VectorFunction K} (kind : kernelType function = some .batchNorm)
      (result : List K) (resize : result.length = outputWidth width function)
      (applied : function.apply elementary (.arrays rows) = some (.arrays (rows.map fun _ => result))) :
      RowAction elementary width rows function

variable {function : VectorFunction K} {rows : List (List K)}

theorem rowAction (elementary : Elementary K) (accepts : Accepts width function) (wide : Wide width rows) :
    RowAction elementary width rows function := by
  cases function with
  | matrixMultiply weights inputs outputs =>
    obtain ⟨rfl, _, _⟩ := accepts
    exact .rowwise (dense inputs outputs weights) (fun row _ => length_dense inputs outputs weights row)
      (by simp [kernelType]) (by simp) (by simp [apply, inputMatrix_eq wide])
  | matrixVectorAddition bias size =>
    obtain ⟨rfl, fits⟩ := accepts
    exact .rowwise (addRow bias) (fun row long => by simp [outputWidth, long, fits]) (by simp [kernelType])
      (by simp) (by simp [apply, inputMatrix_eq wide])
  | relu =>
    exact .rowwise (List.map reluFunction) (fun row long => by simpa [outputWidth] using long)
      (by simp [kernelType]) (by simp) rfl
  | sigmoid =>
    exact .rowwise (List.map (sigmoidFunction elementary)) (fun row long => by simpa [outputWidth] using long)
      (by simp [kernelType]) (by simp) rfl
  | softmax =>
    exact .rowwise (softmaxRow elementary) (fun row long => by simpa [outputWidth] using long)
      (by simp [kernelType]) (by simp) (by simp [apply, inputMatrix_numCols wide])
  | argmax => exact .argmax (by simp [apply, inputMatrix_numCols wide])
  | batchNorm1D weights bias eps size =>
    obtain ⟨rfl, _, _⟩ := accepts
    by_cases one : rows.length = 1
    · exact .single rfl one (by simp [apply, inputMatrix_eq wide, batchNorm, one])
    · exact .normalised rfl (batchNormRow elementary weights bias eps size rows)
        (by simp [batchNormRow, outputWidth])
        (by simp only [apply, inputMatrix_eq wide, bind_some, batchNorm, if_neg one,
          map_some])
  | matrixMultiplyBlock | torchDNN2Level | torchDNNV2 | other => exact accepts.elim

/-- A kernel other than `argmax` gives arrays of its output width, as many as it takes. -/
theorem apply_arrays {output : Value K}
    (accepts : Accepts width function) (notArgmax : function ≠ .argmax) (wide : Wide width rows)
    (applied : function.apply elementary (.arrays rows) = some output) :
    ∃ result, output = .arrays result ∧ Wide (outputWidth width function) result ∧
      result.length = rows.length := by
  cases rowAction elementary accepts wide with
  | rowwise f resize _ _ computed =>
    cases computed.symm.trans applied
    exact ⟨_, rfl, wide.map resize, length_map f⟩
  | argmax => exact absurd rfl notArgmax
  | single _ _ undefined => cases undefined.symm.trans applied
  | normalised _ result resize computed =>
    cases computed.symm.trans applied
    exact ⟨_, rfl, wide.map fun _ _ => resize, length_map _⟩

/-- A run of kernels gives integers when it ends in `argmax`, and arrays of its final width otherwise. -/
theorem composition_output :
    ∀ {functions : List (VectorFunction K)} {width : Nat} {rows : List (List K)} {output : Value K},
      Fits width functions → Wide width rows → composition elementary functions (.arrays rows) = some output →
        (.argmax ∈ functions ∧ ∃ indices, output = .labels indices) ∨
        (.argmax ∉ functions ∧ ∃ result, output = .arrays result ∧
          Wide (finalWidth width functions) result ∧ result.length = rows.length) := by
  intro functions
  induction functions with
  | nil =>
    intro width rows output _ wide composed
    cases composed
    exact .inr ⟨not_mem_nil, rows, rfl, wide, rfl⟩
  | cons function rest ih =>
    intro width rows output fits wide composed
    obtain ⟨value, applied, onward⟩ := bind_eq_some_iff.mp composed
    by_cases last : function = .argmax
    · cases fits.2.1 last
      subst last
      simp only [apply, inputMatrix_numCols wide, map_some, some.injEq] at applied
      cases onward
      exact .inl ⟨mem_cons_self, _, applied.symm⟩
    · obtain ⟨result, rfl, wideResult, sameLength⟩ := apply_arrays fits.1 last wide applied
      have unchanged : .argmax ∈ function :: rest ↔ .argmax ∈ rest := by simp [Ne.symm last]
      rw [unchanged, ← sameLength]
      exact ih fits.2.2 wideResult onward

/-- Every product has its bias right after it, every bias its product right before it, and there is
no normalisation. -/
inductive Paired : List KernelType → Prop where
  | nil : Paired []
  | dense {rest : List KernelType} : Paired rest → Paired (.matMul :: .matAdd :: rest)
  | activation {kernel : KernelType} {rest : List KernelType} :
      hasDims kernel = false → Paired rest → Paired (kernel :: rest)

theorem Paired.starts {types : List KernelType} (paired : Paired types) (inhabited : types ≠ [])
    (own : ∀ kernel ∈ types.head?, hasDims kernel) : types.head? = some .matMul := by
  cases paired with
  | nil => exact absurd rfl inhabited
  | dense => rfl
  | activation plain =>
    have dims := own _ rfl
    rw [plain] at dims
    cases dims

theorem forward_activation (elementary : Elementary K) {kernel : KernelType}
    (kind : kernelType function = some kernel) (plain : hasDims kernel = false) :
    ∃ layer : Layer K, (∀ next weights inputs outputs,
        pushLayer kernel next weights inputs outputs = .ok ([layer], weights)) ∧
      ∀ {width : Nat} {rows : List (List K)}, Wide width rows →
        layer.forward elementary (.arrays rows) = function.apply elementary (.arrays rows) := by
  cases function <;> cases kind <;> cases plain
  case relu => exact ⟨.reLU, fun _ _ _ _ => rfl, fun _ => rfl⟩
  case sigmoid => exact ⟨.sigmoid, fun _ _ _ _ => rfl, fun _ => rfl⟩
  case softmax =>
    refine ⟨.softmax, fun _ _ _ _ => rfl, fun wide => ?_⟩
    simp [apply, inputMatrix_numCols wide, Layer.forward]
  case argmax =>
    refine ⟨.argmax, fun _ _ _ _ => rfl, fun wide => ?_⟩
    simp [apply, inputMatrix_numCols wide, Layer.forward]

/-- A linear layer is the product followed by the addition of the bias. -/
theorem forward_linear (elementary : Elementary K) {inputs : Nat}
    (wide : Wide inputs rows) (outputs : Nat) (weights bias : List K) (rest : List (VectorFunction K)) :
    ∃ result, (Layer.linear inputs outputs weights bias).forward elementary (.arrays rows) =
        some (.arrays result) ∧
      composition elementary
          (.matrixMultiply weights inputs outputs :: .matrixVectorAddition bias outputs :: rest)
          (.arrays rows) = composition elementary rest (.arrays result) ∧
      (bias.length = outputs → Wide outputs result) := by
  have all : rows.all (fun row => row.length = inputs) = true := by simpa [Wide] using wide
  have product : Wide outputs (rows.map (dense inputs outputs weights)) :=
    wide.map fun row _ => length_dense inputs outputs weights row
  refine ⟨rows.map fun row => addRow bias (dense inputs outputs weights row), ?_, ?_, ?_⟩
  · simp [Layer.forward, all]
  · simp [composition_cons, apply, inputMatrix_eq wide, inputMatrix_eq product,
      Function.comp_def]
  · intro fits
    exact wide.map fun row _ => by simp [fits]

/-- The layers that the constructor builds compute what the functions compute one after another. -/
theorem buildLayers_of_paired (elementary : Elementary K) {types : List KernelType} (paired : Paired types) :
    ∀ {functions : List (VectorFunction K)} {width : Nat} (last : Nat),
      functions.map kernelType = types.map some →
      Fits width functions →
        ∃ layers, buildLayers types (functions.flatMap buffers) (allDims last functions) = .ok layers ∧
          ∀ rows, Wide width rows →
            forward elementary layers (.arrays rows) = composition elementary functions (.arrays rows) := by
  induction paired with
  | nil =>
    intro functions width last kinds _
    cases map_eq_nil_iff.mp kinds
    exact ⟨[], rfl, fun rows _ => rfl⟩
  | dense _ ih =>
    intro functions width last kinds fits
    obtain ⟨weights, bias, size, rest, rfl, weightsFit, biasFits, restKinds, fits⟩ := exists_dense kinds fits
    obtain ⟨layers, built, same⟩ := ih size restKinds fits
    refine ⟨.linear width size weights bias :: layers, ?_, ?_⟩
    · simp [buildLayers, pushLayer, nextTensors, fromBlob, buffers, allDims, recordedDims, bind,
        Except.bind, pure, Except.pure, weightsFit.ge, biasFits.ge, weightsFit.le, biasFits.le, built,
        take_of_length_le]
    · intro rows wide
      obtain ⟨result, computed, composed, wideResult⟩ :=
        forward_linear elementary wide size weights bias rest
      rw [forward_cons, computed, composed]
      exact same result (wideResult biasFits)
  | activation plain _ ih =>
    intro functions width last kinds fits
    obtain ⟨function, rest, rfl, kind, restKinds⟩ := map_eq_cons_iff.mp kinds
    obtain ⟨layer, pushed, computes⟩ := forward_activation elementary kind plain
    obtain ⟨layers, built, same⟩ := ih (recordedDims last function).2 restKinds fits.2.2
    refine ⟨layer :: layers, ?_, ?_⟩
    · simp [buildLayers, pushed, allDims, buffers_activation kind plain, bind, Except.bind, pure,
        Except.pure, built]
    · intro rows wide
      rw [forward_cons, composition_cons, computes wide]
      cases applied : function.apply elementary (.arrays rows) with
      | none => rfl
      | some output =>
        by_cases last : function = .argmax
        · -- `argmax` ends the chain
          cases fits.2.1 last
          cases map_eq_nil_iff.mp restKinds.symm
          cases built
          rfl
        · obtain ⟨result, rfl, wideResult, _⟩ := apply_arrays fits.1 last wide applied
          exact same result wideResult

end

def settled : List KernelType → Bool
  | [] => true
  | .sigmoid :: rest => rest.contains .matMul && settled rest
  | _ :: rest => settled rest

/-- The width that is recorded last. An activation passes it on, and a sigmoid records one. -/
theorem lastDim_of_paired {types : List KernelType} (paired : Paired types) :
    ∀ {functions : List (VectorFunction K)} {width : Nat} (last : Nat), .argmax ∉ types →
      functions.map kernelType = types.map some → Fits width functions →
        ((last = width ∨ .matMul ∈ types) ∧ settled types → lastDim last functions = finalWidth width functions) ∧
        (last = 1 ∧ .matMul ∉ types ∨ settled types = false → lastDim last functions = 1) := by
  induction paired with
  | nil =>
    intro functions width last _ kinds _
    cases map_eq_nil_iff.mp kinds
    simp [lastDim, finalWidth, settled]
  | dense _ ih =>
    intro functions width last noArgmax kinds fits
    obtain ⟨weights, bias, size, rest, rfl, _, _, restKinds, fits⟩ := exists_dense kinds fits
    have below := ih size (by simpa using noArgmax) restKinds fits
    constructor
    · intro recorded
      exact below.1 ⟨.inl rfl, recorded.2⟩
    · intro lost
      exact below.2 (.inr (by simpa [settled] using lost))
  | @activation kernel rest plain _ ih =>
    intro functions width last noArgmax kinds fits
    obtain ⟨function, others, rfl, kind, restKinds⟩ := map_eq_cons_iff.mp kinds
    have below (last : Nat) :=
      ih last (fun mem => noArgmax (mem_cons_of_mem kernel mem)) restKinds fits.2.2
    cases function <;> cases kind <;> cases plain
    case activation.relu => simpa [settled, lastDim, finalWidth, recordedDims, outputWidth] using below last
    case activation.softmax => simpa [settled, lastDim, finalWidth, recordedDims, outputWidth] using below last
    case activation.argmax => exact absurd mem_cons_self noArgmax
    case activation.sigmoid =>
      -- behind a sigmoid only a product brings the real width back
      constructor
      · intro recorded
        have after : .matMul ∈ rest ∧ settled rest := by simpa [settled] using recorded.2
        exact (below 1).1 ⟨.inr after.1, after.2⟩
      · intro lost
        apply (below 1).2
        by_cases product : .matMul ∈ rest
        · right
          simpa [settled, product] using lost
        · exact .inl ⟨rfl, product⟩

/-- Nested calls of registered kernels on a column, innermost first, which take what they are given. -/
structure Chain (K : Type) where
  functions : TextMap (VectorFunction K)
  calls : List (Text × VectorFunction K)
  column : Text
  width : Nat
  inhabited : calls ≠ []
  plain : ∀ call ∈ calls, Plain call.1
  closed : '(' ∉ column
  recognised : ∀ call ∈ calls, Recognised functions call
  width_pos : 0 < width
  fits : Fits width (calls.map Prod.snd)

namespace Chain

variable (chain : Chain K)

def names : List Text := chain.calls.map Prod.fst

def kernels : List (VectorFunction K) := chain.calls.map Prod.snd

def kernelTypes : List KernelType := chain.kernels.filterMap kernelType

def expr : TypedExpr := chain.names.reverse.foldr (fun name input => .call name [input]) (.field chain.column)

def text : Text := chain.expr.toString

def Accepted : Prop := ∃ cataLog root, chain.text ∈ (check cataLog chain.functions root).2

theorem kernels_kernelTypes : chain.kernels.map kernelType = chain.kernelTypes.map some :=
  map_kernelType fun _ mem => by
    obtain ⟨call, found, rfl⟩ := mem_map.mp mem
    exact (chain.recognised call found).supported

theorem text_eq : chain.text = nest chain.names.reverse (TypedExpr.field chain.column).toString := by
  unfold text expr
  induction chain.names.reverse with
  | nil => rfl
  | cons name rest ih => rw [foldr_cons, toString_call, listToString_singleton, ih, nest]

theorem closed_column : Closed (TypedExpr.field chain.column).toString where
  no_call := by simp [not_mem_quoted (by decide) chain.closed]
  trimmed := trim_eq_self (fun _ found => by cases found; rfl) fun c found => by
    rw [toString_field, getLast?_concat] at found
    cases found
    rfl

theorem parse_text : parseDLExpressions chain.text =
      chain.names.reverse.zip
        (nestedTexts chain.names.reverse (TypedExpr.field chain.column).toString) := by
  rw [chain.text_eq]
  apply parseDLExpressions_nest _ chain.closed_column
  intro name mem
  obtain ⟨call, found, rfl⟩ := mem_map.mp (mem_reverse.mp mem)
  exact chain.plain call found

theorem parsed_names : ((parseDLExpressions chain.text).map Prod.fst).reverse = chain.names := by
  rw [chain.parse_text, map_fst_zip (by simp), reverse_reverse]

def fused [Field K] [LinearOrder K] (elementary : Elementary K) (rows : List (List K)) : Option (Value K) :=
  match fuse chain.functions chain.text with
  | .ok network => network.apply elementary rows
  | .error _ => none

/-- Wherever the nested calls have a result, the network has the same. -/
def Fused [Field K] [LinearOrder K] (elementary : Elementary K) : Prop :=
  ∀ rows output, Wide chain.width rows →
    composition elementary chain.kernels (.arrays rows) = some output →
      chain.fused elementary rows = some output

variable (functions : List (VectorFunction K))

theorem getLastD_allDims : ∀ last, (allDims last functions).getLastD last = lastDim last functions := by
  induction functions with
  | nil => exact fun last => rfl
  | cons function rest ih =>
    intro last
    rw [allDims, getLastD_cons, getLastD_cons, ih]
    rfl

theorem length_allDims : ∀ last, (allDims last functions).length = 2 * functions.length := by
  induction functions with
  | nil => exact fun last => rfl
  | cons function rest ih =>
    intro last
    simp only [allDims, length_cons, ih]
    omega

theorem exists_first :
    ∃ first rest kernel, chain.calls = first :: rest ∧ kernelType first.2 = some kernel ∧
      kernelTypeOf first.1 = some kernel ∧ chain.kernelTypes.head? = some kernel := by
  obtain ⟨first, rest, shape⟩ := exists_cons_of_ne_nil chain.inhabited
  have recognised := chain.recognised first (by simp [shape])
  obtain ⟨kernel, kind⟩ := isSome_iff_exists.mp recognised.supported
  refine ⟨first, rest, kernel, shape, kind, recognised.named.trans kind, ?_⟩
  simp [kernelTypes, kernels, shape, kind]

/-- A chain whose innermost kernel has no dimensions cannot be collected. -/
theorem fuse_eq_error (activation : ∀ kernel ∈ chain.kernelTypes.head?, hasDims kernel = false) :
    fuse chain.functions chain.text = .error .undefined := by
  obtain ⟨first, rest, kernel, shape, _, named, head⟩ := chain.exists_first
  have undefined := addKernel_first_error chain.functions named (activation kernel head)
  unfold fuse
  rw [chain.parsed_names, names, shape, map_cons, foldlM_cons, undefined]
  rfl

theorem fuse_eq (own : ∀ kernel ∈ chain.kernelTypes.head?, hasDims kernel) :
    fuse chain.functions chain.text =
      (buildLayers chain.kernelTypes (chain.kernels.flatMap buffers) (allDims 0 chain.kernels)).map
        fun layers => ⟨allDims 0 chain.kernels, layers, chain.kernelTypes.contains .argmax⟩ := by
  obtain ⟨first, rest, kernel, shape, kind, named, head⟩ := chain.exists_first
  have recognised := chain.recognised
  rw [shape] at recognised
  have step := addKernel_first named kind (recognised first mem_cons_self).registered (own kernel head)
  have others := foldlM_addKernel (fun call mem => recognised call (mem_cons_of_mem first mem))
    (getLast?_add ⟨[], [], []⟩ kernel (buffers first.2) (recordedDims 0 first.2).1 (recordedDims 0 first.2).2)
  have collected : chain.names.foldlM (addKernel chain.functions) ⟨[], [], []⟩ =
      .ok ⟨chain.kernelTypes, chain.kernels.flatMap buffers, allDims 0 chain.kernels⟩ := by
    rw [names, shape, map_cons, foldlM_cons, step]
    simp only [bind, Except.bind, others]
    simp [kernelTypes, kernels, shape, kind, Parts.add, allDims]
  have counts : 2 * chain.kernelTypes.length = (allDims 0 chain.kernels).length := by
    have := congrArg List.length chain.kernels_kernelTypes
    simp only [length_map] at this
    rw [length_allDims, this]
  unfold fuse
  rw [chain.parsed_names, collected]
  simp only [bind, Except.bind, TorchDNNV2.make, counts, ne_eq, not_true, if_false]
  cases buildLayers chain.kernelTypes (chain.kernels.flatMap buffers) (allDims 0 chain.kernels) <;> rfl

theorem headD_allDims (own : ∀ kernel ∈ chain.kernelTypes.head?, hasDims kernel) :
    (allDims 0 chain.kernels).headD 0 = chain.width := by
  obtain ⟨first, rest, kernel, shape, kind, _, head⟩ := chain.exists_first
  have dims := own kernel head
  have fits := chain.fits
  rw [shape, map_cons] at fits
  have accepts := fits.1
  simp only [kernels, shape, map_cons, allDims, headD_cons]
  generalize first.2 = function at kind accepts
  cases function <;> cases kind <;> cases dims <;> exact accepts.1

/-- The chain starts with a product, products and biases come in pairs, nothing is normalised, and the
width is recorded as it is: the chain ends in `argmax`, or a product comes after every sigmoid, or there
is only one output. -/
structure Aligned : Prop where
  starts : chain.kernelTypes.head? = some .matMul
  paired : Paired chain.kernelTypes
  recorded : .argmax ∈ chain.kernelTypes ∨ settled chain.kernelTypes ∨
    finalWidth chain.width chain.kernels = 1

theorem argmax_mem_kernelTypes : .argmax ∈ chain.kernelTypes ↔ .argmax ∈ chain.kernels := by
  simp only [kernelTypes, mem_filterMap]
  constructor
  · rintro ⟨function, mem, kind⟩
    cases function <;> cases kind
    exact mem
  · exact fun mem => ⟨.argmax, mem, rfl⟩

theorem Aligned.lastDim_eq {chain : Chain K} (aligned : chain.Aligned) (noArgmax : .argmax ∉ chain.kernelTypes) :
    lastDim 0 chain.kernels = finalWidth chain.width chain.kernels := by
  have widths := lastDim_of_paired aligned.paired 0 noArgmax chain.kernels_kernelTypes chain.fits
  by_cases after : settled chain.kernelTypes
  · exact widths.1 ⟨.inr (mem_of_head? aligned.starts), after⟩
  · have one := aligned.recorded.resolve_left noArgmax |>.resolve_left after
    rw [one]
    exact widths.2 (.inr (by simpa using after))

variable [Field K] [LinearOrder K] (elementary : Elementary K)

theorem fused_eq_none (activation : ∀ kernel ∈ chain.kernelTypes.head?, hasDims kernel = false)
    (rows : List (List K)) : chain.fused elementary rows = none := by
  simp [fused, chain.fuse_eq_error activation]

variable {rows : List (List K)}

theorem fused_eq (own : ∀ kernel ∈ chain.kernelTypes.head?, hasDims kernel) (wide : Wide chain.width rows) :
    chain.fused elementary rows =
      (buildLayers chain.kernelTypes (chain.kernels.flatMap buffers) (allDims 0 chain.kernels)).toOption.bind
        fun layers => (forward elementary layers (.arrays rows)).bind
          (readOutput (chain.kernelTypes.contains .argmax) (lastDim 0 chain.kernels)) := by
  rw [fused, chain.fuse_eq own]
  cases buildLayers chain.kernelTypes (chain.kernels.flatMap buffers) (allDims 0 chain.kernels) with
  | error fault => rfl
  | ok layers =>
    simp only [Except.map, TorchDNNV2.apply, chain.headD_allDims own, inputMatrix_eq wide, getLastD_allDims,
      Except.toOption]
    rfl

/-- When the network has a result, the constructor has gone through. -/
theorem exists_of_fused {expected : Value K} (wide : Wide chain.width rows)
    (result : chain.fused elementary rows = some expected) :
    (∀ kernel ∈ chain.kernelTypes.head?, hasDims kernel) ∧
      ∃ layers output,
        buildLayers chain.kernelTypes (chain.kernels.flatMap buffers) (allDims 0 chain.kernels) = .ok layers ∧
        forward elementary layers (.arrays rows) = some output ∧
        readOutput (chain.kernelTypes.contains .argmax) (lastDim 0 chain.kernels) output = some expected := by
  obtain ⟨_, _, kernel, _, _, _, head⟩ := chain.exists_first
  have own : ∀ kernel ∈ chain.kernelTypes.head?, hasDims kernel := by
    intro found mem
    cases head.symm.trans mem
    by_contra activation
    have none := chain.fused_eq_none elementary (fun other first => by
      cases head.symm.trans first
      simpa using activation) rows
    cases none.symm.trans result
  rw [chain.fused_eq elementary own wide] at result
  obtain ⟨layers, built, rest⟩ := bind_eq_some_iff.mp result
  obtain ⟨output, computed, read⟩ := bind_eq_some_iff.mp rest
  refine ⟨own, layers, output, ?_, computed, read⟩
  cases construction : buildLayers chain.kernelTypes (chain.kernels.flatMap buffers) (allDims 0 chain.kernels) with
  | error fault => simp [construction, Except.toOption] at built
  | ok found =>
    simp only [construction, Except.toOption, some.injEq] at built
    rw [built]

/-- The network of an aligned chain computes what the nested calls compute. -/
theorem Aligned.fused {chain : Chain K} (aligned : chain.Aligned) : chain.Fused elementary := by
  intro rows output wide composed
  have own : ∀ kernel ∈ chain.kernelTypes.head?, hasDims kernel := by
    rw [aligned.starts]
    intro kernel found
    cases found
    rfl
  obtain ⟨layers, built, same⟩ :=
    buildLayers_of_paired elementary aligned.paired 0 chain.kernels_kernelTypes chain.fits
  rw [chain.fused_eq elementary own wide, built]
  simp only [Except.toOption, bind_some, same rows wide, composed]
  have fits : Fits chain.width chain.kernels := chain.fits
  cases composition_output fits wide composed with
  | inl ends =>
    obtain ⟨mem, indices, rfl⟩ := ends
    simp [readOutput, chain.argmax_mem_kernelTypes.mpr mem]
  | inr ends =>
    obtain ⟨absent, result, rfl, wideResult, _⟩ := ends
    have noArgmax : .argmax ∉ chain.kernelTypes := fun mem => absent (chain.argmax_mem_kernelTypes.mp mem)
    simp [readOutput, noArgmax, aligned.lastDim_eq noArgmax, copyRows_eq wideResult]

end Chain

end CactusDB.Optimizer.MultiLayerUDF2TorchNN
