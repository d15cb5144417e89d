import CactusDB.Optimizer.MultiLayerUDF2TorchNN
import Mathlib.Analysis.SpecialFunctions.Exp

/-! Which sequences of kernels can be fused into a network. Every other sequence has a chain with rows
of width two on which the network and the nested calls disagree. -/

namespace CactusDB.Optimizer.FusionLimits
open Library.TextScan MlFunctions Rows TorchDNN List Option
open MlFunctions.Functions Resources RewriteAction NestedCalls MultiLayerUDF2TorchNN

variable {K : Type}

structure Fusible (types : List KernelType) : Prop where
  starts : types.head? = some .matMul
  paired : Paired types
  recorded : .argmax ∈ types ∨ settled types

/-- Nothing comes after `argmax`. -/
def ArgmaxLast : List KernelType → Prop
  | [] => True
  | kernel :: rest => (kernel = .argmax → rest = []) ∧ ArgmaxLast rest

theorem argmaxLast_of_fits {functions : List (VectorFunction K)} :
    ∀ {width : Nat}, Fits width functions → ArgmaxLast (functions.filterMap kernelType) := by
  induction functions with
  | nil => exact fun _ => trivial
  | cons function rest ih =>
    intro width fits
    obtain ⟨kernel, kind⟩ := isSome_iff_exists.mp fits.1.supported
    rw [filterMap_cons, kind]
    refine ⟨fun last => ?_, ih fits.2.2⟩
    have argmax : function = .argmax := by
      cases function <;> cases kind <;> cases last
      rfl
    rw [fits.2.1 argmax, filterMap_nil]

theorem Chain.argmaxLast (chain : Chain K) : ArgmaxLast chain.kernelTypes := argmaxLast_of_fits chain.fits

/-- A chain of supported names is a target as a whole. -/
theorem Chain.accepted (chain : Chain K) (supported : ∀ call ∈ chain.calls, isSupportedDLKernel call.1) :
    chain.Accepted := by
  refine ⟨{}, .mk 0 (.project [⟨"y".toList, chain.expr⟩]) [], ?_⟩
  have all : ∀ call ∈ (parseDLExpressions chain.text).reverse, isSupportedDLKernel call.1 := by
    intro call mem
    have named := mem_map_of_mem (f := Prod.fst) mem
    rw [map_reverse, chain.parsed_names] at named
    obtain ⟨source, found, same⟩ := mem_map.mp named
    exact same ▸ supported source found
  have target : fusionTarget chain.text = some chain.text := by
    unfold fusionTarget
    rw [takeWhile_eq_self_iff.mpr all, getLast?_reverse, chain.parse_text, chain.text_eq]
    cases shape : chain.names.reverse with
    | nil =>
      have empty : chain.calls = [] := by simpa [Chain.names] using shape
      exact absurd empty chain.inhabited
    | cons name rest => rfl
  have found : (check {} chain.functions (.mk 0 (.project [⟨"y".toList, chain.expr⟩]) [])).2 =
      (fusionTarget chain.text).toList := by
    simp [check, targetsIn, targetsInAll, Chain.text]
  rw [found, target]
  exact mem_singleton_self _

section

def sampleName (afterProduct : Bool) : KernelType → Text
  | .matMul => "mat_mul".toList
  | .matAdd => if afterProduct then "mat_add".toList else "mat_vector_add".toList
  | .batchNorm => "batch_norm".toList
  | .reLU => "relu".toList
  | .softmax => "softmax".toList
  | .argmax => "argmax".toList
  | .sigmoid => "sigmoid".toList

variable [Field K] (matched unmatched : K × K)

def sampleKernel (afterProduct : Bool) : KernelType → VectorFunction K
  | .matMul => .matrixMultiply [1, 0, 0, 1] 2 2
  | .matAdd =>
    if afterProduct then .matrixVectorAddition [matched.1, matched.2] 2
    else .matrixVectorAddition [unmatched.1, unmatched.2] 2
  | .batchNorm => .batchNorm1D [1, 1] [1, 1] 1 2
  | .reLU => .relu
  | .softmax => .softmax
  | .argmax => .argmax
  | .sigmoid => .sigmoid

def sampleFunctions : TextMap (VectorFunction K) :=
  [(false, KernelType.matMul), (true, .matAdd), (false, .matAdd), (false, .batchNorm), (false, .reLU),
    (false, .softmax), (false, .argmax), (false, .sigmoid)].foldl
    (fun functions place =>
      functions.insert (sampleName place.1 place.2) (sampleKernel matched unmatched place.1 place.2)) ∅

def sampleCalls : Bool → List KernelType → List (Text × VectorFunction K)
  | _, [] => []
  | afterProduct, kernel :: rest =>
    (sampleName afterProduct kernel, sampleKernel matched unmatched afterProduct kernel) ::
      sampleCalls (kernel = .matMul) rest

def sampleKernels (afterProduct : Bool) (types : List KernelType) : List (VectorFunction K) :=
  (sampleCalls matched unmatched afterProduct types).map Prod.snd

variable (afterProduct : Bool) (kernel : KernelType)

theorem kernelType_sampleKernel : kernelType (sampleKernel matched unmatched afterProduct kernel) = some kernel := by
  cases kernel with
  | matAdd => cases afterProduct <;> rfl
  | _ => rfl

theorem registered_sampleKernel :
    (sampleFunctions matched unmatched)[sanitizeName (sampleName afterProduct kernel)]? =
      some (sampleKernel matched unmatched afterProduct kernel) := by
  cases kernel with
  | matAdd => cases afterProduct <;> rfl
  | _ => rfl

theorem sampleName_facts :
    kernelTypeOf (sampleName afterProduct kernel) = some kernel ∧ Plain (sampleName afterProduct kernel) ∧
      isSupportedDLKernel (sampleName afterProduct kernel) := by
  cases afterProduct <;> cases kernel <;> decide

variable {types : List KernelType}

theorem mem_sampleCalls : ∀ {afterProduct : Bool} {call : Text × VectorFunction K},
      call ∈ sampleCalls matched unmatched afterProduct types →
        ∃ flag kernel, call = (sampleName flag kernel, sampleKernel matched unmatched flag kernel) := by
  induction types with
  | nil => exact fun mem => absurd mem not_mem_nil
  | cons kernel rest ih =>
    intro afterProduct call mem
    cases mem_cons.mp mem with
    | inl here => exact ⟨afterProduct, kernel, here⟩
    | inr below => exact ih below

theorem filterMap_sampleKernels (types : List KernelType) :
    ∀ afterProduct, (sampleKernels matched unmatched afterProduct types).filterMap kernelType = types := by
  induction types with
  | nil => exact fun _ => rfl
  | cons kernel rest ih =>
    intro afterProduct
    have below := ih (kernel = .matMul)
    simp only [sampleKernels, sampleCalls, map_cons, filterMap_cons, kernelType_sampleKernel] at below ⊢
    rw [below]

theorem fits_sampleKernels :
    ∀ {afterProduct : Bool}, ArgmaxLast types → Fits 2 (sampleKernels matched unmatched afterProduct types) := by
  induction types with
  | nil => exact fun _ => trivial
  | cons kernel rest ih =>
    intro afterProduct last
    have below : Fits 2 (sampleKernels matched unmatched (decide (kernel = .matMul)) rest) := ih last.2
    cases kernel
    case argmax =>
      cases last.1 rfl
      exact ⟨trivial, fun _ => rfl, trivial⟩
    case matAdd =>
      cases afterProduct
      · exact ⟨⟨rfl, rfl⟩, fun absurd => (nomatch absurd), below⟩
      · exact ⟨⟨rfl, rfl⟩, fun absurd => (nomatch absurd), below⟩
    case matMul => exact ⟨⟨rfl, rfl, Nat.succ_pos 1⟩, fun absurd => (nomatch absurd), below⟩
    case batchNorm => exact ⟨⟨rfl, rfl, rfl⟩, fun absurd => (nomatch absurd), below⟩
    all_goals exact ⟨trivial, fun absurd => (nomatch absurd), below⟩

def sampleChain (types : List KernelType) (inhabited : types ≠ []) (last : ArgmaxLast types) : Chain K where
  functions := sampleFunctions matched unmatched
  calls := sampleCalls matched unmatched false types
  column := "v".toList
  width := 2
  inhabited := by
    cases types with
    | nil => exact absurd rfl inhabited
    | cons kernel rest => exact cons_ne_nil _ _
  plain := fun call mem => by
    obtain ⟨flag, kernel, rfl⟩ := mem_sampleCalls matched unmatched mem
    exact (sampleName_facts flag kernel).2.1
  closed := by decide
  recognised := fun call mem => by
    obtain ⟨flag, kernel, rfl⟩ := mem_sampleCalls matched unmatched mem
    have kind := kernelType_sampleKernel matched unmatched flag kernel
    exact ⟨(sampleName_facts flag kernel).1.trans kind.symm, by simp [kind],
      registered_sampleKernel matched unmatched flag kernel⟩
  width_pos := Nat.succ_pos 1
  fits := fits_sampleKernels matched unmatched last

theorem kernelTypes_sampleChain (inhabited : types ≠ []) (last : ArgmaxLast types) :
    (sampleChain matched unmatched types inhabited last).kernelTypes = types :=
  filterMap_sampleKernels matched unmatched types false

theorem accepted_sampleChain (inhabited : types ≠ []) (last : ArgmaxLast types) :
    (sampleChain matched unmatched types inhabited last).Accepted := by
  apply Chain.accepted
  intro call mem
  obtain ⟨flag, kernel, rfl⟩ := mem_sampleCalls matched unmatched mem
  exact (sampleName_facts flag kernel).2.2

end

section

variable [Field K] [LinearOrder K] {elementary : Elementary K} {function : VectorFunction K} {rows : List (List K)}

theorem apply_defined (elementary : Elementary K) {width : Nat}
    (accepts : Accepts width function) (wide : Wide width rows)
    (several : rows.length = 1 → kernelType function ≠ some .batchNorm) :
    ∃ output, function.apply elementary (.arrays rows) = some output := by
  cases rowAction elementary accepts wide with
  | rowwise _ _ _ _ computed => exact ⟨_, computed⟩
  | argmax computed => exact ⟨_, computed⟩
  | single kind one _ => exact absurd kind (several one)
  | normalised _ _ _ computed => exact ⟨_, computed⟩

/-- The nested calls have a result, unless a single row is normalised. -/
theorem composition_defined (elementary : Elementary K) :
    ∀ {functions : List (VectorFunction K)} {width : Nat} {rows : List (List K)}, Fits width functions →
      Wide width rows → (rows.length = 1 → .batchNorm ∉ functions.filterMap kernelType) →
        ∃ output, composition elementary functions (.arrays rows) = some output := by
  intro functions
  induction functions with
  | nil => exact fun _ _ _ => ⟨_, rfl⟩
  | cons function rest ih =>
    intro width rows fits wide several
    have here : rows.length = 1 → kernelType function ≠ some .batchNorm := fun single kind =>
      several single (mem_filterMap.mpr ⟨function, mem_cons_self, kind⟩)
    have below : rows.length = 1 → .batchNorm ∉ rest.filterMap kernelType := fun single mem => by
      obtain ⟨other, found, kind⟩ := mem_filterMap.mp mem
      exact several single (mem_filterMap.mpr ⟨other, mem_cons_of_mem function found, kind⟩)
    obtain ⟨value, applied⟩ := apply_defined elementary fits.1 wide here
    rw [composition_cons, applied, bind_some]
    by_cases last : function = .argmax
    · rw [fits.2.1 last]
      exact ⟨value, rfl⟩
    · obtain ⟨result, rfl, wideResult, sameLength⟩ := apply_arrays fits.1 last wide applied
      exact ih fits.2.2 wideResult (sameLength ▸ below)

def Uniform : Value K → Prop
  | .arrays rows => ∀ row ∈ rows, ∀ other ∈ rows, row = other
  | .labels indices => ∀ index ∈ indices, ∀ other ∈ indices, index = other

theorem uniform_map {α β : Type} {list : List α} (uniform : ∀ x ∈ list, ∀ y ∈ list, x = y) (f : α → β) :
    ∀ x ∈ list.map f, ∀ y ∈ list.map f, x = y := by
  intro x mem y other
  obtain ⟨a, found, rfl⟩ := mem_map.mp mem
  obtain ⟨b, alsoFound, rfl⟩ := mem_map.mp other
  rw [uniform a found b alsoFound]

/-- Kernels keep equal rows equal, and a normalisation makes them so. -/
theorem uniform_apply {width : Nat} {output : Value K} (accepts : Accepts width function) (wide : Wide width rows)
    (applied : function.apply elementary (.arrays rows) = some output)
    (before : Uniform (.arrays rows) ∨ kernelType function = some .batchNorm) : Uniform output := by
  cases rowAction elementary accepts wide with
  | rowwise f _ other _ computed =>
    cases computed.symm.trans applied
    exact uniform_map (before.resolve_right other) f
  | argmax computed =>
    cases computed.symm.trans applied
    exact uniform_map (before.resolve_right fun kind => nomatch kind) argmaxRow
  | single _ _ undefined => cases undefined.symm.trans applied
  | normalised _ result _ computed =>
    cases computed.symm.trans applied
    intro row mem other alsoMember
    obtain ⟨_, _, rfl⟩ := mem_map.mp mem
    obtain ⟨_, _, rfl⟩ := mem_map.mp alsoMember
    rfl

theorem uniform_composition :
    ∀ {functions : List (VectorFunction K)} {width : Nat} {rows : List (List K)} {output : Value K},
      Fits width functions → Wide width rows → composition elementary functions (.arrays rows) = some output →
        Uniform (.arrays rows) ∨ .batchNorm ∈ functions.filterMap kernelType → Uniform output := by
  intro functions
  induction functions with
  | nil =>
    intro width rows output _ _ composed before
    cases composed
    exact before.resolve_right not_mem_nil
  | cons function rest ih =>
    intro width rows output fits wide composed before
    obtain ⟨value, applied, onward⟩ := bind_eq_some_iff.mp composed
    have here := uniform_apply fits.1 wide applied
    by_cases last : function = .argmax
    · cases fits.2.1 last
      cases onward
      subst last
      exact here (before.imp_right fun mem => by simp [kernelType] at mem)
    · obtain ⟨result, rfl, wideResult, _⟩ := apply_arrays fits.1 last wide applied
      apply ih fits.2.2 wideResult onward
      obtain ⟨kernel, kind⟩ := isSome_iff_exists.mp fits.1.supported
      rw [filterMap_cons, kind, mem_cons] at before
      by_cases normalised : .batchNorm ∈ rest.filterMap kernelType
      · exact .inr normalised
      · left
        exact here (before.imp_right fun found => by rw [kind, found.resolve_right normalised])

end

section

theorem pushLayer_short {buffer : List K} (short : buffer.length = 2) (weights : List (List K)) :
    pushLayer .matMul (some .matAdd) (buffer :: weights) 2 2 = .error .undefined := by
  cases weights <;> simp [pushLayer, nextTensors, fromBlob, short, bind, Except.bind]

variable {weight : List K} {bias : List K}

theorem pushLayer_batchNorm (next : Option KernelType) (weights : List (List K))
    (weightShort : weight.length = 2) (biasShort : bias.length = 2) :
    pushLayer .batchNorm next (weight :: bias :: weights) 2 2 =
      .ok ([.batchNorm1d 2 weight bias], weights) := by
  simp [pushLayer, nextTensors, fromBlob, weightShort, biasShort, bind, Except.bind, pure, Except.pure,
    take_of_length_le]

variable [Field K] (matched unmatched : K × K)

def activationLayer : KernelType → Option (Layer K)
  | .reLU => some .reLU
  | .sigmoid => some .sigmoid
  | .softmax => some .softmax
  | .argmax => some .argmax
  | _ => none

/-- How the constructor gets through the kernels of a sample. The buffers of biases without a product
are left pending, and whatever is read next is read from them. -/
inductive Build : List (List K) → List KernelType → List (Layer K) → Prop where
  | nil {pending : List (List K)} : Build pending [] []
  | dense {rest : List KernelType} {tail : List (Layer K)} (below : Build [] rest tail) :
      Build [] (.matMul :: .matAdd :: rest) (.linear 2 2 [1, 0, 0, 1] [matched.1, matched.2] :: tail)
  | bias {pending : List (List K)} {rest : List KernelType} {layers : List (Layer K)}
      (below : Build (pending ++ [[unmatched.1, unmatched.2]]) rest layers) :
      Build pending (.matAdd :: rest) layers
  | normalise {pending left : List (List K)} {weight bias : List K} {rest : List KernelType}
      {tail : List (Layer K)} (shift : pending ++ [[1, 1], [1, 1]] = weight :: bias :: left)
      (below : Build left rest tail) :
      Build pending (.batchNorm :: rest) (.batchNorm1d 2 weight bias :: tail)
  | activation {pending : List (List K)} {kernel : KernelType} {layer : Layer K} {rest : List KernelType}
      {tail : List (Layer K)} (kind : activationLayer kernel = some layer) (below : Build pending rest tail) :
      Build pending (kernel :: rest) (layer :: tail)

theorem exists_two (pending : List (List K)) :
    ∃ weight bias left, pending ++ [[1, 1], [1, 1]] = weight :: bias :: left := by
  match pending with
  | [] => exact ⟨_, _, _, rfl⟩
  | [buffer] => exact ⟨_, _, _, rfl⟩
  | first :: second :: rest => exact ⟨_, _, _, rfl⟩

variable {pending left : List (List K)}

theorem forall_of_shift {P : List K → Prop} (all : ∀ buffer ∈ pending, P buffer) (ones : P [1, 1])
    (shift : pending ++ [[1, 1], [1, 1]] = weight :: bias :: left) : ∀ buffer ∈ weight :: bias :: left, P buffer := by
  rw [← shift]
  exact forall_mem_append.mpr ⟨all, by simpa using ones⟩

/-- A normalisation reads the first two buffers, which are its own only if nothing is pending. -/
theorem normalise_reads {rest : List KernelType} (shift : pending ++ [[1, 1], [1, 1]] = weight :: bias :: left) :
    pending ++ (sampleKernels matched unmatched false (.batchNorm :: rest)).flatMap buffers =
      weight :: bias :: (left ++ (sampleKernels matched unmatched false rest).flatMap buffers) := by
  calc pending ++ (sampleKernels matched unmatched false (.batchNorm :: rest)).flatMap buffers
      = pending ++ [[1, 1], [1, 1]] ++ (sampleKernels matched unmatched false rest).flatMap buffers :=
        (append_assoc _ _ _).symm
    _ = _ := by rw [shift]; rfl

theorem build_of_ok :
    ∀ (types : List KernelType) {pending : List (List K)} {last : Nat} {layers : List (Layer K)},
      (∀ buffer ∈ pending, buffer.length = 2) →
        buildLayers types (pending ++ (sampleKernels matched unmatched false types).flatMap buffers)
          (allDims last (sampleKernels matched unmatched false types)) = .ok layers →
        Build matched unmatched pending types layers
  | [], pending, last, layers, _, built => by
    cases built
    exact .nil
  | .matMul :: [], pending, last, layers, _, built => by
    obtain ⟨_, _, _, pushed, _⟩ := exists_of_buildLayers_ok built
    cases pushed
  | .matMul :: next :: rest, pending, last, layers, short, built => by
    by_cases paired : next = .matAdd
    · subst paired
      cases pending with
      | nil =>
        obtain ⟨_, _, _, pushed, below, rfl⟩ := exists_of_buildLayers_ok built
        cases pushed
        obtain ⟨_, _, tail, pushed, below, rfl⟩ := exists_of_buildLayers_ok below
        cases pushed
        exact .dense (build_of_ok rest (fun _ mem => absurd mem not_mem_nil) below)
      | cons buffer more =>
        -- a pending bias is too short for the product
        obtain ⟨_, _, _, pushed, _⟩ := exists_of_buildLayers_ok built
        have undefined := pushLayer_short (short buffer mem_cons_self)
          (more ++ (sampleKernels matched unmatched false (.matMul :: .matAdd :: rest)).flatMap buffers)
        cases undefined.symm.trans pushed
    · obtain ⟨_, _, _, pushed, _⟩ := exists_of_buildLayers_ok built
      simp [pushLayer, paired] at pushed
  | .matAdd :: rest, pending, last, layers, short, built => by
    obtain ⟨_, _, tail, pushed, below, rfl⟩ := exists_of_buildLayers_ok built
    cases pushed
    refine .bias (build_of_ok rest ?_ (by rw [append_assoc]; exact below))
    exact forall_mem_append.mpr ⟨short, forall_mem_singleton.mpr rfl⟩
  | .batchNorm :: rest, pending, last, layers, short, built => by
    obtain ⟨weight, bias, left, shift⟩ := exists_two pending
    have lengths := forall_of_shift short rfl shift
    rw [normalise_reads matched unmatched shift] at built
    obtain ⟨_, _, tail, pushed, below, rfl⟩ := exists_of_buildLayers_ok built
    have layer := pushLayer_batchNorm rest.head?
      (left ++ (sampleKernels matched unmatched false rest).flatMap buffers) (lengths weight (by simp))
      (lengths bias (by simp))
    cases layer.symm.trans pushed
    exact .normalise shift (build_of_ok rest (fun buffer mem => lengths buffer (by simp [mem])) below)
  | .reLU :: rest, pending, last, layers, short, built | .sigmoid :: rest, pending, last, layers, short, built
  | .softmax :: rest, pending, last, layers, short, built | .argmax :: rest, pending, last, layers, short, built => by
    obtain ⟨_, _, tail, pushed, below, rfl⟩ := exists_of_buildLayers_ok built
    cases pushed
    exact .activation rfl (build_of_ok rest short below)

end

section

variable [Field K]

theorem dense_unit (a b : K) : dense 2 2 [1, 0, 0, 1] [a, b] = [a, b] := by
  simp [dense, range_succ]

variable [LinearOrder K]

def Rising (a b : K) : Prop := a < b ∧ 0 < b

def Mirrored : Value K → Prop
  | .arrays rows => ∃ a b, Rising a b ∧ rows = [[a, b], [b, a]]
  | .labels indices => indices = [1, 0]

inductive Symmetric : Layer K → Prop where
  | linear : Symmetric (.linear 2 2 [1, 0, 0, 1] [1, 1])
  | batchNorm1d : Symmetric (.batchNorm1d 2 [1, 1] [1, 1])
  | reLU : Symmetric .reLU
  | sigmoid : Symmetric .sigmoid
  | softmax : Symmetric .softmax
  | argmax : Symmetric .argmax

variable {a b : K}

theorem Rising.reluFunction (rising : Rising a b) : Rising (reluFunction a) (reluFunction b) := by
  have upper : MlFunctions.Rows.reluFunction b = b := if_pos rising.2
  rw [upper]
  refine ⟨?_, rising.2⟩
  unfold MlFunctions.Rows.reluFunction
  split
  · exact rising.1
  · exact rising.2

variable [IsStrictOrderedRing K]

theorem Rising.add_one (rising : Rising a b) : Rising (a + 1) (b + 1) :=
  ⟨by simpa using rising.1, add_pos rising.2 one_pos⟩

variable {elementary : Elementary K} (lawful : elementary.Lawful)
include lawful

theorem Rising.sigmoidFunction (rising : Rising a b) :
    Rising (sigmoidFunction elementary a) (sigmoidFunction elementary b) :=
  ⟨sigmoidFunction_strictMono lawful rising.1, sigmoidFunction_pos lawful b⟩

theorem Rising.normalize (rising : Rising a b) :
    Rising (normalize elementary 0 1 (1 / 100000) 1 1 a) (normalize elementary 0 1 (1 / 100000) 1 1 b) := by
  have root : 0 < elementary.sqrt (1 + 1 / 100000) :=
    lawful.sqrt_pos _ (add_pos one_pos (one_div_pos.mpr (by norm_num)))
  simp only [MlFunctions.Rows.normalize, sub_zero, mul_one]
  exact Rising.add_one ⟨(div_lt_div_iff_of_pos_right root).mpr rising.1, div_pos rising.2 root⟩

theorem mirrored_forward {layer : Layer K} (symmetric : Symmetric layer) {rows : List (List K)} {output : Value K}
    (mirrored : Mirrored (.arrays rows)) (computed : layer.forward elementary (.arrays rows) = some output) :
    Mirrored output := by
  obtain ⟨a, b, rising, rfl⟩ := mirrored
  cases symmetric with
  | linear =>
    simp only [Layer.forward, all_cons, length_cons, length_nil, all_nil, map_cons,
      map_nil, dense_unit] at computed
    cases computed
    exact ⟨a + 1, b + 1, rising.add_one, rfl⟩
  | batchNorm1d =>
    let scaled := normalize elementary 0 1 (1 / 100000) 1 1
    have shape : (Layer.batchNorm1d 2 [1, 1] [1, 1]).forward elementary (.arrays [[a, b], [b, a]]) =
        some (.arrays [[scaled a, scaled b], [scaled b, scaled a]]) := by
      simp [Layer.forward, range_succ, scaled]
    cases shape.symm.trans computed
    exact ⟨_, _, rising.normalize lawful, rfl⟩
  | reLU =>
    cases computed
    exact ⟨_, _, rising.reluFunction, rfl⟩
  | sigmoid =>
    cases computed
    exact ⟨_, _, rising.sigmoidFunction lawful, rfl⟩
  | softmax =>
    obtain ⟨p, q, forth, back, mono, _, _, positive, _⟩ := softmaxRow_pair lawful a b
    simp only [Layer.forward, map_cons, map_nil, forth, back] at computed
    cases computed
    exact ⟨p, q, ⟨mono rising.1, positive⟩, rfl⟩
  | argmax =>
    cases computed
    simp [Mirrored, argmaxRow, rising.1, rising.1.le]

theorem mirrored_run {layers : List (Layer K)} (symmetric : ∀ layer ∈ layers, Symmetric layer) :
    ∀ {input output : Value K}, Mirrored input → forward elementary layers input = some output →
      Mirrored output := by
  induction layers with
  | nil =>
    intro input output mirrored computed
    cases computed
    exact mirrored
  | cons layer rest ih =>
    intro input output mirrored computed
    obtain ⟨value, first, onward⟩ := bind_eq_some_iff.mp computed
    apply ih (fun other mem => symmetric other (mem_cons_of_mem layer mem)) _ onward
    cases input with
    | labels indices => cases first
    | arrays rows => exact mirrored_forward lawful (symmetric layer mem_cons_self) mirrored first

end

variable {types : List KernelType} {layers : List (Layer K)}

theorem symmetric_of_build [Field K] [LinearOrder K] {pending : List (List K)}
    (build : Build (1, 1) (1, 1) pending types layers) :
    (∀ buffer ∈ pending, buffer = [1, 1]) → ∀ layer ∈ layers, Symmetric layer := by
  induction build with
  | nil => exact fun _ layer mem => absurd mem not_mem_nil
  | dense _ ih =>
    intro _ layer mem
    cases mem with
    | head => exact .linear
    | tail _ below => exact ih (fun _ found => absurd found not_mem_nil) layer below
  | bias _ ih =>
    intro ones
    exact ih (forall_mem_append.mpr ⟨ones, forall_mem_singleton.mpr rfl⟩)
  | @normalise pending left weight bias rest tail shift _ ih =>
    intro ones
    have same := forall_of_shift ones rfl shift
    intro layer mem
    cases mem with
    | head =>
      rw [same weight (by simp), same bias (by simp)]
      exact .batchNorm1d
    | tail _ below => exact ih (fun buffer found => same buffer (by simp [found])) layer below
  | @activation pending kernel layer rest tail kind _ ih =>
    intro ones other mem
    cases mem with
    | head =>
      cases kernel <;> cases kind
      · exact .reLU
      · exact .softmax
      · exact .argmax
      · exact .sigmoid
    | tail _ below => exact ih ones other below

open VectorFunction

section

variable (row : List K)

theorem inputMatrix_single : inputMatrix (numCols [row]) [row] = some [row] :=
  inputMatrix_numCols fun other mem => by rw [mem_singleton.mp mem]

variable [Field K] [LinearOrder K]

/-- The row of the nested calls and the row of the network: the same until a bias is skipped, and
ordered the other way round from then on. -/
inductive Drift (pending : List (List K)) : List K → List K → Prop where
  | together {x y : K} (nothing : pending = []) (low : 0 ≤ x) (less : x < y) (high : y ≤ 1) :
      Drift pending [x, y] [x, y]
  | apart {a b c d : K} (skipped : pending ≠ []) (falling : Rising b a) (rising : Rising c d) :
      Drift pending [a, b] [c, d]

inductive Differ : Value K → Value K → Prop where
  | arrays {row other : List K} (wide : row.length = 2) (otherWide : other.length = 2) (different : row ≠ other) :
      Differ (.arrays [row]) (.arrays [other])
  | labels {index other : Nat} (different : index ≠ other) : Differ (.labels [index]) (.labels [other])

variable (elementary : Elementary K)

theorem apply_sample_product (x y : K) :
    (matrixMultiply [1, 0, 0, 1] 2 2).apply elementary (.arrays [[x, y]]) =
      some (.arrays [[x, y]]) := by
  simp [apply, inputMatrix, dense_unit]

theorem apply_sample_bias (u v x y : K) :
    (matrixVectorAddition [u, v] 2).apply elementary (.arrays [[x, y]]) =
      some (.arrays [[x + u, y + v]]) := by
  simp [apply, inputMatrix, addRow]

theorem apply_softmax_single :
    softmax.apply elementary (.arrays [row]) =
      some (.arrays [MlFunctions.Rows.softmaxRow elementary row]) := by
  simp [apply, inputMatrix_single]

theorem apply_argmax_single :
    argmax.apply elementary (.arrays [row]) = some (.labels [argmaxRow row]) := by
  simp [apply, inputMatrix_single]

theorem forward_sample_linear (x y : K) :
    (Layer.linear 2 2 [1, 0, 0, 1] [0, 0]).forward elementary (.arrays [[x, y]]) = some (.arrays [[x, y]]) := by
  simp [Layer.forward, dense_unit, addRow]

theorem reluFunction_unit {x : K} (low : 0 ≤ x) (high : x ≤ 1) : 0 ≤ reluFunction x ∧ reluFunction x ≤ 1 := by
  unfold reluFunction
  split
  · exact ⟨low, high⟩
  · exact ⟨le_refl 0, low.trans high⟩

variable {pending : List (List K)} {row other : List K}

theorem Drift.differ (drift : Drift pending row other)
    (skipped : pending ≠ []) : Differ (.arrays [row]) (.arrays [other]) := by
  cases drift with
  | together nothing => exact absurd nothing skipped
  | apart _ falling rising =>
    refine .arrays rfl rfl fun same => ?_
    cases same
    exact lt_asymm falling.1 rising.1

/-- A map of the entries that keeps the order of positive ones, within the unit interval. -/
theorem Drift.map (drift : Drift pending row other) {f : K → K}
    (rises : ∀ {a b : K}, Rising a b → Rising (f a) (f b)) (unit : ∀ {x : K}, 0 ≤ x → x ≤ 1 → 0 ≤ f x ∧ f x ≤ 1) :
    Drift pending (row.map f) (other.map f) := by
  cases drift with
  | together nothing low less high =>
    have positive := low.trans_lt less
    exact .together nothing (unit low (less.le.trans high)).1 (rises ⟨less, positive⟩).1
      (unit positive.le high).2
  | apart skipped falling rising => exact .apart skipped (rises falling) (rises rising)

variable [IsStrictOrderedRing K]

theorem Drift.skip (drift : Drift pending row other) (buffer : List K) :
    ∃ x y, row = [x, y] ∧ Drift (pending ++ [buffer]) [x + 2, y + 0] other := by
  have skipped : pending ++ [buffer] ≠ [] := by simp
  cases drift with
  | @together x y nothing low less high =>
    refine ⟨x, y, rfl, .apart skipped ⟨?_, ?_⟩ ⟨less, low.trans_lt less⟩⟩ <;> linarith
  | @apart a b c d _ falling rising =>
    refine ⟨a, b, rfl, .apart skipped ⟨?_, ?_⟩ rising⟩ <;> linarith [falling.1, falling.2]

variable {elementary : Elementary K}

theorem Drift.softmaxRow (lawful : elementary.Lawful) (drift : Drift pending row other) :
    Drift pending (softmaxRow elementary row) (softmaxRow elementary other) := by
  cases drift with
  | @together x y nothing low less high =>
    obtain ⟨p, q, forth, _, mono, positive, _, _, one⟩ := softmaxRow_pair lawful x y
    rw [forth]
    exact .together nothing positive.le (mono less) one
  | @apart a b c d skipped falling rising =>
    obtain ⟨p, q, _, back, mono, _, _, positive, _⟩ := softmaxRow_pair lawful b a
    obtain ⟨r, s, forth, _, mono', _, _, positive', _⟩ := softmaxRow_pair lawful c d
    rw [back, forth]
    exact .apart skipped ⟨mono falling.1, positive⟩ ⟨mono' rising.1, positive'⟩

/-- Without a normalisation, either no bias was skipped or the results differ. -/
theorem differ_of_build (lawful : elementary.Lawful) (build : Build (0, 0) (2, 0) pending types layers) :
    ∀ {row other : List K} {expected actual : Value K}, .batchNorm ∉ types → ArgmaxLast types →
      Drift pending row other →
      composition elementary (sampleKernels (0, 0) (2, 0) false types) (.arrays [row]) = some expected →
      forward elementary layers (.arrays [other]) = some actual →
        (pending = [] ∧ Paired types) ∨ Differ expected actual := by
  induction build with
  | @nil pending =>
    intro row other expected actual _ _ drift composed computed
    cases composed
    cases computed
    by_cases nothing : pending = []
    · exact .inl ⟨nothing, .nil⟩
    · exact .inr (drift.differ nothing)
  | @dense rest tail _ ih =>
    intro row other expected actual plain last drift composed computed
    cases drift with
    | apart skipped => exact absurd rfl skipped
    | @together x y _ low less high =>
      change composition elementary (.matrixMultiply [1, 0, 0, 1] 2 2 :: .matrixVectorAddition [0, 0] 2 ::
        sampleKernels (0, 0) (2, 0) false rest) (.arrays [[x, y]]) = some expected at composed
      rw [composition_cons, apply_sample_product, bind_some, composition_cons, apply_sample_bias,
        bind_some, add_zero, add_zero] at composed
      rw [forward_cons, forward_sample_linear, bind_some] at computed
      have below : .batchNorm ∉ rest := fun mem => plain (by simp [mem])
      cases ih below last.2.2 (.together rfl low less high) composed computed with
      | inl paired => exact .inl ⟨rfl, .dense paired.2⟩
      | inr differ => exact .inr differ
  | @bias pending rest layers _ ih =>
    intro row other expected actual plain last drift composed computed
    obtain ⟨x, y, rfl, next⟩ := drift.skip [2, 0]
    change composition elementary (.matrixVectorAddition [2, 0] 2 ::
      sampleKernels (0, 0) (2, 0) false rest) (.arrays [[x, y]]) = some expected at composed
    rw [composition_cons, apply_sample_bias, bind_some] at composed
    have below : .batchNorm ∉ rest := fun mem => plain (by simp [mem])
    cases ih below last.2 next composed computed with
    | inl paired => exact absurd paired.1 (by simp)
    | inr differ => exact .inr differ
  | normalise => exact fun plain => absurd mem_cons_self plain
  | @activation pending kernel layer rest tail kind build ih =>
    intro row other expected actual plain last drift composed computed
    have below : .batchNorm ∉ rest := fun mem => plain (by simp [mem])
    have onward {next following : List K} (drift : Drift pending next following)
        (composed : composition elementary (sampleKernels (0, 0) (2, 0) false rest) (.arrays [next]) =
          some expected)
        (computed : forward elementary tail (.arrays [following]) = some actual)
        (activation : hasDims kernel = false) :
        (pending = [] ∧ Paired (kernel :: rest)) ∨ Differ expected actual := by
      cases ih below last.2 drift composed computed with
      | inl paired => exact .inl ⟨paired.1, .activation activation paired.2⟩
      | inr differ => exact .inr differ
    cases kernel <;> cases kind
    case activation.reLU => exact onward (drift.map Rising.reluFunction reluFunction_unit) composed computed rfl
    case activation.sigmoid =>
      have unit {x : K} (_ : 0 ≤ x) (_ : x ≤ 1) :
          0 ≤ sigmoidFunction elementary x ∧ sigmoidFunction elementary x ≤ 1 :=
        ⟨(sigmoidFunction_pos lawful x).le, (sigmoidFunction_lt_one lawful x).le⟩
      exact onward (drift.map (Rising.sigmoidFunction lawful) unit) composed computed rfl
    case activation.softmax =>
      change composition elementary (.softmax :: sampleKernels (0, 0) (2, 0) false rest) (.arrays [row]) =
        some expected at composed
      rw [composition_cons, apply_softmax_single, bind_some] at composed
      exact onward (drift.softmaxRow lawful) composed computed rfl
    case activation.argmax =>
      cases last.1 rfl
      change composition elementary [.argmax] (.arrays [row]) = some expected at composed
      rw [composition_cons, apply_argmax_single] at composed
      cases composed
      cases build
      cases computed
      cases drift with
      | together nothing => exact .inl ⟨nothing, .activation rfl .nil⟩
      | apart _ falling rising =>
        right
        have first := falling.1.le
        have second := rising.1
        exact .labels (by simp [argmaxRow, first, second])

end

section

variable [Field K]

theorem finalWidth_sampleKernels (matched unmatched : K × K) (types : List KernelType) :
    ∀ afterProduct, finalWidth 2 (sampleKernels matched unmatched afterProduct types) = 2 := by
  induction types with
  | nil => exact fun _ => rfl
  | cons kernel rest ih =>
    intro afterProduct
    have here : outputWidth 2 (sampleKernel matched unmatched afterProduct kernel) = 2 := by
      cases kernel with
      | matAdd => cases afterProduct <;> rfl
      | _ => rfl
    have below := ih (kernel = .matMul)
    simp only [finalWidth, sampleKernels, sampleCalls, map_cons, foldl_cons, here] at below ⊢
    exact below

variable [LinearOrder K]

/-- The arrays of a result have width two, one for each row. -/
theorem wide_of_sample {elementary : Elementary K} {matched unmatched : K × K}
    (last : ArgmaxLast types) {rows result : List (List K)} (wide : Wide 2 rows)
    (composed : composition elementary (sampleKernels matched unmatched false types) (.arrays rows) =
      some (.arrays result)) : Wide 2 result ∧ result.length = rows.length := by
  cases composition_output (fits_sampleKernels matched unmatched last) wide composed with
  | inl ends =>
    obtain ⟨_, _, shape⟩ := ends
    cases shape
  | inr ends =>
    obtain ⟨_, _, shape, wideResult, sameLength⟩ := ends
    cases shape
    exact ⟨finalWidth_sampleKernels matched unmatched types false ▸ wideResult, sameLength⟩

variable [IsStrictOrderedRing K] {elementary : Elementary K} (lawful : elementary.Lawful)
  {types : List KernelType} (inhabited : types ≠ []) (last : ArgmaxLast types)
include lawful

/-- A normalisation gives the same row for the whole batch, and the network does not. -/
theorem not_fused_of_batchNorm (normalised : .batchNorm ∈ types) :
    ¬ (sampleChain (1, 1) (1, 1) types inhabited last : Chain K).Fused elementary := by
  intro fused
  have wide : Wide 2 ([[0, 1], [1, 0]] : List (List K)) := by simp [Wide]
  have fits : Fits 2 (sampleKernels ((1, 1) : K × K) (1, 1) false types) := fits_sampleKernels _ _ last
  obtain ⟨expected, composed⟩ := composition_defined elementary fits wide (by simp)
  have uniform : Uniform expected := uniform_composition fits wide composed
    (.inr (by rw [filterMap_sampleKernels]; exact normalised))
  obtain ⟨_, layers, output, built, computed, read⟩ :=
    Chain.exists_of_fused _ elementary wide (fused _ expected wide composed)
  rw [kernelTypes_sampleChain] at built
  have build : Build (1, 1) (1, 1) [] types layers :=
    build_of_ok (1, 1) (1, 1) types (fun _ mem => absurd mem not_mem_nil) built
  have symmetric := symmetric_of_build build fun _ mem => absurd mem not_mem_nil
  have start : Mirrored (.arrays ([[0, 1], [1, 0]] : List (List K))) :=
    ⟨0, 1, ⟨zero_lt_one, zero_lt_one⟩, rfl⟩
  have mirrored := mirrored_run lawful symmetric start computed
  rcases readOutput_cases read with ⟨indices, rfl, rfl⟩ | ⟨rows, result, rfl, rfl, copied⟩
  · obtain rfl : indices = [1, 0] := mirrored
    exact absurd (uniform 1 (by simp) 0 (by simp)) Nat.one_ne_zero
  · obtain ⟨a, b, rising, rfl⟩ := mirrored
    have same := eq_of_copyRows (by simp [Wide]) copied (wide_of_sample last wide composed).1
    rw [same] at uniform
    have equal := uniform [a, b] (by simp) [b, a] (by simp)
    exact absurd (List.cons.inj equal).1 rising.1.ne

/-- Without a normalisation the sample decides whether the kernels can be fused. -/
theorem fusible_of_fused (plain : .batchNorm ∉ types)
    (fused : (sampleChain (0, 0) (2, 0) types inhabited last : Chain K).Fused elementary) : Fusible types := by
  have wide : Wide 2 ([[0, 1]] : List (List K)) := by simp [Wide]
  have fits : Fits 2 (sampleKernels ((0, 0) : K × K) (2, 0) false types) := fits_sampleKernels _ _ last
  have kinds : (sampleKernels ((0, 0) : K × K) (2, 0) false types).map kernelType = types.map some := by
    have := Chain.kernels_kernelTypes (sampleChain ((0, 0) : K × K) (2, 0) types inhabited last)
    rwa [kernelTypes_sampleChain] at this
  obtain ⟨expected, composed⟩ := composition_defined elementary fits wide
    (fun _ => by rw [filterMap_sampleKernels]; exact plain)
  obtain ⟨own, layers, output, built, computed, read⟩ :=
    Chain.exists_of_fused _ elementary wide (fused _ expected wide composed)
  rw [kernelTypes_sampleChain] at own built read
  have build : Build (0, 0) (2, 0) [] types layers :=
    build_of_ok (0, 0) (2, 0) types (fun _ mem => absurd mem not_mem_nil) built
  have start : Drift [] ([0, 1] : List K) [0, 1] := .together rfl (le_refl 0) zero_lt_one (le_refl 1)
  cases differ_of_build lawful build plain last start composed computed with
  | inl paired =>
    refine ⟨paired.2.starts inhabited own, paired.2, ?_⟩
    by_cases ends : .argmax ∈ types
    · exact .inl ends
    right
    by_contra unsettled
    have one : lastDim 0 (sampleKernels ((0, 0) : K × K) (2, 0) false types) = 1 :=
      (lastDim_of_paired paired.2 0 ends kinds fits).2 (.inr (by simpa using unsettled))
    rcases readOutput_cases read with ⟨indices, rfl, rfl⟩ | ⟨rows, result, rfl, rfl, copied⟩
    · simp [readOutput, ends] at read
    · have shape := wide_of_sample last wide composed
      have widths := width_of_copyRows copied shape.1 (ne_nil_of_length_pos (by simp [shape.2]))
      cases one.symm.trans widths
  | inr differ =>
    exfalso
    cases differ with
    | arrays rowWide otherWide different =>
      rcases readOutput_cases read with ⟨_, shape, _⟩ | ⟨_, _, shape, shape', copied⟩
      · cases shape
      · cases shape
        cases shape'
        have same := eq_of_copyRows (by simpa [Wide] using otherWide) copied (by simpa [Wide] using rowWide)
        exact different (List.cons.inj same).1
    | labels different =>
      rcases readOutput_cases read with ⟨_, shape, shape'⟩ | ⟨_, _, shape, _⟩
      · cases shape
        cases shape'
        exact different rfl
      · cases shape

end

/-- An aligned chain computes what its network computes. All chains with the same kernels do so exactly
when the kernels are fusible. -/
theorem fused_iff_fusible [Field K] [LinearOrder K] [IsStrictOrderedRing K] {elementary : Elementary K}
    (lawful : elementary.Lawful) (chain : Chain K) :
    (chain.Aligned → chain.Fused elementary) ∧
      ((∀ other : Chain K, other.kernelTypes = chain.kernelTypes → other.Accepted → other.Fused elementary) ↔
        Fusible chain.kernelTypes) := by
  have inhabited : chain.kernelTypes ≠ [] := by
    obtain ⟨_, _, _, _, _, _, head⟩ := chain.exists_first
    intro empty
    rw [empty] at head
    cases head
  have last := Chain.argmaxLast chain
  refine ⟨fun aligned => aligned.fused elementary, fun all => ?_, fun fusible other same _ => ?_⟩
  · by_cases plain : .batchNorm ∈ chain.kernelTypes
    · have fused := all (sampleChain (1, 1) (1, 1) _ inhabited last) (kernelTypes_sampleChain _ _ _ _)
        (accepted_sampleChain _ _ _ _)
      exact absurd fused (not_fused_of_batchNorm lawful inhabited last plain)
    · exact fusible_of_fused lawful inhabited last plain
        (all (sampleChain (0, 0) (2, 0) _ inhabited last) (kernelTypes_sampleChain _ _ _ _)
          (accepted_sampleChain _ _ _ _))
  · rw [← same] at fusible
    have aligned : other.Aligned :=
      ⟨fusible.starts, fusible.paired, fusible.recorded.imp_right Or.inl⟩
    exact aligned.fused elementary

noncomputable def realElementary : Elementary ℝ := ⟨Real.exp, Real.sqrt⟩

theorem lawful_realElementary : realElementary.Lawful where
  exp_pos := Real.exp_pos
  exp_strictMono := Real.exp_strictMono
  sqrt_pos := fun _ => Real.sqrt_pos.mpr

def twoLayers : List KernelType := [.matMul, .matAdd, .reLU, .matMul, .matAdd, .softmax]

theorem fusible_twoLayers : Fusible twoLayers where
  starts := rfl
  paired := .dense (.activation rfl (.dense (.activation rfl .nil)))
  recorded := .inr rfl

noncomputable def twoLayerChain : Chain ℝ :=
  sampleChain (0, 0) (2, 0) twoLayers (cons_ne_nil _ _)
    ⟨nofun, nofun, nofun, nofun, nofun, nofun, trivial⟩

theorem fused_twoLayerChain : realElementary.Lawful ∧ twoLayerChain.Fused realElementary ∧
      ∀ other : Chain ℝ, other.kernelTypes = twoLayerChain.kernelTypes → other.Accepted →
        other.Fused realElementary :=
  have kinds : twoLayerChain.kernelTypes = twoLayers := kernelTypes_sampleChain _ _ _ _
  have fusible : Fusible twoLayerChain.kernelTypes := kinds ▸ fusible_twoLayers
  ⟨lawful_realElementary,
    (fused_iff_fusible lawful_realElementary twoLayerChain).1
      ⟨fusible.starts, fusible.paired, fusible.recorded.imp_right Or.inl⟩,
    (fused_iff_fusible lawful_realElementary twoLayerChain).2.mpr fusible⟩

noncomputable def sigmoidChain : Chain ℝ :=
  sampleChain (0, 0) (2, 0) [.matMul, .matAdd, .sigmoid] (cons_ne_nil _ _) ⟨nofun, nofun, nofun, trivial⟩

/-- The network returns the first of the two outputs only. -/
theorem sigmoidChain_not_fused : sigmoidChain.Accepted ∧
      composition realElementary sigmoidChain.kernels (.arrays [[0, 1]]) =
        some (.arrays [[sigmoidFunction realElementary 0, sigmoidFunction realElementary 1]]) ∧
      sigmoidChain.fused realElementary [[0, 1]] = some (.arrays [[sigmoidFunction realElementary 0]]) := by
  have kinds : sigmoidChain.kernelTypes = [.matMul, .matAdd, .sigmoid] := kernelTypes_sampleChain _ _ _ _
  have kernels : sigmoidChain.kernels =
      [.matrixMultiply [1, 0, 0, 1] 2 2, .matrixVectorAddition [0, 0] 2, .sigmoid] := rfl
  refine ⟨accepted_sampleChain _ _ _ _, ?_, ?_⟩
  · rw [kernels, composition_cons, apply_sample_product, bind_some, composition_cons, apply_sample_bias,
      bind_some, add_zero, add_zero]
    rfl
  · have wide : Wide sigmoidChain.width ([[0, 1]] : List (List ℝ)) := fun row mem => by
      cases mem_singleton.mp mem
      rfl
    have built : buildLayers sigmoidChain.kernelTypes (sigmoidChain.kernels.flatMap buffers)
        (allDims 0 sigmoidChain.kernels) = .ok [.linear 2 2 [1, 0, 0, 1] [0, 0], .sigmoid] := by
      rw [kinds, kernels]
      rfl
    have last : lastDim 0 sigmoidChain.kernels = 1 := by
      rw [kernels]
      rfl
    rw [Chain.fused_eq _ realElementary (by rw [kinds]; decide) wide, built, last, kinds]
    rw [Except.toOption, bind_some, forward_cons, forward_sample_linear]
    rfl

end CactusDB.Optimizer.FusionLimits
