import CactusDB.Library.Fallible
import CactusDB.Library.Numerals
import CactusDB.Optimizer.TorchNN2TwoLayer

/-! Builders of networks. Every layer registers its functions under numbered names and wraps the calls
of the builder. The numbers are counted by each builder for itself, the names are shared by all. -/

namespace CactusDB.MlFunctions.NNBuilder
open Std Library Fallible TextScan Numerals Optimizer Resources TorchNN2TwoLayer List Function

variable {K W : Type}

/-- The functions of a network. Some copy their weights, others keep a pointer to them: `W` is an address in the
registry, and the list of values in what a function computes. -/
inductive NetworkFunction (K W : Type) where
  | matrixMultiply (weights : List K) (rows cols : Nat)
  | matrixMultiplyFile (weightsFile : Text) (rows cols : Nat)
  | matrixVectorAddition (bias : List K) (cols : Nat)
  | matrixAdditionFile (biasFile : Text) (cols : Nat)
  | convolute (weights : W) (dims : List Nat)
  | vectorScalarAddition (bias : W) (size : Nat)
  | maxPool (side rows cols : Nat)
  | relu
  | softmax
  deriving DecidableEq

inductive FunctionName where
  | matMul
  | matAdd
  | conv2d
  | vecScalAdd
  | maxPool
  | relu
  | softmax
  deriving DecidableEq, Repr

def FunctionName.text : FunctionName → Text
  | .matMul => "mat_mul".toList
  | .matAdd => "mat_add".toList
  | .conv2d => "conv2d".toList
  | .vecScalAdd => "vec_scal_add".toList
  | .maxPool => "max_pool".toList
  | .relu => "relu".toList
  | .softmax => "softmax".toList

def NetworkFunction.getName : NetworkFunction K W → FunctionName
  | .matrixMultiply .. => .matMul
  | .matrixMultiplyFile .. => .matMul
  | .matrixVectorAddition .. => .matAdd
  | .matrixAdditionFile .. => .matAdd
  | .convolute .. => .conv2d
  | .vectorScalarAddition .. => .vecScalAdd
  | .maxPool .. => .maxPool
  | .relu => .relu
  | .softmax => .softmax

/-- What the buffers of the caller hold, by their addresses. -/
abbrev Memory (K : Type) := Nat → List K

/-- What a function computes with: a pointer is followed when the function is called. -/
def NetworkFunction.read (memory : Memory K) : NetworkFunction K Nat → NetworkFunction K (List K)
  | .matrixMultiply weights rows cols => .matrixMultiply weights rows cols
  | .matrixMultiplyFile weightsFile rows cols => .matrixMultiplyFile weightsFile rows cols
  | .matrixVectorAddition bias cols => .matrixVectorAddition bias cols
  | .matrixAdditionFile biasFile cols => .matrixAdditionFile biasFile cols
  | .convolute weights dims => .convolute ((memory weights).take (dims.take 4).prod) dims
  | .vectorScalarAddition bias size => .vectorScalarAddition ((memory bias).take size) size
  | .maxPool side rows cols => .maxPool side rows cols
  | .relu => .relu
  | .softmax => .softmax

theorem getName_read (memory : Memory K) (function : NetworkFunction K Nat) :
    (function.read memory).getName = function.getName := by
  cases function <;> rfl

abbrev Registry (K : Type) := TextMap (NetworkFunction K Nat)

structure Builder where
  functionCount : Nat := 0
  computeString : Text := placeholder
  weightsFile : Text := []
  biasFile : Text := []

def Builder.build (builder : Builder) : Text := builder.computeString

def numbered (function : NetworkFunction K W) (count : Nat) : Text := function.getName.text ++ decimal count

/-- A function is registered under the next number and called on what the builder computes so far. -/
def addFunction (state : Registry K × Builder) (function : NetworkFunction K Nat) : Registry K × Builder :=
  let name := numbered function state.2.functionCount
  (state.1.insert (sanitizeName name) function,
    { state.2 with
      functionCount := state.2.functionCount + 1
      computeString := call name state.2.computeString })

/-- Whatever is not RELU becomes a softmax. -/
def denseActivation (ac : Activation) : NetworkFunction K W := if ac = .relu then .relu else .softmax

/-- The weights and the bias are copied. -/
def denseLayer (state : Registry K × Builder) (memory : Memory K) (units inputSize weights bias : Nat)
    (ac : Activation) : Registry K × Builder :=
  [.matrixMultiply ((memory weights).take (inputSize * units)) inputSize units,
    .matrixVectorAddition ((memory bias).take units) units, denseActivation ac].foldl addFunction state

def denseLayerFile (state : Registry K × Builder) (units inputSize : Nat) (ac : Activation) :
    Registry K × Builder :=
  [.matrixMultiplyFile state.2.weightsFile inputSize units, .matrixAdditionFile state.2.biasFile units,
    denseActivation ac].foldl addFunction state

def activation : Activation → List (NetworkFunction K W)
  | .relu => [.relu]
  | .softmax => [.softmax]
  | .none => []

/-- The weights and the bias stay where they are. -/
def convLayer (state : Registry K × Builder) (numFilters : Nat) (dims : List Nat) (weights bias : Nat)
    (ac : Activation) : Registry K × Builder :=
  (.convolute weights (dims.take 6) :: .vectorScalarAddition bias numFilters :: activation ac).foldl
    addFunction state

def maxPoolLayer (state : Registry K × Builder) (side height width : Nat) : Registry K × Builder :=
  addFunction state (.maxPool side height width)

/-- A call for a layer, with the addresses of its weights and its bias. -/
inductive Layer where
  | dense (units inputSize weights bias : Nat) (ac : Activation)
  | denseFile (units inputSize : Nat) (ac : Activation)
  | conv (numFilters : Nat) (dims : List Nat) (weights bias : Nat) (ac : Activation)
  | maxPool (side height width : Nat)

def addLayer (state : Registry K × Builder) (memory : Memory K) : Layer → Registry K × Builder
  | .dense units inputSize weights bias ac => denseLayer state memory units inputSize weights bias ac
  | .denseFile units inputSize ac => denseLayerFile state units inputSize ac
  | .conv numFilters dims weights bias ac => convLayer state numFilters dims weights bias ac
  | .maxPool side height width => maxPoolLayer state side height width

/-- All builders, the registry that they share and the buffers of the caller. -/
structure World (K : Type) where
  registry : Registry K
  builders : Nat → Builder
  memory : Memory K

/-- The caller adds a layer to a builder, or fills a buffer. -/
inductive Event (K : Type) where
  | layer (id : Nat) (layer : Layer)
  | write (address : Nat) (values : List K)

def World.perform (world : World K) : Event K → World K
  | .layer id layer =>
    let after := addLayer (world.registry, world.builders id) world.memory layer
    { world with registry := after.1, builders := update world.builders id after.2 }
  | .write address values => { world with memory := update world.memory address values }

def World.performAll (world : World K) (events : List (Event K)) : World K := events.foldl World.perform world

def start (registry : Registry K) (memory : Memory K) (files : Nat → Text × Text) : World K :=
  ⟨registry, fun id => { weightsFile := (files id).1, biasFile := (files id).2 }, memory⟩

/-- The names in front of the opening parentheses, from the outside. `name` is what has been read of
the next one. -/
def calledNames : Text → Text → List Text
  | _, [] => []
  | name, c :: rest => if c = '(' then name :: calledNames [] rest else calledNames (name ++ [c]) rest

def nest (names : List Text) : Text := names.foldl (fun text name => call name text) placeholder

def evaluate (registry : Registry K) (memory : Memory K) (expression : Text) :
    Option (List (NetworkFunction K (List K))) :=
  let names := (calledNames [] expression).reverse
  if expression = nest names then names.mapM fun name => registry[sanitizeName name]?.map (·.read memory) else none

/-- What a layer should compute, with what its buffers hold when it is added. -/
def Layer.functions (files : Text × Text) (memory : Memory K) : Layer → List (NetworkFunction K (List K))
  | .dense units inputSize weights bias ac =>
    .matrixMultiply ((memory weights).take (inputSize * units)) inputSize units ::
      .matrixVectorAddition ((memory bias).take units) units :: activation ac
  | .denseFile units inputSize ac =>
    .matrixMultiplyFile files.1 inputSize units :: .matrixAdditionFile files.2 units :: activation ac
  | .conv numFilters dims weights bias ac =>
    .convolute ((memory weights).take (dims.take 4).prod) (dims.take 6) ::
      .vectorScalarAddition ((memory bias).take numFilters) numFilters :: activation ac
  | .maxPool side height width => [.maxPool side height width]

/-- What the layers of a builder come to, one after another, while the buffers change. -/
def collect (functions : Memory K → Layer → List (NetworkFunction K (List K))) (id : Nat) :
    Memory K → List (Event K) → List (NetworkFunction K (List K))
  | _, [] => []
  | memory, .layer builder layer :: rest =>
    if builder = id then functions memory layer ++
      collect functions id memory rest else collect functions id memory rest
  | memory, .write address values :: rest => collect functions id (update memory address values) rest

def network (files : Nat → Text × Text) (memory : Memory K) (events : List (Event K)) (id : Nat) :
    List (NetworkFunction K (List K)) :=
  collect (Layer.functions (files id)) id memory events

section

def plainName (name : Text) : Bool :=
  endsPlain name && decide (sanitizeName name = name) && !name.contains '('

theorem text_plain (name : FunctionName) : plainName name.text = true := by
  cases name <;> decide +kernel

theorem text_injective {first second : FunctionName} (same : first.text = second.text) : first = second := by
  cases first <;> cases second <;> first | rfl | exact absurd same (by decide +kernel)

theorem toLower_of_isDigit {c : Char} (digit : c.isDigit = true) : c.toLower = c := by
  simp only [Char.isDigit, Bool.and_eq_true, decide_eq_true_eq] at digit
  unfold Char.toLower
  split
  · next upper => exact absurd (UInt32.le_trans upper.1 digit.2) (by decide)
  · rfl

variable (function : NetworkFunction K W)

theorem sanitizeName_numbered (count : Nat) : sanitizeName (numbered function count) = numbered function count := by
  have plain := text_plain function.getName
  simp only [plainName, Bool.and_eq_true, decide_eq_true_eq] at plain
  have digits : (decimal count).map Char.toLower = decimal count := by
    rw [map_congr_left fun c mem => toLower_of_isDigit (isDigit_decimal mem), map_id']
  rw [numbered, sanitizeName, map_append, digits]
  exact congrArg (· ++ decimal count) plain.1.2

theorem numbered_injective {first second : NetworkFunction K W} {i j : Nat}
    (same : numbered first i = numbered second j) : first.getName = second.getName ∧ i = j := by
  have firstPlain := text_plain first.getName
  have secondPlain := text_plain second.getName
  simp only [plainName, Bool.and_eq_true] at firstPlain secondPlain
  have parts := append_decimal_injective firstPlain.1.1 secondPlain.1.1 same
  exact ⟨text_injective parts.1, parts.2⟩

theorem paren_not_mem_numbered (count : Nat) : '(' ∉ numbered function count := by
  intro mem
  rcases mem_append.mp mem with base | digit
  · have plain := text_plain function.getName
    simp [plainName, base] at plain
  · exact absurd (isDigit_decimal digit) (by decide)

theorem calledNames_append (name rest done : Text) (plain : '(' ∉ name) :
    calledNames done (name ++ rest) = calledNames (done ++ name) rest := by
  induction name generalizing done with
  | nil => simp
  | cons c name ih =>
    have other : c ≠ '(' := fun same => plain (by simp [same])
    have later : '(' ∉ name := fun mem => plain (by simp [mem])
    simpa [calledNames, other] using ih (done ++ [c]) later

/-- Closing parentheses and the gap add no names. -/
theorem calledNames_close (text tail done : Text) (plain : '(' ∉ tail) :
    calledNames done (text ++ tail) = calledNames done text := by
  induction text generalizing done with
  | nil =>
    rw [nil_append, ← append_nil tail, calledNames_append tail [] done plain]
    rfl
  | cons c text ih => simp only [cons_append, calledNames, ih]

theorem calledNames_nest (names : List Text) (plain : ∀ name ∈ names, '(' ∉ name) :
    calledNames [] (nest names) = names.reverse := by
  induction names using List.reverseRecOn with
  | nil => exact calledNames_close [] placeholder [] (by decide)
  | append_singleton names name ih =>
    have inner := ih fun other mem => plain other (by simp [mem])
    have outer : nest (names ++ [name]) = name ++ ('(' :: nest names ++ [')']) := by
      simp [nest, call]
    rw [outer, calledNames_append name _ [] (plain name (by simp))]
    simp only [nil_append, cons_append, calledNames, if_true, reverse_append, reverse_cons,
      reverse_nil]
    rw [calledNames_close _ _ _ (by decide), inner]

theorem evaluate_nest (registry : Registry K) (memory : Memory K) (names : List Text)
    (plain : ∀ name ∈ names, '(' ∉ name) : evaluate registry memory (nest names) =
      names.mapM fun name => registry[sanitizeName name]?.map (·.read memory) := by
  simp [evaluate, calledNames_nest names plain]

end

section

def Layer.registered (files : Text × Text) (memory : Memory K) : Layer → List (NetworkFunction K Nat)
  | .dense units inputSize weights bias ac =>
    [.matrixMultiply ((memory weights).take (inputSize * units)) inputSize units,
      .matrixVectorAddition ((memory bias).take units) units, denseActivation ac]
  | .denseFile units inputSize ac =>
    [.matrixMultiplyFile files.1 inputSize units, .matrixAdditionFile files.2 units, denseActivation ac]
  | .conv numFilters dims weights bias ac =>
    .convolute weights (dims.take 6) :: .vectorScalarAddition bias numFilters :: activation ac
  | .maxPool side height width => [.maxPool side height width]

theorem addLayer_eq (state : Registry K × Builder) (memory : Memory K) (layer : Layer) : addLayer state memory layer =
      (layer.registered (state.2.weightsFile, state.2.biasFile) memory).foldl addFunction state := by
  cases layer <;> rfl

/-- A function that a builder registers, and what it computes with when it is made. -/
structure Addition (K : Type) where
  builder : Nat
  function : NetworkFunction K Nat
  meaning : NetworkFunction K (List K)

def World.add (world : World K) (addition : Addition K) : World K :=
  let after := addFunction (world.registry, world.builders addition.builder) addition.function
  { world with registry := after.1, builders := update world.builders addition.builder after.2 }

def Layer.additions (files : Text × Text) (memory : Memory K) (id : Nat) (layer : Layer) : List (Addition K) :=
  (layer.registered files memory).map fun function => ⟨id, function, function.read memory⟩

theorem foldl_add (world : World K) (memory : Memory K) (id : Nat) (functions : List (NetworkFunction K Nat)) :
    (functions.map fun function => Addition.mk id function (function.read memory)).foldl World.add world =
      let after := functions.foldl addFunction (world.registry, world.builders id)
      { world with registry := after.1, builders := update world.builders id after.2 } := by
  induction functions generalizing world with
  | nil => simp
  | cons function rest ih =>
    rw [map_cons, foldl_cons, ih]
    simp [World.add]

def additions (files : Nat → Text × Text) : Memory K → List (Event K) → List (Addition K)
  | _, [] => []
  | memory, .layer id layer :: rest => layer.additions (files id) memory id ++ additions files memory rest
  | memory, .write address values :: rest => additions files (update memory address values) rest

def lastMemory : Memory K → List (Event K) → Memory K
  | memory, [] => memory
  | memory, .layer _ _ :: rest => lastMemory memory rest
  | memory, .write address values :: rest => lastMemory (update memory address values) rest

def Owns (files : Nat → Text × Text) (world : World K) : Prop :=
  ∀ id, ((world.builders id).weightsFile, (world.builders id).biasFile) = files id

variable {world : World K} {files : Nat → Text × Text}

theorem Owns.add (owns : Owns files world) (addition : Addition K) : Owns files (world.add addition) := by
  intro id
  by_cases same : id = addition.builder
  · subst same
    simpa [World.add, addFunction] using owns addition.builder
  · simpa [World.add, same] using owns id

theorem Owns.foldl (owns : Owns files world) (added : List (Addition K)) :
    Owns files (added.foldl World.add world) := by
  induction added generalizing world with
  | nil => exact owns
  | cons addition rest ih => exact ih (owns.add addition)

theorem foldl_add_write (world : World K) (memory : Memory K) (added : List (Addition K)) :
    added.foldl World.add { world with memory := memory } = { added.foldl World.add world with memory := memory } := by
  induction added generalizing world with
  | nil => rfl
  | cons addition rest ih =>
    rw [foldl_cons, foldl_cons, ← ih]
    rfl

/-- The layers of all builders come down to functions that are added one by one. -/
theorem performAll_eq (owns : Owns files world) (events : List (Event K)) : world.performAll events =
    { (additions files world.memory events).foldl World.add world with memory := lastMemory world.memory events } := by
  induction events generalizing world with
  | nil => rfl
  | cons event rest ih =>
    cases event with
    | layer id layer =>
      have first : world.perform (.layer id layer) =
          (layer.additions (files id) world.memory id).foldl World.add world := by
        rw [Layer.additions, foldl_add, World.perform, addLayer_eq, owns id]
      have kept : (world.perform (.layer id layer)).memory = world.memory := rfl
      change (world.perform (.layer id layer)).performAll rest = _
      rw [ih (first ▸ owns.foldl _), kept, first, additions, foldl_append]
      rfl
    | write address values =>
      have owned : Owns files (world.perform (.write address values)) := owns
      change (world.perform (.write address values)).performAll rest = _
      rw [ih owned, World.perform, foldl_add_write]
      rfl

def made (added : List (Addition K)) (id : Nat) : List (Addition K) := added.filter fun addition =>
    addition.builder = id

variable (added : List (Addition K))

theorem made_snoc (addition : Addition K) (id : Nat) :
    made (added ++ [addition]) id = if addition.builder = id then made added id ++ [addition] else made added id := by
  by_cases same : addition.builder = id <;> simp [made, same]

/-- The place of a function in its builder's network is the number of functions that the builder made before it. -/
theorem getElem?_made_iff {id i : Nat} {addition : Addition K} : (made added id)[i]? = some addition ↔
    ∃ before after, added = before ++ addition :: after ∧ addition.builder = id ∧ (made before id).length = i := by
  constructor
  · intro found
    induction added generalizing i with
    | nil => simp [made] at found
    | cons first rest ih =>
      by_cases own : first.builder = id
      · cases i with
        | zero =>
          obtain rfl : first = addition := by simpa [made, own] using found
          exact ⟨[], rest, rfl, own, rfl⟩
        | succ i =>
          obtain ⟨before, after, rfl, same, count⟩ := ih (by simpa [made, own] using found)
          exact ⟨first :: before, after, rfl, same, by simpa [made, own] using count⟩
      · obtain ⟨before, after, rfl, same, count⟩ := ih (by simpa [made, own] using found)
        exact ⟨first :: before, after, rfl, same, by simpa [made, own] using count⟩
  · rintro ⟨before, after, rfl, rfl, rfl⟩
    simp [made]

def madeNames (functions : List (Addition K)) : List Text :=
  functions.zipIdx.map fun entry => numbered entry.1.function entry.2

theorem madeNames_snoc (functions : List (Addition K)) (addition : Addition K) :
    madeNames (functions ++ [addition]) = madeNames functions ++ [numbered addition.function functions.length] := by
  simp [madeNames, zipIdx_append]

/-- The name under which a function is registered after others have been. -/
def title (before : List (Addition K)) (addition : Addition K) : Text :=
  numbered addition.function (made before addition.builder).length

/-- No later function takes the name. -/
def Unreplaced (before : List (Addition K)) (addition : Addition K) (after : List (Addition K)) : Prop :=
  ∀ between other rest, after = between ++ other :: rest →
    title (before ++ addition :: between) other ≠ title before addition

theorem exists_unreplaced (before : List (Addition K)) (addition : Addition K) (after : List (Addition K)) :
    ∃ front last back, before ++ addition :: after = front ++ last :: back ∧ Unreplaced front last back ∧
      title front last = title before addition := by
  induction length : after.length using Nat.strong_induction_on generalizing before addition after with
  | _ n ih =>
    by_cases unreplaced : Unreplaced before addition after
    · exact ⟨before, addition, after, rfl, unreplaced, rfl⟩
    · unfold Unreplaced at unreplaced
      push Not at unreplaced
      obtain ⟨between, other, rest, rfl, same⟩ := unreplaced
      have shorter : rest.length < n := by
        rw [← length, length_append, length_cons]
        omega
      obtain ⟨front, last, back, split, unreplaced, name⟩ :=
        ih rest.length shorter (before ++ addition :: between) other rest rfl
      exact ⟨front, last, back, by simpa using split, unreplaced, name.trans same⟩

/-- What the world holds after some functions have been added: each builder calls its own functions by
their names, and under each of these names the last function is registered that has taken it. -/
structure Recorded (world : World K) (added : List (Addition K)) : Prop where
  count : ∀ id, (world.builders id).functionCount = (made added id).length
  text : ∀ id, (world.builders id).computeString = nest (madeNames (made added id))
  entry : ∀ before addition after, added = before ++ addition :: after → Unreplaced before addition after →
    world.registry[title before addition]? = some addition.function

theorem Recorded.add {added : List (Addition K)} (recorded : Recorded world added)
    (addition : Addition K) : Recorded (world.add addition) (added ++ [addition]) := by
  have count := recorded.count addition.builder
  have registry : (world.add addition).registry =
      world.registry.insert (title added addition) addition.function := by
    simp [World.add, addFunction, title, sanitizeName_numbered, count]
  refine ⟨fun id => ?_, fun id => ?_, fun before other after split unreplaced => ?_⟩
  · by_cases same : id = addition.builder
    · subst same
      simp [World.add, addFunction, made_snoc, count]
    · simp [World.add, same, made_snoc, Ne.symm same, recorded.count]
  · by_cases same : id = addition.builder
    · subst same
      simp [World.add, addFunction, made_snoc, madeNames_snoc, nest, count, recorded.text]
    · simp [World.add, same, made_snoc, Ne.symm same, recorded.text]
  · rw [registry, ExtTreeMap.getElem?_insert]
    rcases after.eq_nil_or_concat' with rfl | ⟨after, last, rfl⟩
    · obtain ⟨rfl, same⟩ := append_inj' split rfl
      cases same
      simp
    · obtain ⟨rfl, same⟩ := append_inj' (split.trans (by simp : _ = (before ++ other :: after) ++ [last])) rfl
      cases same
      have apart := unreplaced after addition [] rfl
      rw [if_neg fun equal => apart (LawfulEqCmp.compare_eq_iff_eq.mp equal)]
      refine recorded.entry before other after rfl fun between later rest within => ?_
      exact unreplaced between later (rest ++ [addition]) (by simp [within])

variable (registry : Registry K) (memory : Memory K) (files : Nat → Text × Text)

theorem recorded_start : Recorded (start registry memory files) [] :=
  ⟨fun _ => rfl, fun _ => rfl, fun before _ _ split => absurd split (by simp)⟩

theorem recorded_foldl (added : List (Addition K)) :
    Recorded (added.foldl World.add (start registry memory files)) added := by
  induction added using List.reverseRecOn with
  | nil => exact recorded_start registry memory files
  | append_singleton added addition ih => simpa using ih.add addition

end

def Layer.activated : Layer → Prop
  | .dense _ _ _ _ ac => ac ≠ .none
  | .denseFile _ _ ac => ac ≠ .none
  | .conv .. => True
  | .maxPool .. => True

/-- Builders that have functions of the same class at the same place have the same function there. -/
def Compatible (networks : Nat → List (NetworkFunction K (List K))) : Prop :=
  ∀ id other (i : Nat) f g, (networks id)[i]? = some f → (networks other)[i]? = some g →
    f.getName = g.getName → f = g

/-- A function that no later one replaces finds its weights in the end as they were when it was made. -/
def Kept (added : List (Addition K)) (memory : Memory K) : Prop :=
  ∀ before addition after, added = before ++ addition :: after → Unreplaced before addition after →
    addition.function.read memory = addition.meaning

open Layer

section

variable (files : Text × Text) (memory : Memory K)

/-- What the functions of a layer compute with when they are made. -/
def Layer.meant (layer : Layer) : List (NetworkFunction K (List K)) :=
  (layer.registered files memory).map (·.read memory)

theorem meant_eq_of_activated {layer : Layer} (activated : layer.activated) :
    layer.meant files memory = layer.functions files memory := by
  cases layer with
  | dense units inputSize weights bias ac =>
    cases ac <;> first | rfl | exact absurd rfl activated
  | denseFile units inputSize ac =>
    cases ac <;> first | rfl | exact absurd rfl activated
  | conv numFilters dims weights bias ac =>
    cases ac <;> simp [meant, registered, functions, activation, NetworkFunction.read, take_take]
  | maxPool => rfl

theorem length_functions_le (layer : Layer) :
    (layer.functions files memory).length ≤ (layer.meant files memory).length ∧
      ((layer.functions files memory).length = (layer.meant files memory).length → layer.activated) := by
  cases layer with
  | dense units inputSize weights bias ac =>
    cases ac <;> simp [functions, meant, registered, activated, activation]
  | denseFile units inputSize ac =>
    cases ac <;> simp [functions, meant, registered, activated, activation]
  | conv numFilters dims weights bias ac =>
    cases ac <;> simp [functions, meant, registered, activated, activation]
  | maxPool => exact ⟨Nat.le_refl _, fun _ => trivial⟩

theorem length_collect_le (events : List (Event K)) (id : Nat) :
    (collect (functions files) id memory events).length ≤ (collect (meant files) id memory events).length := by
  induction events generalizing memory with
  | nil => exact Nat.le_refl 0
  | cons event rest ih =>
    cases event with
    | layer builder layer =>
      by_cases own : builder = id
      · simp only [collect, own, if_true, length_append]
        exact Nat.add_le_add (length_functions_le files memory layer).1 (ih memory)
      · simpa only [collect, own, if_false] using ih memory
    | write address values => exact ih _

/-- Where no activation was added, the lengths agree only if every layer asked for one. -/
theorem activated_of_length {events : List (Event K)} {id : Nat}
    (same : (collect (functions files) id memory events).length = (collect (meant files) id memory events).length) :
    ∀ layer, Event.layer id layer ∈ events → layer.activated := by
  induction events generalizing memory with
  | nil => exact fun layer mem => nomatch mem
  | cons event rest ih =>
    intro layer mem
    cases event with
    | layer builder first =>
      have less := length_collect_le files memory rest id
      by_cases own : builder = id
      · subst own
        simp only [collect, if_true, length_append] at same
        have here := length_functions_le files memory first
        rcases mem_cons.mp mem with equal | behind
        · cases equal
          exact here.2 (by omega)
        · exact ih memory (by omega) layer behind
      · simp only [collect, own, if_false] at same
        rcases mem_cons.mp mem with equal | behind
        · cases equal
          exact absurd rfl own
        · exact ih memory same layer behind
    | write address values => exact ih _ same layer ((mem_cons.mp mem).resolve_left nofun)

theorem collect_eq {events : List (Event K)} {id : Nat}
    (activated : ∀ layer, Event.layer id layer ∈ events → layer.activated) :
    collect (meant files) id memory events = collect (functions files) id memory events := by
  induction events generalizing memory with
  | nil => rfl
  | cons event rest ih =>
    have later := fun memory => ih memory fun layer mem => activated layer (mem_cons_of_mem _ mem)
    cases event with
    | layer builder layer =>
      by_cases own : builder = id
      · subst own
        simp only [collect, if_true, later, meant_eq_of_activated files memory (activated layer mem_cons_self)]
      · simp only [collect, own, if_false, later]
    | write address values => exact later _

end

section

variable (files : Nat → Text × Text) (memory : Memory K) (events : List (Event K))

theorem made_additions (id : Nat) :
    (made (additions files memory events) id).map Addition.meaning = collect (meant (files id)) id memory events := by
  induction events generalizing memory with
  | nil => rfl
  | cons event rest ih =>
    cases event with
    | layer builder layer =>
      have parts : made (additions files memory (.layer builder layer :: rest)) id =
          made (layer.additions (files builder) memory builder) id ++ made (additions files memory rest) id := by
        simp [made, additions]
      rw [parts, map_append, ih]
      by_cases own : builder = id
      · subst own
        simp [made, Layer.additions, collect, meant, filter_map, comp_def]
      · simp [made, Layer.additions, collect, own, filter_map, comp_def]
    | write address values => exact ih _

theorem getName_of_mem_additions {addition : Addition K} (mem : addition ∈ additions files memory events) :
    addition.meaning.getName = addition.function.getName := by
  induction events generalizing memory with
  | nil => cases mem
  | cons event rest ih =>
    cases event with
    | layer id layer =>
      rcases mem_append.mp mem with here | later
      · obtain ⟨function, _, rfl⟩ := mem_map.mp here
        exact getName_read memory function
      · exact ih memory later
    | write address values => exact ih _ mem

end

/-- What the expression of a builder evaluates to: its own names, looked up in the shared registry. -/
theorem evaluate_build {world : World K} {added : List (Addition K)} (recorded : Recorded world added)
    (memory : Memory K) (id : Nat) (functions : List (NetworkFunction K (List K))) :
    evaluate world.registry memory (world.builders id).build = some functions ↔
      functions.length = (made added id).length ∧ ∀ (i : Nat) addition, (made added id)[i]? = some addition →
        world.registry[numbered addition.function i]?.map (·.read memory) = functions[i]? := by
  have plain : ∀ name ∈ madeNames (made added id), '(' ∉ name := by
    intro name mem
    obtain ⟨entry, _, rfl⟩ := mem_map.mp mem
    exact paren_not_mem_numbered entry.1.function entry.2
  have lookups : (madeNames (made added id)).map (fun name => world.registry[sanitizeName name]?.map (·.read memory)) =
      (made added id).mapIdx fun i addition => world.registry[numbered addition.function i]?.map (·.read memory) := by
    simp [madeNames, sanitizeName_numbered, mapIdx_eq_zipIdx_map]
  rw [Builder.build, recorded.text, evaluate_nest _ _ _ plain, mapM_eq_some_iff, lookups]
  constructor
  · intro same
    have length := congrArg List.length same
    simp only [length_mapIdx, length_map] at length
    refine ⟨length.symm, fun i addition there => ?_⟩
    have place := congrArg (fun list => list[i]?) same
    simp only [getElem?_mapIdx, there, Option.map_some, getElem?_map] at place
    cases found : functions[i]? with
    | none => simp [found] at place
    | some g => simpa [found] using place
  · rintro ⟨length, entries⟩
    apply ext_getElem?
    intro i
    rw [getElem?_mapIdx, getElem?_map]
    cases there : (made added id)[i]? with
    | none =>
      have outside : functions[i]? = none := by
        rw [getElem?_eq_none_iff] at there ⊢
        omega
      simp [outside]
    | some addition =>
      have inside : i < functions.length := by
        have bound := (List.getElem?_eq_some_iff.mp there).1
        omega
      rw [Option.map_some, entries i addition there, List.getElem?_eq_getElem inside]
      rfl

section

variable (registry : Registry K) (memory : Memory K) (files : Nat → Text × Text) (events : List (Event K))

theorem recorded_performAll :
    Recorded ((start registry memory files).performAll events) (additions files memory events) := by
  have owns : Owns files (start registry memory files) := fun id => rfl
  rw [performAll_eq owns]
  exact ⟨(recorded_foldl registry memory files _).count, (recorded_foldl registry memory files _).text,
    (recorded_foldl registry memory files _).entry⟩

theorem memory_performAll : ((start registry memory files).performAll events).memory = lastMemory memory events := by
  have owns : Owns files (start registry memory files) := fun id => rfl
  rw [performAll_eq owns]
  rfl

/-- With an activation for every layer, a builder has made its own network. -/
theorem getElem?_network (activated : ∀ id layer, Event.layer id layer ∈ events → layer.activated) (id i : Nat) :
    (network files memory events id)[i]? = (made (additions files memory events) id)[i]?.map Addition.meaning := by
  rw [network, ← collect_eq (files id) memory (activated id), ← made_additions, getElem?_map]

/-- The last function that has taken a name is read as it was made, and agrees with all others of that name. -/
theorem denotes_of_compatible (activated : ∀ id layer, Event.layer id layer ∈ events → layer.activated)
    (compatible : Compatible (network files memory events))
    (kept : Kept (additions files memory events) (lastMemory memory events)) (id : Nat) :
    evaluate ((start registry memory files).performAll events).registry (lastMemory memory events)
      (((start registry memory files).performAll events).builders id).build =
        some (network files memory events id) := by
  have recorded := recorded_performAll registry memory files events
  have places := getElem?_network memory files events activated
  rw [evaluate_build recorded]
  refine ⟨?_, fun i addition here => ?_⟩
  · rw [network, ← collect_eq (files id) memory (activated id), ← made_additions, length_map]
  · obtain ⟨before, after, split, rfl, rfl⟩ := (getElem?_made_iff _).mp here
    obtain ⟨front, last, back, same, unreplaced, name⟩ := exists_unreplaced before addition after
    rw [← split] at same
    obtain ⟨kind, place⟩ := numbered_injective name
    have there : (made (additions files memory events) last.builder)[(made front last.builder).length]? = some last :=
      (getElem?_made_iff _).mpr ⟨front, back, same, rfl, rfl⟩
    have stored := recorded.entry front last back same unreplaced
    rw [name] at stored
    rw [← title, stored, Option.map_some, kept front last back same unreplaced, places, here, Option.map_some]
    rw [place] at there
    refine congrArg some (compatible last.builder addition.builder (made before addition.builder).length _ _ ?_ ?_ ?_)
    · rw [places, there]
      rfl
    · rw [places, here]
      rfl
    · rw [getName_of_mem_additions files memory events (mem_filter.mp (mem_of_getElem? there)).1, kind,
        getName_of_mem_additions files memory events (mem_filter.mp (mem_of_getElem? here)).1]

end

/-- The expressions of all builders mean their own networks exactly when no dense layer is made without
an activation, no two builders use the same name for different functions, and the weights that are kept by
address are still there. -/
theorem builders_denote_iff (registry : Registry K) (memory : Memory K) (files : Nat → Text × Text)
    (events : List (Event K)) :
    (∀ id, evaluate ((start registry memory files).performAll events).registry
        ((start registry memory files).performAll events).memory
        (((start registry memory files).performAll events).builders id).build = some (network files memory events id)) ↔
      (∀ id layer, Event.layer id layer ∈ events → layer.activated) ∧ Compatible (network files memory events) ∧
        Kept (additions files memory events) (lastMemory memory events) := by
  rw [memory_performAll]
  refine ⟨fun right => ?_, fun condition =>
    denotes_of_compatible registry memory files events condition.1 condition.2.1 condition.2.2⟩
  have recorded := recorded_performAll registry memory files events
  simp only [evaluate_build recorded] at right
  have activated : ∀ id layer, Event.layer id layer ∈ events → layer.activated := by
    intro id
    apply activated_of_length (files id) memory
    rw [← made_additions, length_map]
    exact (right id).1
  have places := getElem?_network memory files events activated
  refine ⟨activated, fun id other i f g here there name => ?_, fun before addition after split unreplaced => ?_⟩
  · have first := here
    have second := there
    rw [places] at first second
    obtain ⟨one, oneThere, rfl⟩ := Option.map_eq_some_iff.mp first
    obtain ⟨two, twoThere, rfl⟩ := Option.map_eq_some_iff.mp second
    rw [getName_of_mem_additions files memory events (mem_filter.mp (mem_of_getElem? oneThere)).1,
      getName_of_mem_additions files memory events (mem_filter.mp (mem_of_getElem? twoThere)).1] at name
    have names : numbered one.function i = numbered two.function i := by rw [numbered, numbered, name]
    have left := (right id).2 i one oneThere
    have rightSide := (right other).2 i two twoThere
    rw [here] at left
    rw [there, ← names, left] at rightSide
    exact Option.some.inj rightSide
  · have there : (made (additions files memory events) addition.builder)[(made before addition.builder).length]? =
        some addition := (getElem?_made_iff _).mpr ⟨before, after, split, rfl, rfl⟩
    have found := (right addition.builder).2 _ addition there
    rw [← title, recorded.entry before addition after split unreplaced, places, there] at found
    exact Option.some.inj found

/-- The second builder takes the name of the first one's product, with its own weights, and a buffer that is filled
again changes the weights of a layer that keeps its address. -/
theorem second_builder_replaces_weights :
    (let events : List (Event Nat) := [.write 0 [1], .write 1 [2], .write 2 [0], .layer 0 (.dense 1 1 0 2 .relu),
      .layer 1 (.dense 1 1 1 2 .relu)]
    let world := (start ∅ (fun _ => []) fun _ => ([], [])).performAll events
    evaluate world.registry world.memory (world.builders 0).build =
      some [.matrixMultiply [2] 1 1, .matrixVectorAddition [0] 1, .relu] ∧
    network (fun _ => ([], [])) (fun _ => []) events 0 =
      [.matrixMultiply [1] 1 1, .matrixVectorAddition [0] 1, .relu]) ∧
    (let events : List (Event Nat) := [.write 0 [1], .write 1 [0], .layer 0 (.conv 1 [1, 1, 1, 1, 1, 1] 0 1 .none),
      .write 0 [2], .layer 0 (.conv 1 [1, 1, 1, 1, 1, 1] 0 1 .none)]
    let world := (start ∅ (fun _ => []) fun _ => ([], [])).performAll events
    evaluate world.registry world.memory (world.builders 0).build =
      some [.convolute [2] [1, 1, 1, 1, 1, 1], .vectorScalarAddition [0] 1, .convolute [2] [1, 1, 1, 1, 1, 1],
        .vectorScalarAddition [0] 1] ∧
    network (fun _ => ([], [])) (fun _ => []) events 0 =
      [.convolute [1] [1, 1, 1, 1, 1, 1], .vectorScalarAddition [0] 1, .convolute [2] [1, 1, 1, 1, 1, 1],
        .vectorScalarAddition [0] 1]) := by
  decide +kernel

end CactusDB.MlFunctions.NNBuilder
