import CactusDB.Optimizer.ConvLowering

/-! The two matrices as the callers build them: images through `convertImage` or `convert2Blocks`, kernels through
`convertKernel` or, from plain numbers, through `convert2Matrix`. -/

namespace CactusDB.Optimizer.ConvConversions
open Library Fallible Buffer FixedWidth ConvHelper ConvBlocks ConvLowering List

variable {R : Type}

/-- `convert2Matrix` for images is `convertImage` with blocks of 32 rows, or the same as `convert2Blocks`. -/
inductive ImagePath where
  | convertImage (size : BlockSize)
  | convert2Blocks (blockXWidth : Nat) (someRow : 0 < blockXWidth)

inductive KernelPath where
  | convertKernel (size : BlockSize)
  | convert2Matrix

/-- Blocks of rows, one below the other. -/
def stacked (numCol : Nat) (blocks : List (List R)) : ImageMatrix R :=
  ⟨blocks.flatten.length / numCol, numCol, blocks.flatten.map some⟩

section

variable [Semiring R] (conv : Convolution R)

/-- The values of all kernels, one kernel after the other. -/
def weights (place : Nat) : R := (conv.kernels.flatMap fun kernel => kernel.matrices.flatten).getD place 0

def ImagePath.build : ImagePath → Except ConvError (ImageMatrix R)
  | .convertImage size => conv.imageMatrix size
  | .convert2Blocks blockXWidth _ =>
    (ConvHelper.convert2Blocks conv.images conv.kernelSize conv.channels conv.stride 0 blockXWidth).map
      (stacked (columns conv))

def KernelPath.build : KernelPath → Except ConvError (ImageMatrix R)
  | .convertKernel size => conv.kernelMatrix size
  | .convert2Matrix =>
    ConvHelper.convert2Matrix conv.kernelSize conv.kernelSize conv.channels conv.kernels.length (weights conv) conv.bias

/-- Both matrices are built, and their product is the convolution with the bias at every window of every
image and every kernel. -/
def Exact (imagePath : ImagePath) (kernelPath : KernelPath) : Prop :=
  ∃ left right, imagePath.build conv = .ok left ∧ kernelPath.build conv = .ok right ∧
    ∀ i (image : i < conv.images.length), ∀ window < conv.windows, ∀ k (kernel : k < conv.kernels.length),
      productAt left right (i * conv.windows + window) k =
        some (conv.value conv.images[i] conv.kernels[k] window + conv.bias k)

/-- The rows of a conversion and the cells of its arrays are numbered by an `int`. -/
def ImagePath.Fits : ImagePath → Prop
  | .convertImage _ => conv.images.length * conv.windows * columns conv < 2 ^ 31
  | .convert2Blocks blockXWidth _ =>
    conv.images.length * conv.windows < 2 ^ 31 ∧ blockXWidth * columns conv < 2 ^ 31

/-- All rows lie in the first block of rows, where only those of the first block find their place. -/
def ImagePath.OneBlock : ImagePath → Prop
  | .convertImage size => conv.images.length * conv.windows ≤ size.x
  | .convert2Blocks _ _ => True

def KernelPath.OneBlock : KernelPath → Prop
  | .convertKernel size => conv.kernels.length ≤ size.x
  | .convert2Matrix => conv.kernels.length ≤ 32

/-- `convert2Matrix` uses the first kernel in place of each: it is to come to the same on these images. -/
def SameSums : Prop := ∀ first, conv.kernels.head? = some first → ∀ image ∈ conv.images, ∀ window < conv.windows,
  ∀ k (kernel : k < conv.kernels.length),
    conv.value image first window + conv.bias k = conv.value image conv.kernels[k] window + conv.bias k

def SameWeights : Prop := ∀ one ∈ conv.kernels, ∀ other ∈ conv.kernels, ∀ tap ∈ taps conv.channels conv.kernelSize,
  valueAt one tap.channel tap.i tap.j = valueAt other tap.channel tap.i tap.j

end

section

/-- Lists of one length in a row: where the entries of each lie. -/
theorem getElem?_flatten_uniform {blocks : List (List R)} {size q r : Nat}
    (uniform : ∀ block ∈ blocks, block.length = size) (inside : r < size) :
    blocks.flatten[q * size + r]? = (blocks[q]?).bind fun block => block[r]? := by
  induction blocks generalizing q with
  | nil => simp
  | cons block rest ih =>
    have length := uniform block mem_cons_self
    have later := fun q => @ih q fun other mem => uniform other (mem_cons_of_mem block mem)
    cases q with
    | zero =>
      rw [flatten_cons, Nat.zero_mul, Nat.zero_add, getElem?_append_left (by omega), getElem?_cons_zero]
      rfl
    | succ q =>
      have place : (q + 1) * size + r - block.length = q * size + r := by
        rw [Nat.succ_mul]
        omega
      rw [flatten_cons, getElem?_append_right (by rw [Nat.succ_mul]; omega), place, later, getElem?_cons_succ]

structure Placed (blockXWidth size count done : Nat) (rows : Nat → List R) (blocks : List (List R)) : Prop where
  length : blocks.length = count
  uniform : ∀ block ∈ blocks, block.length = blockXWidth * size
  placed : ∀ n < done, ∀ f < size,
    ((blocks[n / blockXWidth]?).bind fun block => block[n % blockXWidth * size + f]?) = (rows n)[f]?

variable {blockXWidth size count done : Nat} {rows : Nat → List R} {blocks : List (List R)}

theorem Placed.step (placed : Placed blockXWidth size count done rows blocks) (someRow : 0 < blockXWidth)
    {chunk : ImageChunk R} (row : chunk.blockRow + chunk.blockRowStart = done) (values : chunk.chunk = rows done)
    (wide : (rows done).length = size) (inside : done / blockXWidth < count) :
    ∃ next, placeChunk blockXWidth size blocks chunk = .ok next ∧
      Placed blockXWidth size count (done + 1) rows next := by
  have bound : done / blockXWidth < blocks.length := placed.length ▸ inside
  have blockLength := placed.uniform _ (getElem_mem bound)
  have room : done % blockXWidth * size + size ≤ blockXWidth * size := by
    have below := Nat.mul_le_mul_right size (Nat.mod_lt done someRow)
    rwa [Nat.succ_mul] at below
  have fits : done % blockXWidth * size + chunk.chunk.length ≤ blocks[done / blockXWidth].length := by
    rw [values, wide, blockLength]
    exact room
  have stored : placeChunk blockXWidth size blocks chunk =
      .ok (blocks.set (done / blockXWidth)
        (overwrite blocks[done / blockXWidth] (done % blockXWidth * size) chunk.chunk)) := by
    unfold placeChunk
    dsimp only
    rw [row, getElem?_eq_getElem bound]
    change (if _ then _ else _) = _
    rw [if_pos fits]
    rfl
  refine ⟨_, stored, by rw [length_set, placed.length], fun block mem => ?_, fun n before f column => ?_⟩
  · rcases mem_or_eq_of_mem_set mem with old | rfl
    · exact placed.uniform block old
    · rw [length_overwrite fits, blockLength]
  · rcases Nat.lt_succ_iff_lt_or_eq.mp before with earlier | rfl
    · by_cases sameBlock : done / blockXWidth = n / blockXWidth
      · -- another row of the same block
        have apart : n % blockXWidth ≠ done % blockXWidth := by
          intro same
          have one := Nat.div_add_mod' n blockXWidth
          have other := Nat.div_add_mod' done blockXWidth
          rw [sameBlock, ← same] at other
          omega
        have old := placed.placed n earlier f column
        rw [← sameBlock, getElem?_eq_getElem bound, Option.bind_some] at old
        rw [← sameBlock, getElem?_set_self bound, Option.bind_some, getElem?_overwrite fits, values, wide, if_neg, old]
        rintro ⟨low, high⟩
        have order : n % blockXWidth + 1 ≤ done % blockXWidth ∨ done % blockXWidth + 1 ≤ n % blockXWidth := by omega
        rcases order with less | more
        · have scaled := Nat.mul_le_mul_right size less
          rw [Nat.succ_mul] at scaled
          omega
        · have scaled := Nat.mul_le_mul_right size more
          rw [Nat.succ_mul] at scaled
          omega
      · rw [getElem?_set_ne sameBlock]
        exact placed.placed n earlier f column
    · rw [getElem?_set_self bound, Option.bind_some, getElem?_overwrite fits, values, wide,
        if_pos ⟨Nat.le_add_right _ _, by omega⟩, Nat.add_sub_cancel_left]

end

section

variable [Semiring R] (conv : Convolution R)

omit [Semiring R] in
/-- A chunk that is wide enough takes a whole row. -/
theorem rowToChunks_single {blockY blockRow blockRowStart : Nat} {values : List R} (nonempty : values ≠ [])
    (wide : values.length < blockY) (last : R) : rowToChunks blockY blockRow blockRowStart values last =
      [⟨blockRow, 0, values ++ [last], blockY, blockRowStart⟩] := by
  have whole : slice (values ++ [last]) 0 blockY = values ++ [last] := by
    rw [slice, drop_zero, take_of_length_le (by simpa using wide)]
  rw [rowToChunks_eq (by omega) nonempty, Nat.div_eq_of_lt wide]
  simp [pieceAt, whole]

def rowChunk (n : Nat) : ImageChunk R :=
  ⟨n % conv.windows, 0, imageRow conv n ++ [1], columns conv, n / conv.windows * conv.windows⟩

theorem length_imageRow {n : Nat} (inside : n < conv.images.length * conv.windows) :
    (imageRow conv n).length = tapCount conv := by
  have image : n / conv.windows < conv.images.length := Nat.div_lt_of_lt_mul (Nat.mul_comm _ _ ▸ inside)
  rw [imageRow, getElem?_eq_getElem image]
  exact length_windowRow conv _ _

theorem imageChunks_columns : imageChunks conv (columns conv) =
    (range (conv.images.length * conv.windows)).map (rowChunk conv) := by
  rw [imageChunks, map_eq_flatMap]
  apply flatMap_congr
  intro n inRange
  have length := length_imageRow conv (mem_range.mp inRange)
  have some := tapCount_pos conv
  exact rowToChunks_single (ne_nil_of_length_pos (by omega)) (by rw [length]; exact Nat.lt_succ_self _) 1

omit [Semiring R] in
theorem windows_pos : 0 < conv.windows := Nat.mul_pos (Nat.succ_pos _) (Nat.succ_pos _)

omit [Semiring R] in
theorem rows_pos : 0 < conv.images.length * conv.windows :=
  Nat.mul_pos (length_pos_of_ne_nil conv.someImage) (windows_pos conv)

variable {blockXWidth : Nat}

/-- Each row lies in the block that its number says. -/
theorem block_lt {n total : Nat} (someRow : 0 < blockXWidth) (inside : n < total) :
    n / blockXWidth < (total + blockXWidth - 1) / blockXWidth := by
  have least : n / blockXWidth * blockXWidth ≤ n := Nat.div_mul_le_self _ _
  rw [Nat.lt_iff_add_one_le, Nat.le_div_iff_mul_le someRow, Nat.succ_mul]
  omega

theorem placeChunks_placed (someRow : 0 < blockXWidth) {count : Nat} {start : List (List R)}
    (enough : ∀ n < conv.images.length * conv.windows, n / blockXWidth < count)
    (fresh : Placed blockXWidth (columns conv) count 0 (fun n => imageRow conv n ++ [1]) start) :
    ∀ done ≤ conv.images.length * conv.windows, ∃ blocks,
      ((range done).map (rowChunk conv)).foldlM (placeChunk blockXWidth (columns conv)) start = .ok blocks ∧
        Placed blockXWidth (columns conv) count done (fun n => imageRow conv n ++ [1]) blocks := by
  intro done
  induction done with
  | zero => exact fun _ => ⟨start, rfl, fresh⟩
  | succ done ih =>
    intro inside
    obtain ⟨blocks, before, placed⟩ := ih (Nat.le_of_succ_le inside)
    have wide : (imageRow conv done ++ [1]).length = columns conv := by
      rw [length_append, length_imageRow conv inside]
      rfl
    have number : (rowChunk conv done).blockRow + (rowChunk conv done).blockRowStart = done :=
      Nat.mod_add_div' done conv.windows
    obtain ⟨next, stored, placedNext⟩ := placed.step someRow number rfl wide (enough done inside)
    refine ⟨next, ?_, placedNext⟩
    rw [range_succ, map_append, foldlM_append, before, map_singleton, ok_bind, foldlM_cons, stored, ok_bind]
    rfl

/-- However many blocks there are, the image matrix holds the windows, with a one behind each. -/
theorem stacked_known (someRow : 0 < blockXWidth) (small : blockXWidth * columns conv < 2 ^ 31) :
    ∃ matrix, (ImagePath.convert2Blocks blockXWidth someRow).build conv = .ok matrix ∧ matrix.numCol = columns conv ∧
      ∀ n < conv.images.length * conv.windows, ∀ f < columns conv,
        entry matrix n f = (imageRow conv n ++ [1])[f]? := by
  obtain ⟨lists, cut, flat⟩ := mapM_imgToChunks conv (columns conv)
  rw [imageChunks_columns] at flat
  have first : ((range (conv.images.length * conv.windows)).map (rowChunk conv)).head? = some (rowChunk conv 0) := by
    rw [head?_map, head?_range, if_neg (rows_pos conv).ne']
    rfl
  have wide : (rowChunk conv 0).chunk.length = columns conv := by
    change (imageRow conv 0 ++ [1]).length = _
    rw [length_append, length_imageRow conv (rows_pos conv)]
    rfl
  have fits : signed 32 ((blockXWidth : Int) * (columns conv : Nat)) = (blockXWidth * columns conv : Nat) := by
    rw [← Nat.cast_mul]
    exact signed_natCast (by decide) small
  have fresh : Placed blockXWidth (columns conv) ((conv.images.length * conv.windows + blockXWidth - 1) / blockXWidth) 0
      (fun n => imageRow conv n ++ [1]) (replicate ((conv.images.length * conv.windows + blockXWidth - 1) / blockXWidth)
        (replicate (blockXWidth * columns conv) 0)) := by
    refine ⟨length_replicate, fun block mem => ?_, fun n before => absurd before (Nat.not_lt_zero n)⟩
    rw [eq_of_mem_replicate mem, length_replicate]
  obtain ⟨blocks, stored, placed⟩ := placeChunks_placed conv someRow (fun n => block_lt someRow) fresh _ le_rfl
  have opened : orError ConvError.outOfBounds (some (rowChunk conv 0)) = .ok (rowChunk conv 0) := rfl
  have made : ConvHelper.convert2Blocks conv.images conv.kernelSize conv.channels conv.stride 0 blockXWidth =
    .ok blocks := by
    have width : conv.channels * conv.kernelSize * conv.kernelSize + 1 = columns conv := rfl
    unfold ConvHelper.convert2Blocks
    dsimp only
    rw [width, cut, ok_bind, flat, chunks2Blocks, first, opened, ok_bind]
    dsimp only
    rw [wide, fits, if_neg (by omega), length_map, length_range, Int.toNat_natCast]
    exact stored
  refine ⟨stacked (columns conv) blocks, ?_, rfl, fun n row f column => ?_⟩
  · rw [ImagePath.build, made]
    rfl
  · have place : n * columns conv + f =
        n / blockXWidth * (blockXWidth * columns conv) + (n % blockXWidth * columns conv + f) := by
      rw [← Nat.add_assoc, ← Nat.mul_assoc, ← Nat.add_mul, Nat.div_add_mod']
    have inBlock : n % blockXWidth * columns conv + f < blockXWidth * columns conv :=
      rowMajor_lt (Nat.mod_lt n someRow) column
    have found := placed.placed n row f column
    rw [← getElem?_flatten_uniform placed.uniform inBlock, ← place] at found
    rw [entry, stacked, getElem?_map, found]
    cases (imageRow conv n ++ [1])[f]? <;> rfl

end

section

variable [Semiring R] {conv : Convolution R} {imagePath : ImagePath} {matrix : ImageMatrix R}

theorem ImagePath.known (small : imagePath.Fits conv) (oneBlock : imagePath.OneBlock conv) :
    ∃ matrix, imagePath.build conv = .ok matrix ∧ matrix.numCol = columns conv ∧
      ∀ n < conv.images.length * conv.windows, ∀ f < columns conv,
        entry matrix n f = (imageRow conv n ++ [1])[f]? := by
  cases imagePath with
  | convertImage size => exact imageMatrix_few small oneBlock
  | convert2Blocks blockXWidth someRow => exact stacked_known conv someRow small.2

theorem ImagePath.missing (small : imagePath.Fits conv) (several : ¬imagePath.OneBlock conv)
    (built : imagePath.build conv = .ok matrix) :
    ∃ n < conv.images.length * conv.windows, entry matrix n 0 = none := by
  cases imagePath with
  | convertImage size =>
    have many := Nat.lt_of_not_le several
    exact ⟨size.x, many, imageMatrix_many small many built⟩
  | convert2Blocks blockXWidth someRow => exact absurd trivial several

end

section

variable [Semiring R] (conv : Convolution R)

def withImages (images : List (Image R)) (same : Numbered conv.height conv.width conv.channels images)
    (some : images ≠ []) (bias : Nat → R) : Convolution R :=
  { conv with
    images := images
    bias := bias
    sameImages := same
    someImage := some }

variable {conv} {first : Image R}

/-- Kernels that agree in their values have the same sums. -/
theorem value_congr (conv : Convolution R) {image one other : Image R} {window : Nat}
    (same : ∀ tap ∈ taps conv.channels conv.kernelSize,
      valueAt one tap.channel tap.i tap.j = valueAt other tap.channel tap.i tap.j) :
    conv.value image one window = conv.value image other window := by
  unfold Convolution.value
  refine Finset.sum_congr rfl fun c inChannels => Finset.sum_congr rfl fun i inRows =>
    Finset.sum_congr rfl fun j inColumns => ?_
  rw [same ⟨c, i, j⟩ (mem_taps.mpr ⟨Finset.mem_range.mp inChannels, Finset.mem_range.mp inRows,
    Finset.mem_range.mp inColumns⟩)]

/-- An image with a single one, under the tap in the first window. -/
def spot (conv : Convolution R) (tap : Tap) : Image R where
  index := 0
  x := conv.height
  y := conv.width
  z := conv.channels
  matrices := (range conv.channels).map fun c => (range (conv.height * conv.width)).map fun place =>
    if c = tap.channel ∧ place = tap.i * conv.width + tap.j then 1 else 0
  planes := by rw [length_map, length_range]
  sized := by
    intro plane mem
    obtain ⟨c, _, rfl⟩ := mem_map.mp mem
    rw [length_map, length_range]

theorem valueAt_spot {tap : Tap} (inTaps : tap ∈ taps conv.channels conv.kernelSize) {c i j : Nat}
    (inChannels : c < conv.channels) (inRows : i < conv.kernelSize) (inColumns : j < conv.kernelSize) :
    valueAt (spot conv tap) c i j = if c = tap.channel then if i = tap.i then if j =
      tap.j then 1 else 0 else 0 else 0 := by
  obtain ⟨_, _, tapColumns⟩ := mem_taps.mp inTaps
  have row : i < conv.height := inRows.trans_le conv.fitsHeight
  have column : j < conv.width := inColumns.trans_le conv.fitsWidth
  have samePlace : i * conv.width + j = tap.i * conv.width + tap.j ↔ i = tap.i ∧ j = tap.j :=
    ⟨rowMajor_inj column (tapColumns.trans_le conv.fitsWidth), fun ⟨rows, columns⟩ => by rw [rows, columns]⟩
  simp only [valueAt, spot, getD_eq_getElem?_getD, getElem?_map, getElem?_range inChannels, Option.map_some,
    Option.getD_some, getElem?_range (rowMajor_lt row column), samePlace, ite_and]

theorem value_spot {tap : Tap} (inTaps : tap ∈ taps conv.channels conv.kernelSize) (kernel : Image R) :
    conv.value (spot conv tap) kernel 0 = valueAt kernel tap.channel tap.i tap.j := by
  obtain ⟨tapChannels, tapRows, tapColumns⟩ := mem_taps.mp inTaps
  have terms : conv.value (spot conv tap) kernel 0 =
      ∑ c ∈ Finset.range conv.channels, ∑ i ∈ Finset.range conv.kernelSize, ∑ j ∈ Finset.range conv.kernelSize,
        if c = tap.channel then if i = tap.i then if j = tap.j then valueAt kernel c i j else 0 else 0 else 0 := by
    unfold Convolution.value
    refine Finset.sum_congr rfl fun c inChannels => Finset.sum_congr rfl fun i inRows =>
      Finset.sum_congr rfl fun j inColumns => ?_
    rw [Nat.zero_div, Nat.zero_mod, Nat.zero_mul, Nat.zero_add, Nat.zero_add, valueAt_spot inTaps
      (Finset.mem_range.mp inChannels) (Finset.mem_range.mp inRows) (Finset.mem_range.mp inColumns)]
    simp only [ite_mul, one_mul, zero_mul]
  rw [terms, Finset.sum_eq_single tap.channel, Finset.sum_eq_single tap.i, Finset.sum_eq_single tap.j]
  · simp only [if_true]
  · intro j _ other
    simp only [if_true, if_neg other]
  · exact fun outside => absurd (Finset.mem_range.mpr tapColumns) outside
  · intro i _ other
    simp only [if_true, if_neg other, Finset.sum_const_zero]
  · exact fun outside => absurd (Finset.mem_range.mpr tapRows) outside
  · intro c _ other
    simp only [if_neg other, Finset.sum_const_zero]
  · exact fun outside => absurd (Finset.mem_range.mpr tapChannels) outside

/-- On all images and biases, only kernels with the same values have the same sums. -/
theorem forall_sameSums_iff (conv : Convolution R) :
    (∀ images same some bias, SameSums (withImages conv images same some bias)) ↔ SameWeights conv := by
  constructor
  · intro sums
    obtain ⟨first, found⟩ := Option.isSome_iff_exists.mp (isSome_head?.mpr conv.someKernel)
    have asFirst : ∀ kernel ∈ conv.kernels, ∀ tap ∈ taps conv.channels conv.kernelSize,
        valueAt first tap.channel tap.i tap.j = valueAt kernel tap.channel tap.i tap.j := by
      intro kernel mem tap inTaps
      obtain ⟨k, inside, rfl⟩ := getElem_of_mem mem
      have numbered : Numbered conv.height conv.width conv.channels [spot conv tap] :=
        ⟨by simp [spot], by simp [spot]⟩
      have equal := sums [spot conv tap] numbered (cons_ne_nil _ _) (fun _ => 0) first found (spot conv tap)
        mem_cons_self 0 (windows_pos conv) k inside
      change conv.value (spot conv tap) first 0 + 0 = conv.value (spot conv tap) conv.kernels[k] 0 + 0 at equal
      rwa [add_zero, add_zero, value_spot inTaps, value_spot inTaps] at equal
    intro one mem other mem' tap inTaps
    rw [← asFirst one mem tap inTaps, asFirst other mem' tap inTaps]
  · intro same images _ _ bias first found image _ window _ k kernel
    change conv.value image first window + bias k = conv.value image conv.kernels[k] window + bias k
    rw [value_congr conv (same first (mem_of_head? found) conv.kernels[k] (getElem_mem kernel))]

end

section

variable [Semiring R]

end

def plane : Image Int := ⟨0, 3, 3, 1, [[1, 2, 3, 4, 5, 6, 7, 8, 9]], rfl, by decide⟩

def upper : Image Int := ⟨0, 2, 2, 1, [[1, 1, 0, 0]], rfl, by decide⟩

def diagonal : Image Int := ⟨1, 2, 2, 1, [[1, 0, 0, -1]], rfl, by decide⟩

end CactusDB.Optimizer.ConvConversions
