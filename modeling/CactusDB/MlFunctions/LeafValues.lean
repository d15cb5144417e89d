import CactusDB.Library.Binary32
import CactusDB.MlFunctions.TreeDecisions

/-! What the parser reads of the numerals of the leaves, and the predictions of a parsed forest. -/

namespace CactusDB.MlFunctions.LeafValues
open Library TextScan DecimalNumerals Fallible DecisionTree TreeDump TreeDecisions List SplitTree DecimalNumeral

variable {K : Type}

def isDecimalChar (c : Char) : Bool := c.isDigit || ['+', '-', '.', 'e', 'E'].contains c

/-- What `std::stod` does with decimal numerals: the number at the beginning of a text that is not
hexadecimal is rounded, and a text of such characters without a number is refused. -/
structure ReadsDecimals (stod : Text → Except Failure K) (round : ℚ → Except Failure K) : Prop where
  number : ∀ text value, 'x' ∉ text → 'X' ∉ text → readDecimal text = some value → stod text = round value
  refused : ∀ text, text.all isDecimalChar = true → readDecimal text = none → ∃ problem, stod text = .error problem

theorem exactStod_reads : ReadsDecimals exactStod Except.ok where
  number text value _ _ read := by rw [exactStod, read]
  refused text _ refused := ⟨.invalidArgument, by rw [exactStod, refused]⟩

section

theorem isDecimalChar_of_isDigit {c : Char} (digit : c.isDigit = true) : isDecimalChar c = true := by
  rw [isDecimalChar, digit, Bool.true_or]

theorem isDecimalChar_sign (sign : Sign) : ∀ c ∈ sign.text, isDecimalChar c = true := by
  rw [← all_eq_true]
  cases sign <;> decide

variable (numeral : DecimalNumeral)

theorem isDecimalChar_print : ∀ c ∈ numeral.print, isDecimalChar c = true := by
  have fraction : ∀ c ∈ fractionText numeral.fraction, isDecimalChar c = true := by
    intro c mem
    have plain := numeral.fractionPlain
    cases shape : numeral.fraction with
    | none => simp [shape, fractionText] at mem
    | some digits =>
      rw [shape] at mem plain
      cases mem with
      | head => decide
      | tail _ behind => exact isDecimalChar_of_isDigit (plain c behind)
  have exponent : ∀ c ∈ exponentText numeral.exponent, isDecimalChar c = true := by
    intro c mem
    cases shape : numeral.exponent with
    | none => simp [shape, exponentText] at mem
    | some exponent =>
      rw [shape] at mem
      rcases mem_cons.mp mem with rfl | behind
      · cases exponent.capital <;> decide
      · rcases mem_append.mp behind with sign | digit
        · exact isDecimalChar_sign _ c sign
        · exact isDecimalChar_of_isDigit (exponent.plain c digit)
  intro c mem
  simp only [print, unsigned, mem_append] at mem
  rcases mem with sign | whole | inFraction | inExponent
  · exact isDecimalChar_sign _ c sign
  · exact isDecimalChar_of_isDigit (numeral.wholePlain c whole)
  · exact fraction c inFraction
  · exact exponent c inExponent

theorem isNumeral_print : isNumeral numeral.print = true := by
  rw [isNumeral, all_eq_true]
  intro c mem
  have decimal := isDecimalChar_print numeral c mem
  simp only [isDecimalChar, isNumeralChar, Bool.or_eq_true, contains_iff_mem] at decimal ⊢
  rcases decimal with digit | mark
  · exact .inl digit
  · refine .inr ?_
    simp only [mem_cons, not_mem_nil, or_false] at mark ⊢
    tauto

theorem free_print {c : Char} (other : isDecimalChar c = false) (numeral : DecimalNumeral) : c ∉ numeral.print := by
  intro mem
  rw [isDecimalChar_print numeral c mem] at other
  cases other

end

section

/-- The numeral is short, or it denotes the same number without its last three characters. -/
def Kept (numeral : Text) : Prop :=
  numeral.length < 3 ∨ readDecimal (numeral.take (numeral.length - 3)) = readDecimal numeral

instance (numeral : Text) : Decidable (Kept numeral) := inferInstanceAs (Decidable (_ ∨ _))

theorem endsNumber_closeLabel : endsNumber closeLabel := by
  intro c first
  cases first
  decide

variable (numeral : DecimalNumeral)

theorem readDecimal_leafPart_iff :
    readDecimal (leafPart numeral.print) = some numeral.number ↔ Kept numeral.print := by
  unfold leafPart Kept
  split
  case isTrue short => simp [short, readDecimal_print numeral endsNumber_closeLabel]
  case isFalse long => simp [long, readDecimal_numeral]

def Survives (numeral : DecimalNumeral) : Prop :=
  ∀ (K : Type) (round : ℚ → Except Failure K) (stod : Text → Except Failure K), ReadsDecimals stod round →
    ∀ value, round numeral.number = .ok value → ∀ (tree : Nodes K) (id : Nat), id < maxNumNodesPerTree →
      ∃ array, processLeafNode stod tree (leafText id numeral.print) = .ok array ∧ array id = leafNode value

theorem stod_leafPart {round : ℚ → Except Failure K} {stod : Text → Except Failure K}
    (reads : ReadsDecimals stod round) {numeral : DecimalNumeral} (kept : Kept numeral.print) :
    stod (leafPart numeral.print) = round numeral.number := by
  have free (c : Char) (other : isDecimalChar c = false) (label : c ∉ closeLabel) : c ∉ leafPart numeral.print := by
    have notPrinted : c ∉ numeral.print := free_print other numeral
    unfold leafPart
    split
    case isTrue => simp [notPrinted, label]
    case isFalse => exact fun mem => notPrinted (mem_of_mem_take mem)
  exact reads.number _ _ (free 'x' (by decide) (by decide)) (free 'X' (by decide) (by decide))
    ((readDecimal_leafPart_iff numeral).mpr kept)

theorem survives_iff_kept : Survives numeral ↔ Kept numeral.print := by
  constructor
  · intro survives
    let blank : Nodes ℚ := fun _ => leafNode 0
    obtain ⟨array, done, stored⟩ :=
      survives ℚ Except.ok exactStod exactStod_reads numeral.number rfl blank 0 (by decide)
    rw [processLeafNode_print exactStod blank (by decide) (isNumeral_print numeral)] at done
    obtain ⟨value, read, done⟩ := exists_of_bind_ok done
    rw [setNode_inside blank (by decide)] at done
    have written : array 0 = leafNode value := by
      rw [← Except.ok.inj done]
      simp
    have same : value = numeral.number := congrArg Node.value (written.symm.trans stored)
    apply (readDecimal_leafPart_iff numeral).mp
    unfold exactStod at read
    split at read
    case h_1 number found => rw [found, Except.ok.inj read, same]
    case h_2 => cases read
  · intro kept K round stod reads value rounded tree id limit
    refine ⟨Function.update tree id (leafNode value), ?_, by simp⟩
    rw [processLeafNode_print stod tree (small_of_limit limit) (isNumeral_print numeral), stod_leafPart reads kept,
      rounded]
    simp only [bind, Except.bind, setNode_inside tree limit]

/-- Without an exponent and with three digits behind the point to lose, a numeral is kept exactly when its
last three digits are zeros. -/
theorem kept_fraction_iff {numeral : DecimalNumeral} {fraction : Text} (plain : numeral.exponent = none)
    (behind : numeral.fraction = some fraction) (enough : 3 ≤ fraction.length)
    (left : numeral.whole ≠ [] ∨ 3 < fraction.length) :
    Kept numeral.print ↔ ∀ c ∈ fraction.drop (fraction.length - 3), c = '0' := by
  have digits : areDigits fraction := by
    have known := numeral.fractionPlain
    rwa [behind] at known
  have rest : areDigits (fraction.drop (fraction.length - 3)) := fun c mem => digits c (mem_of_mem_drop mem)
  let cut : DecimalNumeral :=
    { sign := numeral.sign
      whole := numeral.whole
      fraction := some (fraction.take (fraction.length - 3))
      exponent := none
      wholePlain := numeral.wholePlain
      fractionPlain := fun c mem => digits c (mem_of_mem_take mem)
      present := by
        intro nothing
        have none := append_eq_nil_iff.mp nothing
        have short : (fraction.take (fraction.length - 3)).length = 0 := congrArg List.length none.2
        rw [length_take] at short
        rcases left with whole | long
        · exact whole none.1
        · omega }
  have printed : numeral.print = cut.print ++ fraction.drop (fraction.length - 3) := by
    simp [cut, print, unsigned, fractionText, exponentText,
      plain, behind]
  have width : (fraction.drop (fraction.length - 3)).length = 3 := by
    rw [length_drop]
    omega
  have long : ¬ numeral.print.length < 3 := by
    rw [printed, length_append, width]
    omega
  have front : numeral.print.take (numeral.print.length - 3) = cut.print := by
    rw [printed, length_append, width, Nat.add_sub_cancel, take_left']
    rfl
  have number : numeral.number = scaled numeral.sign.isNegative
      ((numeral.whole ++ fraction.take (fraction.length - 3)) ++ fraction.drop (fraction.length - 3))
      ((fraction.take (fraction.length - 3)).length + (fraction.drop (fraction.length - 3)).length) 0 := by
    simp [number, plain, behind, append_assoc]
  have cutNumber : cut.number = scaled numeral.sign.isNegative
      (numeral.whole ++ fraction.take (fraction.length - 3)) (fraction.take (fraction.length - 3)).length 0 := rfl
  rw [Kept, or_iff_right long, front, readDecimal_numeral, readDecimal_numeral, Option.some_inj, number, cutNumber,
    scaled_append_eq_iff, ofDigitChars_eq_zero_iff rest]

end

section

def maxNumTrees : Nat := 1600

structure Forest (K : Type) where
  trees : List (Nodes K)
  isClassification : Bool

def constructForestFromPaths (stod : Text → Except Failure K) (treesPathIn : List (List Text)) (memory : Nat → Nodes K)
    (isClassification : Bool) : Except Failure (Forest K) := do
  if maxNumTrees < treesPathIn.length then .error .undefined
  let trees ← treesPathIn.zipIdx.mapM fun file => constructTreeFromPath stod file.1 (memory file.2)
  .ok ⟨trees, isClassification⟩

variable [Zero K] [One K] [Add K] [Div K] [NatCast K] [LinearOrder K]

def decideResult (isClassification : Bool) (numTrees : Nat) (accumulatedResult : K) : K :=
  let mean := accumulatedResult / (numTrees : K)
  if isClassification then if 0 < mean then 1 else 0 else mean

def Forest.predict (forest : Forest K) (features : Int → Option K) (rounds : Nat) : Option K := do
  let accumulatedResult ← forest.trees.foldlM
    (fun accumulatedResult tree => (predictSingle tree features rounds).map (accumulatedResult + ·)) 0
  some (decideResult forest.isClassification forest.trees.length accumulatedResult)

def predictTree (features : Int → Option K) : SplitTree K → K
  | .leaf _ _ value => value
  | .node _ index _ threshold missingYes yes no =>
    if goesYes threshold missingYes (features index) then predictTree features yes else predictTree features no

def predictDumped (isClassification : Bool) (trees : List (SplitTree K)) (features : Int → Option K) : K :=
  decideResult isClassification trees.length
    (trees.foldl (fun accumulatedResult tree => accumulatedResult + predictTree features tree) 0)

end

variable {stod : Text → Except Failure K} {round : ℚ → Except Failure K}

/-- A tree with its dump: the leaves hold the numbers that their numerals denote. -/
structure DumpedTree (stod : Text → Except Failure K) (round : ℚ → Except Failure K) where
  tree : SplitTree K
  lines : List DumpLine
  dumped : Dumped stod tree
  dump : IsDump tree lines
  indices : ∀ id index numeral threshold missingYes yes no,
    node id index numeral threshold missingYes yes no ∈ tree.subtrees → index < 2 ^ 31
  leaves : ∀ id numeral value, leaf id numeral value ∈ tree.subtrees →
    ∃ decimal : DecimalNumeral, numeral = decimal.print ∧ round decimal.number = .ok value

def DumpedTree.LeavesKept (entry : DumpedTree stod round) : Prop :=
  ∀ id numeral value, leaf id numeral value ∈ entry.tree.subtrees → Kept numeral

variable {entry : DumpedTree stod round}

theorem stod_leaf (reads : ReadsDecimals stod round) (kept : entry.LeavesKept) {id : Nat} {numeral : Text} {value : K}
    (mem : leaf id numeral value ∈ entry.tree.subtrees) : stod (leafPart numeral) = .ok value := by
  obtain ⟨decimal, rfl, rounded⟩ := entry.leaves id numeral value mem
  rw [stod_leafPart reads (kept id _ value mem), rounded]

theorem readable_of_kept (reads : ReadsDecimals stod round) (kept : entry.LeavesKept) :
    ∀ subtree ∈ entry.tree.subtrees, subtree.nodeLine.Readable stod := by
  intro subtree mem
  have limit := limit_of_subtree entry.dumped mem
  cases subtree with
  | leaf id numeral value => exact ⟨limit, value, stod_leaf reads kept mem⟩
  | node id index numeral threshold missingYes yes no =>
    exact ⟨limit, entry.indices _ _ _ _ _ _ _ mem, threshold, entry.dumped.thresholds _ _ _ _ _ _ _ mem⟩

variable [LinearOrder K]

theorem exists_selected (features : Int → Option K) (tree : SplitTree K) :
    ∃ id numeral, tree.select features = .leaf id numeral (predictTree features tree) ∧
      leaf id numeral (predictTree features tree) ∈ tree.subtrees := by
  induction tree with
  | leaf id numeral value => exact ⟨id, numeral, rfl, by simp [predictTree, subtrees]⟩
  | node id index numeral threshold missingYes yes no yesHyp noHyp =>
    rw [predictTree, select]
    cases goesYes threshold missingYes (features index) with
    | true =>
      obtain ⟨leafID, leafNumeral, selected, mem⟩ := yesHyp
      exact ⟨leafID, leafNumeral, selected, by simp [subtrees, mem]⟩
    | false =>
      obtain ⟨leafID, leafNumeral, selected, mem⟩ := noHyp
      exact ⟨leafID, leafNumeral, selected, by simp [subtrees, mem]⟩

/-- The array predicts what the tree does: `predictMissing` on all vectors, the others where no missing feature is
taken to the yes side. -/
def PredictsAs (entry : DumpedTree stod round) (array : Nodes K) : Prop :=
  ∀ features : Int → Option K, ∀ rounds > entry.tree.height,
    predictMissing array features rounds = some (predictTree features entry.tree) ∧
      (entry.tree.MissingGoesNo features →
        predictSingle array features rounds = some (predictTree features entry.tree))

theorem exists_predictsAs (reads : ReadsDecimals stod round) (kept : entry.LeavesKept) (memory : Nodes K) :
    ∃ array, constructTreeFromPath stod (entry.lines.map DumpLine.print) memory = .ok array ∧
      PredictsAs entry array := by
  have readable := readable_of_kept reads kept
  have held {subtree : SplitTree K} (mem : subtree ∈ entry.tree.subtrees) :=
    holds_of_dump entry.dumped entry.dump readable memory mem
  refine ⟨_, constructTreeFromPath_print (isPlain_of_dump entry.dumped entry.dump)
    (readable_of_dump entry.dumped entry.dump readable) memory, ?_⟩
  intro features rounds enough
  have whole := held (mem_subtrees_self entry.tree)
  have missing := missingDecides_of_holds entry.dumped whole features rounds enough
  have single := fun known => (singleDecides_iff entry.dumped whole features).mpr known rounds enough
  obtain ⟨id, numeral, selected, mem⟩ := exists_selected features entry.tree
  obtain ⟨value, read, stored⟩ := held mem
  have same : value = predictTree features entry.tree := Except.ok.inj (read.symm.trans (stod_leaf reads kept mem))
  constructor
  · rw [predictMissing, missing, selected, Option.map_some, SplitTree.id, stored, same]
    rfl
  · intro known
    rw [predictSingle, single known, selected, Option.map_some, SplitTree.id, stored, same]
    rfl

variable {entries : List (DumpedTree stod round)}

theorem constructTrees_predict (reads : ReadsDecimals stod round) (memory : Nat → Nodes K)
    (kept : ∀ entry ∈ entries, entry.LeavesKept) (n : Nat) :
    ∃ trees, (((entries.map fun entry => entry.lines.map DumpLine.print).zipIdx n).mapM fun file =>
        constructTreeFromPath stod file.1 (memory file.2)) = .ok trees ∧ List.Forall₂ PredictsAs entries trees := by
  induction entries generalizing n with
  | nil => exact ⟨[], rfl, .nil⟩
  | cons entry rest ih =>
    obtain ⟨array, done, first⟩ := exists_predictsAs reads (kept entry mem_cons_self) (memory n)
    obtain ⟨trees, later, others⟩ := ih (fun other mem => kept other (mem_cons_of_mem entry mem)) (n + 1)
    refine ⟨array :: trees, ?_, .cons first others⟩
    rw [map_cons, zipIdx_cons, mapM_cons, done, later]
    rfl

variable [Add K]

theorem accumulate_eq {trees : List (Nodes K)}
    (predicts : List.Forall₂ PredictsAs entries trees) {features : Int → Option K}
    (known : ∀ entry ∈ entries, entry.tree.MissingGoesNo features) {rounds : Nat}
    (enough : ∀ entry ∈ entries, entry.tree.height < rounds) (accumulatedResult : K) :
    trees.foldlM (fun accumulatedResult tree => (predictSingle tree features rounds).map (accumulatedResult + ·))
        accumulatedResult =
      some ((entries.map DumpedTree.tree).foldl
        (fun accumulatedResult tree => accumulatedResult + predictTree features tree) accumulatedResult) := by
  induction predicts generalizing accumulatedResult with
  | nil => rfl
  | @cons entry array entries trees first others ih =>
    have single := (first features rounds (enough entry mem_cons_self)).2 (known entry mem_cons_self)
    rw [foldlM_cons, single]
    exact ih (fun other mem => known other (mem_cons_of_mem entry mem))
      (fun other mem => enough other (mem_cons_of_mem entry mem)) _

variable [Zero K] [One K] [Div K] [NatCast K]

/-- The value of a leaf survives in every number format exactly when its numeral is kept; a forest whose
leaves are all kept predicts what the dumped one does. -/
theorem leaf_values_kept_iff (reads : ReadsDecimals stod round) (memory : Nat → Nodes K) (isClassification : Bool)
    (entries : List (DumpedTree stod round)) (limit : entries.length ≤ maxNumTrees) :
    (∀ numeral : DecimalNumeral, Survives numeral ↔ Kept numeral.print) ∧
      ((∀ entry ∈ entries, entry.LeavesKept) →
        ∃ forest, constructForestFromPaths stod (entries.map fun entry => entry.lines.map DumpLine.print) memory
            isClassification = .ok forest ∧
          ∀ features : Int → Option K, (∀ entry ∈ entries, entry.tree.MissingGoesNo features) →
            ∀ rounds, (∀ entry ∈ entries, entry.tree.height < rounds) →
              forest.predict features rounds =
                some (predictDumped isClassification (entries.map DumpedTree.tree) features)) := by
  refine ⟨survives_iff_kept, fun kept => ?_⟩
  obtain ⟨trees, done, predicts⟩ := constructTrees_predict reads memory kept 0
  refine ⟨⟨trees, isClassification⟩, ?_, ?_⟩
  · rw [constructForestFromPaths, length_map, if_neg (by omega), done]
    rfl
  · intro features known rounds enough
    have length : trees.length = (entries.map DumpedTree.tree).length := by
      rw [length_map, predicts.length_eq]
    rw [Forest.predict, accumulate_eq predicts known enough 0, predictDumped, length]
    rfl

def keptTree : SplitTree ℚ := sampleTree "1.0000".toList "-1".toList 1 (-1)

theorem keptTree_indices (id index : Nat) (numeral : Text) (threshold : ℚ) (missingYes : Bool) (yes no : SplitTree ℚ)
    (mem : node id index numeral threshold missingYes yes no ∈ keptTree.subtrees) : index < 2 ^ 31 := by
  simp only [keptTree, sampleTree, subtrees, mem_cons, mem_append, not_mem_nil, or_false,
    reduceCtorEq, node.injEq] at mem
  omega

theorem keptTree_leaves (id : Nat) (numeral : Text) (value : ℚ)
    (mem : leaf id numeral value ∈ keptTree.subtrees) :
    ∃ decimal : DecimalNumeral, numeral = decimal.print ∧ Except.ok (ε := Failure) decimal.number = .ok value := by
  simp only [keptTree, sampleTree, subtrees, cons_append, nil_append, mem_cons,
    not_mem_nil, or_false, reduceCtorEq, false_or, leaf.injEq] at mem
  rcases mem with ⟨_, rfl, rfl⟩ | ⟨_, rfl, rfl⟩
  · exact ⟨⟨.none, ['1'], some ['0', '0', '0', '0'], none, by decide, by decide, by decide⟩, by decide,
      by decide +kernel⟩
  · exact ⟨⟨.minus, ['1'], none, none, by decide, by decide, by decide⟩, by decide, by decide +kernel⟩

theorem dumped_keptTree : Dumped exactStod keptTree := dumped_sampleTree (by decide) (by decide) 1 (-1)

def keptEntry : DumpedTree exactStod Except.ok where
  tree := keptTree
  lines := keptTree.dump
  dumped := dumped_keptTree
  dump := isDump_dump keptTree
  indices := keptTree_indices
  leaves := keptTree_leaves

theorem keptEntry_predicts : (∀ numeral : DecimalNumeral, Survives numeral ↔ Kept numeral.print) ∧
      ∃ forest, constructForestFromPaths exactStod [keptEntry.lines.map DumpLine.print] (fun _ => blankNodes) false =
          .ok forest ∧
        forest.predict (fun _ => some 0) 2 = some 1 := by
  have both := leaf_values_kept_iff exactStod_reads (fun _ => blankNodes) false [keptEntry] (by decide)
  refine ⟨both.1, ?_⟩
  have kept : ∀ entry ∈ [keptEntry], entry.LeavesKept := by
    intro entry mem id numeral value inTree
    rw [mem_singleton.mp mem] at inTree
    simp only [keptEntry, keptTree, sampleTree, subtrees, cons_append, nil_append, mem_cons,
      not_mem_nil, or_false, reduceCtorEq, false_or, leaf.injEq] at inTree
    rcases inTree with ⟨_, rfl, _⟩ | ⟨_, rfl, _⟩ <;> decide +kernel
  obtain ⟨forest, done, predicts⟩ := both.2 kept
  refine ⟨forest, done, ?_⟩
  rw [predicts (fun _ => some 0) (fun entry _ => missingGoesNo_of_present (fun _ => rfl) entry.tree) 2 (by decide)]
  decide +kernel

/-- Of the leaf `0.136700854` the number `0.1367` is kept, which differs from it in single precision too. -/
theorem leaf_loses_last_digits :
    (processLeafNode exactStod blankNodes (leafText 106 "0.136700854".toList)).map (fun array => (array 106).value) =
        .ok (1367 / 10000) ∧
      readDecimal "0.136700854".toList = some (136700854 / 1000000000) ∧
      Library.Binary32.round (1367 / 10000) ≠ Library.Binary32.round (136700854 / 1000000000) :=
  ⟨by decide +kernel, by decide +kernel, by decide +kernel⟩

end CactusDB.MlFunctions.LeafValues
