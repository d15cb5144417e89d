import Mathlib.Data.Fintype.Basic

/-! AND and OR over whole vectors, with nulls and with errors that are kept for each row. Results,
null flags and undecided rows are words in the source; every operation on them is bitwise, so that
a bit for each row says the same. -/

namespace CactusDB.Expression.ConjunctExpr

/-- One bit for each row; a set bit of null flags stands for a value that is present. -/
abbrev Bits (n : Nat) := Fin n → Bool

variable {n : Nat}

abbrev InBounds (rows : Bits n) (row : Fin n) : Prop :=
  (∃ first ≤ row, rows first = true) ∧ ∃ last ≥ row, rows last = true

section

inductive BooleanMix where
  | kAllTrue
  | kAllFalse
  | kAllNull
  | kMixNonNull
  | kMix

/-- A boolean vector: flat, with its buffers where they are there, constant, or in another encoding,
given by what it decodes to. -/
inductive BoolVector (n : Nat) where
  | flat (values nulls : Option (Bits n))
  | constant (value : Option Bool)
  | encoded (values : Bits n) (nulls : Option (Bits n))

def present (nulls : Option (Bits n)) : Bits n := nulls.getD fun _ => true

def BoolVector.valueAt : BoolVector n → Fin n → Option Bool
  | flat none _, _ => none
  | flat (some values) nulls, row | encoded values nulls, row =>
    if present nulls row then some (values row) else none
  | constant value, _ => value

/-- Looks at every row between the bounds, selected or not. -/
def refineBooleanMixNonNull (bits rows : Bits n) : BooleanMix :=
  if ∀ row, InBounds rows row → bits row = false then .kAllFalse
  else if ∀ row, InBounds rows row → bits row = true then .kAllTrue
  else .kMixNonNull

def getFlatBool (activeRows : Bits n) : BoolVector n → BooleanMix × Bits n × Option (Bits n)
  | .flat none nulls => (.kAllNull, fun _ => false, nulls)
  | .flat (some values) nulls =>
    (if nulls.isSome then .kMix else refineBooleanMixNonNull values activeRows, values, nulls)
  | .constant none => (.kAllNull, fun _ => false, none)
  | .constant (some value) => (if value then .kAllTrue else .kAllFalse, fun _ => false, none)
  | .encoded values nulls =>
    let valuesToSet := fun row => activeRows row && (present nulls row && values row)
    let nullsToSet := nulls.map fun flags row => !activeRows row || flags row
    (if nulls.isSome then .kMix else refineBooleanMixNonNull valuesToSet activeRows,
      valuesToSet, nullsToSet)

def BooleanMix.Describes (value : Option Bool) (testValue testPresent : Bool) : BooleanMix → Prop
  | kAllTrue => value = some true
  | kAllFalse => value = some false
  | kAllNull => value = none
  | _ => value = if testPresent then some testValue else none

variable {rows : Bits n} {row : Fin n}

theorem refined_describes (values : Bits n) (selected : rows row = true) :
    (refineBooleanMixNonNull values rows).Describes (some (values row)) (values row) true := by
  have inside : InBounds rows row := ⟨⟨row, le_rfl, selected⟩, row, le_rfl, selected⟩
  unfold refineBooleanMixNonNull
  split
  case isTrue unset => exact congrArg some (unset row inside)
  case isFalse =>
    split
    case isTrue set => exact congrArg some (set row inside)
    case isFalse => rfl

theorem getFlatBool_describes (active : rows row = true) (vector : BoolVector n) :
    let (mix, values, nulls) := getFlatBool rows vector
    mix.Describes (vector.valueAt row) (values row) (present nulls row) := by
  cases vector with
  | flat values nulls =>
    cases values with
    | none => rfl
    | some values =>
      cases nulls with
      | none => exact refined_describes values active
      | some nulls => rfl
  | constant value =>
    cases value with
    | none => rfl
    | some value => cases value <;> rfl
  | encoded values nulls =>
    cases nulls with
    | none =>
      have refined := refined_describes (fun row => rows row && values row) active
      simpa [active, present, BoolVector.valueAt, getFlatBool] using refined
    | some nulls =>
      by_cases there : nulls row = true <;>
        simp [BooleanMix.Describes, getFlatBool, BoolVector.valueAt, present, active, there]

end

section

structure Cell where
  resultValue : Bool
  resultPresent : Bool
  active : Bool

def updateAnd (cell : Cell) (testValue testPresent : Bool) : Cell :=
  let testFalse := !testValue && testPresent
  let resultValue := cell.resultValue && (!cell.active || !testFalse)
  let resultPresent := cell.resultPresent || (cell.active && testFalse)
  let resultTrue := resultValue && resultPresent
  { resultValue
    resultPresent :=
      resultPresent && (!cell.active || !(resultPresent && resultTrue && !testPresent))
    active := cell.active && !testFalse }

def updateOr (cell : Cell) (testValue testPresent : Bool) : Cell :=
  let testTrue := testValue && testPresent
  let resultValue := cell.resultValue || (cell.active && testTrue)
  let resultPresent := cell.resultPresent || (cell.active && testTrue)
  let resultFalse := !resultValue && resultPresent
  { resultValue
    resultPresent :=
      resultPresent && (!cell.active || !(resultPresent && resultFalse && !testPresent))
    active := cell.active && !testTrue }

/-- What the cases of `updateResult` do to one row; words are updated between the bounds only. -/
def updateCell (isAnd inBounds testValue testPresent : Bool) (cell : Cell) : BooleanMix → Cell
  | .kAllNull => { cell with resultPresent := cell.resultPresent && !cell.active }
  | .kAllFalse =>
    if isAnd then ⟨cell.resultValue && !cell.active, cell.resultPresent || cell.active, false⟩
    else cell
  | .kAllTrue =>
    if isAnd then cell
    else ⟨cell.resultValue || cell.active, cell.resultPresent || cell.active, false⟩
  | _ =>
    if inBounds then (if isAnd then updateAnd else updateOr) cell testValue testPresent else cell

def updateResult (isAnd : Bool) (inputResult : BoolVector n) (cells : Fin n → Cell) : Fin n → Cell :=
  let activeRows := fun row => (cells row).active
  let (mix, values, nulls) := getFlatBool activeRows inputResult
  fun row =>
    updateCell isAnd (InBounds activeRows row) (values row) (present nulls row) (cells row) mix

/-- What a value does to an active row. A null is not noted where the row already lost its value,
which happens only after an error. -/
def Cell.Takes (isAnd : Bool) (before : Cell) : Option Bool → Cell → Prop
  | some test, after => after = if test = isAnd then before else ⟨!isAnd, true, false⟩
  | none, after => after.resultValue = before.resultValue ∧ after.active = true ∧
      (before.resultValue = isAnd → after.resultPresent = false)

variable {isAnd : Bool} {cell : Cell} {cells : Fin n → Cell} {row : Fin n}

theorem updateCell_takes {mix : BooleanMix} {value : Option Bool} {testValue testPresent : Bool}
    (active : cell.active = true) (described : mix.Describes value testValue testPresent) :
    cell.Takes isAnd value (updateCell isAnd true testValue testPresent cell mix) := by
  obtain ⟨resultValue, resultPresent, _⟩ := cell
  obtain rfl := active
  cases mix <;> obtain rfl := described <;> cases isAnd <;> cases resultValue <;>
    cases resultPresent <;> cases testValue <;> cases testPresent <;>
    simp [Cell.Takes, updateCell, updateAnd, updateOr]

theorem updateCell_inactive (inactive : cell.active = false) (inBounds testValue testPresent : Bool)
    (mix : BooleanMix) : updateCell isAnd inBounds testValue testPresent cell mix = cell := by
  obtain ⟨resultValue, resultPresent, _⟩ := cell
  obtain rfl := inactive
  cases mix <;> cases isAnd <;> cases inBounds <;> simp [updateCell, updateAnd, updateOr]

theorem updateResult_takes (isAnd : Bool) (inputResult : BoolVector n) (active : (cells row).active = true) :
    (cells row).Takes isAnd (inputResult.valueAt row) (updateResult isAnd inputResult cells row) := by
  have inside : InBounds (fun row => (cells row).active) row :=
    ⟨⟨row, le_rfl, active⟩, row, le_rfl, active⟩
  simp only [updateResult, decide_eq_true inside]
  exact updateCell_takes active (getFlatBool_describes active inputResult)

end

section

abbrev ErrorVector (ε : Type) (n : Nat) := Fin n → Option ε

/-- An input with its outcome on each row. Evaluated on some rows, it records the errors of these
rows and gives a vector that holds anything where a row failed. -/
structure Input (ε : Type) (n : Nat) where
  outcome : Fin n → Except ε (Option Bool)
  eval : Bits n → BoolVector n × ErrorVector ε n
  evaluates : ∀ rows row, rows row = true →
    match outcome row with
    | .ok value => (eval rows).2 row = none ∧ (eval rows).1.valueAt row = value
    | .error failure => (eval rows).2 row = some failure
  untouched : ∀ rows row, rows row = false → (eval rows).2 row = none

variable {ε : Type}

def rowsWithError (activeRows : Bits n) (errors : ErrorVector ε n) : Bits n := fun row =>
  activeRows row && (errors row).isSome

def addErrors (previousErrors errors : ErrorVector ε n) : ErrorVector ε n := fun row =>
  (previousErrors row).or (errors row)

def finalizeErrors (rows activeRows : Bits n) (errors : ErrorVector ε n) : ErrorVector ε n :=
  fun row => if rows row && !activeRows row then none else errors row

/-- One input: rows on which it failed stay active. -/
def evalInput (isAnd : Bool) (input : Input ε n) (cells : Fin n → Cell)
    (previousErrors : ErrorVector ε n) : (Fin n → Cell) × ErrorVector ε n :=
  let activeRows := fun row => (cells row).active
  let (inputResult, errors) := input.eval activeRows
  let extraActive := rowsWithError activeRows errors
  let updated := updateResult isAnd inputResult cells
  (fun row => { updated row with active := (updated row).active || extraActive row },
    addErrors previousErrors errors)

def evalInputs (isAnd : Bool) : List (Input ε n) → (Fin n → Cell) → ErrorVector ε n →
    (Fin n → Cell) × ErrorVector ε n
  | [], cells, errors => (cells, errors)
  | input :: inputs, cells, previousErrors =>
    let (cells, errors) := evalInput isAnd input cells previousErrors
    if ∀ row, (cells row).active = false then (cells, errors)
    else evalInputs isAnd inputs cells errors

structure Written (ε : Type) (n : Nat) where
  values : Bits n
  nulls : Bits n
  errors : ErrorVector ε n

def Written.valueAt (written : Written ε n) (row : Fin n) : Option Bool :=
  if written.nulls row then some (written.values row) else none

def initialCells (isAnd : Bool) (rows : Bits n) (before : Written ε n) (row : Fin n) : Cell where
  resultValue := if isAnd then before.values row || rows row else before.values row && !rows row
  resultPresent := before.nulls row || rows row
  active := rows row

def evalSpecialForm (isAnd : Bool) (inputs : List (Input ε n)) (rows : Bits n)
    (before : Written ε n) : Written ε n :=
  let (cells, errors) := evalInputs isAnd inputs (initialCells isAnd rows before) before.errors
  { values := fun row => (cells row).resultValue
    nulls := fun row => (cells row).resultPresent
    errors := finalizeErrors rows (fun row => (cells row).active) errors }

end

section

variable {ε : Type}

abbrev Outcomes (ε : Type) := List (Except ε (Option Bool))

abbrev Outcomes.Decide (outcomes : Outcomes ε) (isAnd : Bool) : Prop := .ok (some !isAnd) ∈ outcomes

abbrev Outcomes.Fail (outcomes : Outcomes ε) : Prop := ∃ failure, .error failure ∈ outcomes

/-- Three-valued AND or OR of the outcomes of one row: the deciding value wins, then any error, then
null. -/
structure Follows (isAnd : Bool) (outcomes : Outcomes ε) (value : Option Bool) (error : Option ε) :
    Prop where
  decided : outcomes.Decide isAnd → error = none ∧ value = some !isAnd
  failed : ¬outcomes.Decide isAnd → outcomes.Fail →
    ∃ first, error = some first ∧ .error first ∈ outcomes
  null : ¬outcomes.Decide isAnd → ¬outcomes.Fail → .ok none ∈ outcomes → error = none ∧ value = none
  otherwise : ¬outcomes.Decide isAnd → ¬outcomes.Fail → .ok none ∉ outcomes →
    error = none ∧ value = some isAnd

/-- A selected row on the way: the deciding value decides it, and before that it stays active with
the first of its errors. -/
structure Kept (isAnd : Bool) (outcomes : Outcomes ε) (cell : Cell) (error : Option ε) : Prop where
  decided : outcomes.Decide isAnd → cell = ⟨!isAnd, true, false⟩
  undecided : ¬outcomes.Decide isAnd → cell.active = true
  failed : ¬outcomes.Decide isAnd → outcomes.Fail →
    ∃ first, error = some first ∧ .error first ∈ outcomes
  clear : ¬outcomes.Decide isAnd → ¬outcomes.Fail →
    error = none ∧ cell.resultValue = isAnd ∧ (cell.resultPresent = false ↔ .ok none ∈ outcomes)

variable {isAnd : Bool} {row : Fin n} {outcomes : Outcomes ε} {cell : Cell} {error : Option ε}

theorem Kept.ofDeciding (deciding : outcomes.Decide isAnd) : Kept isAnd outcomes ⟨!isAnd, true, false⟩ error :=
  ⟨fun _ => rfl, absurd deciding, absurd deciding, absurd deciding⟩

namespace Kept
variable (holds : Kept isAnd outcomes cell error)
include holds

theorem append (inactive : cell.active = false) (others : Outcomes ε) : Kept isAnd (outcomes ++ others) cell error := by
  have deciding : outcomes.Decide isAnd := by
    by_contra undecided
    simp [holds.undecided undecided] at inactive
  rw [holds.decided deciding]
  exact .ofDeciding (List.mem_append_left others deciding)

theorem notDecided (active : cell.active = true) : ¬outcomes.Decide isAnd := by
  intro deciding
  simp [holds.decided deciding] at active

theorem takes {value : Option Bool} {after : Cell} (active : cell.active = true)
    (taken : cell.Takes isAnd value after) : Kept isAnd (outcomes ++ [.ok value]) after error := by
  have undecided := holds.notDecided active
  have failures : Outcomes.Fail (outcomes ++ [.ok value]) ↔ outcomes.Fail := by simp [Outcomes.Fail]
  have failed : Outcomes.Fail (outcomes ++ [.ok value]) →
      ∃ first, error = some first ∧ .error first ∈ outcomes ++ [.ok value] := by
    simpa [Outcomes.Fail] using holds.failed undecided
  cases value with
  | none =>
    obtain ⟨same, still, null⟩ := taken
    refine ⟨by simp [undecided], fun _ => still, fun _ => failed, fun _ clean => ?_⟩
    obtain ⟨noError, value, -⟩ := holds.clear undecided (mt failures.2 clean)
    exact ⟨noError, same.trans value, by simp [null value]⟩
  | some test =>
    by_cases neutral : test = isAnd
    · subst neutral
      rw [Cell.Takes, if_pos rfl] at taken
      refine ⟨by simp [undecided], fun _ => taken ▸ active, fun _ => failed, fun _ clean => ?_⟩
      simpa [taken] using holds.clear undecided (mt failures.2 clean)
    · rw [Cell.Takes, if_neg neutral] at taken
      rw [taken, Bool.eq_not_of_ne neutral]
      exact .ofDeciding (by simp)

theorem fails {after : Cell} (active : cell.active = true) (failure : ε) (still : after.active = true) :
    Kept isAnd (outcomes ++ [.error failure]) after (error.or (some failure)) := by
  have undecided := holds.notDecided active
  refine ⟨by simp [undecided], fun _ => still, fun _ _ => ?_, fun _ clean => ?_⟩
  · by_cases earlier : outcomes.Fail
    · obtain ⟨first, kept, mem⟩ := holds.failed undecided earlier
      exact ⟨first, by simp [kept], List.mem_append_left _ mem⟩
    · exact ⟨failure, by simp [(holds.clear undecided earlier).1], by simp⟩
  · exact absurd ⟨failure, by simp⟩ clean

theorem follows {others : Outcomes ε} (same : outcomes.Perm others) :
    Follows isAnd others (if cell.resultPresent then some cell.resultValue else none)
      (if !cell.active then none else error) := by
  obtain ⟨decided, undecided, failed, clear⟩ := holds
  simp only [Outcomes.Fail, same.mem_iff] at decided undecided failed clear
  refine ⟨fun deciding => ?_, fun neutral => ?_, fun neutral clean null => ?_,
    fun neutral clean noNull => ?_⟩
  · simp [decided deciding]
  · simpa [undecided neutral] using failed neutral
  · obtain ⟨noError, -, absent⟩ := clear neutral clean
    simp [noError, absent.2 null]
  · obtain ⟨noError, value, absent⟩ := clear neutral clean
    simp [noError, value, Bool.of_not_eq_false (mt absent.1 noNull)]

end Kept

end

section

variable {ε : Type} (isAnd : Bool) {row : Fin n} {outcomes : Outcomes ε} {cells : Fin n → Cell}
  (errors : ErrorVector ε n)

theorem evalInput_inactive (input : Input ε n) (inactive : (cells row).active = false) :
    (evalInput isAnd input cells errors).1 row = cells row ∧
      (evalInput isAnd input cells errors).2 row = errors row := by
  have noError := input.untouched (fun row => (cells row).active) row inactive
  simp [evalInput, updateResult, updateCell_inactive inactive, rowsWithError, addErrors, noError]

variable {isAnd errors} {cell : Cell} {error : Option ε}

theorem Kept.step (input : Input ε n) (holds : Kept isAnd outcomes (cells row) (errors row)) :
    Kept isAnd (outcomes ++ [input.outcome row]) ((evalInput isAnd input cells errors).1 row)
      ((evalInput isAnd input cells errors).2 row) := by
  cases active : (cells row).active with
  | false =>
    obtain ⟨same, sameError⟩ := evalInput_inactive isAnd errors input active
    rw [same, sameError]
    exact holds.append active [input.outcome row]
  | true =>
    have law := input.evaluates (fun row => (cells row).active) row active
    cases outcome : input.outcome row with
    | ok value =>
      rw [outcome] at law
      have taken := updateResult_takes isAnd (input.eval fun row => (cells row).active).1 active
      rw [law.2] at taken
      simpa [evalInput, rowsWithError, addErrors, law.1] using holds.takes active taken
    | error failure =>
      rw [outcome] at law
      have still : ((evalInput isAnd input cells errors).1 row).active = true := by
        simp [evalInput, rowsWithError, active, law]
      simpa [evalInput, addErrors, law] using holds.fails active failure still

theorem evalInputs_kept (inputs : List (Input ε n)) (holds : Kept isAnd outcomes (cells row) (errors row)) :
    let final := evalInputs isAnd inputs cells errors
    Kept isAnd (outcomes ++ inputs.map (·.outcome row)) (final.1 row) (final.2 row) := by
  induction inputs generalizing outcomes cells errors with
  | nil => simpa [evalInputs] using holds
  | cons input inputs ih =>
    have next := holds.step input
    rw [evalInputs, List.map_cons, List.append_cons]
    dsimp only
    split
    case isTrue none => exact next.append (none row) _
    case isFalse => exact ih next

theorem evalInputs_inactive (isAnd : Bool) (inputs : List (Input ε n)) (errors : ErrorVector ε n)
    (inactive : cell.active = false) (same : cells row = cell) (kept : errors row = error) :
    let final := evalInputs isAnd inputs cells errors
    final.1 row = cell ∧ final.2 row = error := by
  induction inputs generalizing cells errors with
  | nil => exact ⟨same, kept⟩
  | cons input inputs ih =>
    subst same kept
    have next := evalInput_inactive isAnd errors input inactive
    rw [evalInputs]
    dsimp only
    split
    case isTrue => exact next
    case isFalse => exact ih _ next.1 next.2

/-- In every order of the inputs, each selected row gets the value of its outcomes, and the other
rows keep what they had. -/
theorem conjunct_follows (isAnd : Bool) (inputs ordered : List (Input ε n))
    (reordered : ordered.Perm inputs) (rows : Bits n) (before : Written ε n)
    (clean : ∀ row, rows row = true → before.errors row = none) (row : Fin n) :
    let after := evalSpecialForm isAnd ordered rows before
    (rows row = true →
      Follows isAnd (inputs.map (·.outcome row)) (after.valueAt row) (after.errors row)) ∧
    (rows row = false → after.values row = before.values row ∧
      after.nulls row = before.nulls row ∧ after.errors row = before.errors row) := by
  refine ⟨fun selected => ?_, fun unselected => ?_⟩
  · have start : Kept isAnd [] (initialCells isAnd rows before row) (before.errors row) := by
      constructor <;> cases isAnd <;> simp [initialCells, selected, clean row selected]
    have same := reordered.map fun input => input.outcome row
    have holds := (evalInputs_kept ordered start).follows same
    simp only [evalSpecialForm, finalizeErrors, selected, Bool.true_and]
    exact holds
  · have same : initialCells isAnd rows before row =
        ⟨before.values row, before.nulls row, false⟩ := by
      cases isAnd <;> simp [initialCells, unselected]
    obtain ⟨kept, noError⟩ := evalInputs_inactive isAnd ordered before.errors rfl same rfl
    simp [evalSpecialForm, finalizeErrors, unselected, kept, noError]

end

def failing : Input Nat 1 where
  outcome _ := .error 7
  eval rows := (.constant none, fun row => if rows row then some 7 else none)
  evaluates _ _ selected := if_pos selected
  untouched _ _ unselected := if_neg (ne_true_of_eq_false unselected)

def refusing : Input Nat 1 where
  outcome _ := .ok (some false)
  eval _ := (.constant (some false), fun _ => none)
  evaluates _ _ _ := ⟨rfl, rfl⟩
  untouched _ _ _ := rfl

/-- A false input hides the error of the one before it. -/
theorem refusing_follows :
    let before : Written Nat 1 := ⟨fun _ => true, fun _ => false, fun _ => none⟩
    (evalSpecialForm true [failing, refusing] (fun _ => true) before).errors 0 = none := by
  intro before
  have follows := conjunct_follows true [refusing, failing] [failing, refusing] (.swap _ _ _)
    (fun _ => true) before (fun _ _ => rfl) 0
  exact ((follows.1 rfl).decided (by simp [refusing])).1

end CactusDB.Expression.ConjunctExpr
