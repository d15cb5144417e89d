import CactusDB.Cost.SimpleCostModel
import CactusDB.Core.SqlText
import Mathlib.Algebra.Field.Rat

/-! Which calls of an expression the cost model finds. The printed text is split at the opening
parentheses, so that a call is found where its name stands alone between two of them or at the
beginning: at the root, and as the first input of another call. -/

namespace CactusDB.Cost.ChargedCalls
open Std Library TextScan Fallible Core.Expressions Core.Plan Optimizer Resources CataLogMaps List TypedExpr
open Core.SqlText SimpleCostModel

variable {K : Type}

def chargedFunctions (functions : Registry K) :
    List Text → Except Failure (List (Text × (Int → Int → CostEstimate K)))
  | [] => .ok []
  | udf :: rest => do
    let mark ← charge functions udf
    let later ← chargedFunctions functions rest
    return (mark.map (Prod.mk udf)).toList ++ later

def costsFrom [Field K] (estimate : CostEstimate K) : List (Text × (Int → Int → CostEstimate K)) → List K
  | [] => []
  | charged :: rest =>
    (charged.2 estimate.outputRows estimate.outputCols).cost :: costsFrom (estimate.add charged.2) rest

mutual
/-- The calls whose names stand at the beginning of the text or right behind a parenthesis. `leads` says
whether the expression itself does. -/
def leading : Bool → TypedExpr → List Text
  | leads, .call name inputs => (if leads then [name] else []) ++ leadingOf true inputs
  | _, .cast _ _ input => leading false input
  | _, .lambda _ body => leading false body
  | _, _ => []
def leadingOf : Bool → List TypedExpr → List Text
  | _, [] => []
  | leads, input :: rest => leading leads input ++ leadingOf false rest
end

mutual
def trailing : Bool → TypedExpr → List Text
  | leads, .call name inputs => (if leads then [] else [name]) ++ trailingOf true inputs
  | _, .cast _ _ input => trailing false input
  | _, .lambda _ body => trailing false body
  | _, _ => []
def trailingOf : Bool → List TypedExpr → List Text
  | _, [] => []
  | leads, input :: rest => trailing leads input ++ trailingOf false rest
end

mutual
def calls : TypedExpr → List Text
  | .call name inputs => name :: callsOf inputs
  | .cast _ _ input => calls input
  | .lambda _ body => calls body
  | _ => []
def callsOf : List TypedExpr → List Text
  | [] => []
  | input :: rest => calls input ++ callsOf rest
end

mutual
theorem calls_perm : ∀ (leads : Bool) (expr : TypedExpr), (calls expr).Perm (leading leads expr ++ trailing leads expr)
  | leads, .call name inputs => by
    have inner := callsOf_perm true inputs
    cases leads with
    | true => simpa [calls, leading, trailing] using inner
    | false =>
      simp only [calls, leading, trailing, Bool.false_eq_true, if_false, nil_append]
      exact (inner.cons name).trans perm_middle.symm
  | leads, .cast _ _ input => by simpa [calls, leading, trailing] using calls_perm false input
  | leads, .lambda _ body => by simpa [calls, leading, trailing] using calls_perm false body
  | leads, .field _ => by simp [calls, leading, trailing]
  | leads, .argument _ => by simp [calls, leading, trailing]
  | leads, .constant _ => by simp [calls, leading, trailing]
theorem callsOf_perm : ∀ (leads : Bool) (inputs : List TypedExpr),
    (callsOf inputs).Perm (leadingOf leads inputs ++ trailingOf leads inputs)
  | leads, [] => by simp [callsOf, leadingOf, trailingOf]
  | leads, input :: rest => by
    have first := calls_perm leads input
    have later := callsOf_perm false rest
    simp only [callsOf, leadingOf, trailingOf]
    refine (first.append later).trans ?_
    simp only [append_assoc]
    refine List.Perm.append_left _ ?_
    exact (perm_append_comm_assoc _ _ _)
end

section

mutual
/-- Parentheses are opened by calls only, and the names of calls are words. -/
def opensCalls : TypedExpr → Bool
  | .field name => !name.contains '('
  | .argument name => !name.contains '('
  | .constant value => !value.toJson.contains '('
  | .call name inputs => isWord name && allOpenCalls inputs
  | .cast _ _ input => opensCalls input
  | .lambda signature body => !(signatureText signature).contains '(' && opensCalls body
def allOpenCalls : List TypedExpr → Bool
  | [] => true
  | input :: rest => opensCalls input && allOpenCalls rest
end

theorem split_append (token front back : Text) : split '(' token (front ++ back) =
      ((split '(' token front).1 ++ (split '(' (split '(' token front).2 back).1,
        (split '(' (split '(' token front).2 back).2) := by
  induction front generalizing token with
  | nil => simp [split]
  | cons c front ih =>
    simp only [cons_append, split]
    split <;> simp [ih]

variable {text : Text}

theorem split_free (token : Text) (free : '(' ∉ text) : split '(' token text = ([], token ++ text) := by
  induction text generalizing token with
  | nil => simp [split]
  | cons c text ih =>
    have other : c ≠ '(' := fun same => free (by simp [same])
    simp [split, other, ih (token ++ [c]) fun mem => free (by simp [mem])]

def Marked (text : Text) : Prop := ∃ c ∈ text, isNameChar c = false

section

variable (marked : Marked text)
include marked

theorem Marked.append_left (more : Text) : Marked (text ++ more) := by
  obtain ⟨c, mem, special⟩ := marked
  exact ⟨c, mem_append_left more mem, special⟩

theorem Marked.append_right (front : Text) : Marked (front ++ text) := by
  obtain ⟨c, mem, special⟩ := marked
  exact ⟨c, mem_append_right front mem, special⟩

theorem Marked.not_word : isWord text = false := by
  obtain ⟨c, mem, special⟩ := marked
  cases word : isWord text with
  | false => rfl
  | true => exact absurd mem (not_mem_of_isWord word special)

theorem Marked.isEmpty : text.isEmpty = false := by
  obtain ⟨c, mem, _⟩ := marked
  cases text with
  | nil => cases mem
  | cons _ _ => rfl

end

def Fresh (token : Text) : Prop := token = [] ∨ Marked token

theorem toString_argument (name : Text) : (argument name).toString = quoted name := rfl

theorem toString_constant (value : Variant) : (constant value).toString = value.toJson := rfl

theorem toString_cast (nullOnFailure : Bool) (type : SqlType) (input : TypedExpr) :
    (cast nullOnFailure type input).toString =
      (if nullOnFailure then "try_cast ".toList else "cast ".toList) ++ input.toString ++ " as ".toList ++
        type.toString := rfl

theorem free_type (type : SqlType) : '(' ∉ type.toString := by
  induction type with
  | array element ih =>
    have front : '(' ∉ "ARRAY<".toList := by decide
    have back : '(' ∉ ">".toList := by decide
    intro mem
    rcases mem_append.mp mem with before | last
    · exact (mem_append.mp before).elim front ih
    · exact back last
  | _ => decide

theorem scan_between {mark : Text} (free : '(' ∉ mark) (marked : Marked mark) (token rest : Text) :
    ∃ middle, Marked middle ∧ split '(' token (mark ++ rest) = split '(' middle rest := by
  refine ⟨token ++ mark, marked.append_right token, ?_⟩
  rw [split_append, split_free token free]
  simp

mutual
theorem scan_toString : ∀ (expr : TypedExpr), opensCalls expr = true → ∀ {token : Text}, Fresh token →
    (split '(' token expr.toString).1.filter isWord = leading token.isEmpty expr
  | .field name, quiet, token, _ => by
    have free : '(' ∉ "ROW[".toList ++ quoted name ++ [']'] := by
      simpa using not_mem_quoted (by decide) (by simpa [opensCalls] using quiet)
    rw [toString_field, split_free token free]
    rfl
  | .argument name, quiet, token, _ => by
    rw [toString_argument, split_free token (not_mem_quoted (by decide) (by simpa [opensCalls] using quiet))]
    rfl
  | .constant value, quiet, token, _ => by
    rw [toString_constant, split_free token (by simpa [opensCalls] using quiet)]
    rfl
  | .call name inputs, quiet, token, fresh => by
    rw [opensCalls, Bool.and_eq_true] at quiet
    have begins : Fresh [] := .inl rfl
    have inner := scan_listToString inputs quiet.2 begins
    have free := not_mem_of_isWord quiet.1 (c := '(') (by decide)
    have tokens : (split '(' token (call name inputs).toString).1 =
        (token ++ name) :: (split '(' [] (listToString inputs)).1 := by
      rw [toString_call, append_assoc, split_append, split_free token free]
      simp only [cons_append, split, if_true, split_append [] _ [')'], nil_append]
      simp
    rw [tokens, filter_cons, inner, leading]
    rcases fresh with rfl | marked
    · simp [quiet.1]
    · rw [(marked.append_left name).not_word, marked.isEmpty]
      simp
  | .cast nullOnFailure type input, quiet, token, _ => by
    let mark : Text := if nullOnFailure then "try_cast ".toList else "cast ".toList
    have front : '(' ∉ mark ∧ Marked mark := by
      cases nullOnFailure with
      | true | false => exact ⟨by decide, ' ', by decide, by decide⟩
    have text : (cast nullOnFailure type input).toString =
        mark ++ (input.toString ++ (" as ".toList ++ type.toString)) := by
      rw [toString_cast, append_assoc, append_assoc]
    obtain ⟨middle, between, same⟩ :=
      scan_between front.1 front.2 token (input.toString ++ (" as ".toList ++ type.toString))
    have back : '(' ∉ " as ".toList ++ type.toString := fun mem =>
      (mem_append.mp mem).elim (by decide) (free_type type)
    rw [text, same, split_append, split_free _ back, append_nil,
      scan_toString input (by simpa [opensCalls] using quiet) (.inr between), between.isEmpty, leading]
  | .lambda signature body, quiet, token, _ => by
    rw [opensCalls, Bool.and_eq_true] at quiet
    have text : (lambda signature body).toString =
        ("lambda ".toList ++ signatureText signature ++ " -> ".toList) ++ body.toString := rfl
    have free : '(' ∉ "lambda ".toList ++ signatureText signature ++ " -> ".toList := by
      intro mem
      rcases mem_append.mp mem with before | last
      · exact (mem_append.mp before).elim (by decide) (by simpa using quiet.1)
      · exact absurd last (by decide)
    have marked : Marked ("lambda ".toList ++ signatureText signature ++ " -> ".toList) :=
      Marked.append_right ⟨' ', by decide, by decide⟩ _
    obtain ⟨middle, between, same⟩ := scan_between free marked token body.toString
    rw [text, same, scan_toString body quiet.2 (.inr between), between.isEmpty, leading]
theorem scan_listToString : ∀ (inputs : List TypedExpr), allOpenCalls inputs = true → ∀ {token : Text}, Fresh token →
    (split '(' token (listToString inputs)).1.filter isWord = leadingOf token.isEmpty inputs
  | [], _, token, _ => rfl
  | [input], quiet, token, fresh => by
    rw [allOpenCalls, Bool.and_eq_true] at quiet
    rw [listToString_singleton, scan_toString input quiet.1 fresh, leadingOf, leadingOf, append_nil]
  | input :: second :: rest, quiet, token, fresh => by
    rw [allOpenCalls, Bool.and_eq_true] at quiet
    have here := scan_toString input quiet.1 fresh
    have comma : Marked [','] := ⟨',', by decide, by decide⟩
    obtain ⟨middle, between, same⟩ := scan_between (by decide) comma
      (split '(' token input.toString).2 (listToString (second :: rest))
    have later := scan_listToString (second :: rest) quiet.2 (.inr between)
    have text : listToString (input :: second :: rest) =
        input.toString ++ ([','] ++ listToString (second :: rest)) := by
      simp [listToString]
    rw [text, split_append, same, filter_append, here, later, between.isEmpty]
    rfl
end

def Closed (text : Text) : Prop := text.getLast? ≠ some '('

theorem closed_of_free (free : '(' ∉ text) : Closed text :=
  fun last => free (mem_of_getLast? last)

theorem Closed.append {front back : Text} (first : Closed front) (second : Closed back) : Closed (front ++ back) := by
  unfold Closed at *
  rw [getLast?_append]
  cases found : back.getLast? with
  | none => simpa using first
  | some c => simpa [found] using second

theorem closed_concat (front : Text) {c : Char} (other : c ≠ '(') : Closed (front ++ [c]) := by
  simp [Closed, other]

theorem closed_toString : ∀ (expr : TypedExpr), opensCalls expr = true → Closed expr.toString
  | .field name, _ => closed_concat _ (by decide)
  | .argument name, _ => closed_concat _ (by decide)
  | .constant value, quiet => by
    rw [toString_constant]
    exact closed_of_free (by simpa [opensCalls] using quiet)
  | .call name inputs, _ => closed_concat _ (by decide)
  | .cast nullOnFailure type input, quiet => by
    rw [toString_cast, append_assoc]
    have back : '(' ∉ " as ".toList ++ type.toString := fun mem =>
      (mem_append.mp mem).elim (by decide) (free_type type)
    refine Closed.append (Closed.append (closed_of_free ?_) (closed_toString input (by simpa [opensCalls] using quiet)))
      (closed_of_free back)
    cases nullOnFailure <;> decide
  | .lambda signature body, quiet => by
    rw [opensCalls, Bool.and_eq_true] at quiet
    exact Closed.append (Closed.append (Closed.append (closed_of_free (by decide))
      (closed_of_free (by simpa using quiet.1))) (closed_of_free (by decide))) (closed_toString body quiet.2)

theorem split_rest (token text : Text) (closed : Closed text) (empty : (split '(' token text).2 = []) :
    text = [] := by
  induction text generalizing token with
  | nil => rfl
  | cons c text ih =>
    have rest : Closed text := by
      intro last
      exact closed (by simp [getLast?_cons, last])
    simp only [split] at empty
    split at empty
    · next open_ =>
        have none := ih [] rest empty
        subst none
        exact absurd (by simp [open_]) closed
    · have none := ih (token ++ [c]) rest empty
      subst none
      simp [split] at empty

/-- The words among the tokens are the names of the leading calls. -/
theorem getUDFs_toString {expr : TypedExpr} (quiet : opensCalls expr = true) :
    (getUDFs expr.toString).filter isWord = leading true expr := by
  have closed := closed_toString expr quiet
  have tokens : getUDFs expr.toString = (split '(' [] expr.toString).1 := by
    unfold getUDFs getlines
    by_cases empty : (split '(' [] expr.toString).2 = []
    · rw [split_rest [] _ closed empty]
      rfl
    · simp [empty]
  rw [tokens, scan_toString expr quiet (.inl rfl)]
  rfl

end

section

variable (functions : Registry K)

/-- Names are registered in lower case, and they are words. -/
def Named : Prop := ∀ name ∈ functions, isWord name = true ∧ sanitizeName name = name

def HasCost (name : Text) : Prop :=
  ∃ registration, functions[sanitizeName name]? = some registration ∧ registration.getCost.isSome

def Chargeable (name : Text) : Prop :=
  (HasCost functions name → ∃ getCost, charge functions name = .ok (some getCost)) ∧
    (¬HasCost functions name → charge functions name = .ok none)

structure Covered (expr : TypedExpr) : Prop where
  leading : ∀ name ∈ leading true expr, Chargeable functions name
  trailing : ∀ name ∈ trailing true expr, ¬HasCost functions name

open Classical in
noncomputable def costed (expr : TypedExpr) : List Text := (calls expr).filter fun name => HasCost functions name

def chargedCalls (expr : TypedExpr) : Except Failure (List Text) :=
  (chargedFunctions functions (getUDFs expr.toString).reverse).map fun charged => charged.map Prod.fst

variable {functions} {getCost : Int → Int → CostEstimate K}

theorem charge_ok_some {name : Text} (charged : charge functions name = .ok (some getCost)) :
    ∃ registration, functions[name]? = some registration ∧ registration.getCost = some getCost := by
  unfold charge at charged
  split at charged
  · simp at charged
  · next registration found =>
      refine ⟨registration, found, ?_⟩
      split at charged
      · simp at charged
      · split at charged
        · next stored resolved =>
            have same : stored = getCost := by simpa using charged
            simp only [Registration.resolve, Option.ite_none_right_eq_some] at resolved
            rw [resolved.2, same]
        · simp at charged

theorem hasCost_of_charge (named : Named functions) {name : Text}
    (charged : charge functions name = .ok (some getCost)) : HasCost functions name := by
  obtain ⟨registration, found, stored⟩ := charge_ok_some charged
  have mem := ExtTreeMap.isSome_getElem?_iff_mem.mp (by rw [found]; rfl)
  refine ⟨registration, ?_, by rw [stored]; rfl⟩
  rw [(named name mem).2, found]

theorem charge_of_not_word (named : Named functions) {token : Text} (other : isWord token = false) :
    charge functions token = .ok none := by
  have missing : functions[token]? = none := by
    apply ExtTreeMap.getElem?_eq_none
    intro mem
    rw [(named token mem).1] at other
    cases other
  simp [charge, missing]

def isCharged (functions : Registry K) (udf : Text) : Bool :=
  match charge functions udf with
  | .ok (some _) => true
  | _ => false

/-- Nothing fails, and it is the tokens with a cost function that are counted. -/
theorem chargedNames_eq_ok_iff (udfs : List Text) (names : List Text) :
    (chargedFunctions functions udfs).map (fun charged => charged.map Prod.fst) = .ok names ↔
      (∀ udf ∈ udfs, ∃ mark, charge functions udf = .ok mark) ∧ names = udfs.filter (isCharged functions) := by
  induction udfs generalizing names with
  | nil => simp [chargedFunctions, Except.map, eq_comm]
  | cons udf rest ih =>
    rw [chargedFunctions, filter_cons, forall_mem_cons]
    cases mark : charge functions udf with
    | error failure => simp [bind, Except.bind, Except.map]
    | ok found =>
      have step : ∀ later, isCharged functions udf = found.isSome ∧
          ((found.map (Prod.mk udf)).toList ++ later).map Prod.fst =
            (if isCharged functions udf then [udf] else []) ++ later.map Prod.fst := by
        intro later
        cases found <;> simp [isCharged, mark]
      cases done : chargedFunctions functions rest with
      | error failure =>
        have fails : ¬∀ other ∈ rest, ∃ mark, charge functions other = .ok mark := fun all => by
          have none := (ih (rest.filter (isCharged functions))).mpr ⟨all, rfl⟩
          simp [done, Except.map] at none
        simp [bind, Except.bind, Except.map, fails]
      | ok later =>
        obtain ⟨all, names'⟩ := (ih (later.map Prod.fst)).mp (by rw [done]; rfl)
        simp only [bind, Except.bind, Except.map, pure, Except.pure, (step later).2, names']
        cases isCharged functions udf <;> simp [eq_comm (b := names)] <;> exact fun _ => all

variable (named : Named functions) {expr : TypedExpr} (quiet : opensCalls expr = true)
include named quiet

/-- Of the tokens only the leading calls matter. -/
theorem chargedCalls_ok_iff (names : List Text) :
    chargedCalls functions expr = .ok names ↔
      (∀ name ∈ leading true expr, ∃ mark, charge functions name = .ok mark) ∧
        names = ((leading true expr).filter (isCharged functions)).reverse := by
  have words : ∀ token, isWord token = false → charge functions token = .ok none :=
    fun token => charge_of_not_word named
  rw [chargedCalls, chargedNames_eq_ok_iff, filter_reverse]
  have charged : (getUDFs expr.toString).filter (isCharged functions) =
      (leading true expr).filter (isCharged functions) := by
    rw [← getUDFs_toString quiet, filter_filter]
    refine filter_congr fun token _ => ?_
    cases word : isWord token with
    | true => simp
    | false => simp [isCharged, words token word]
  have fine : (∀ udf ∈ (getUDFs expr.toString).reverse, ∃ mark, charge functions udf = .ok mark) ↔
      ∀ name ∈ leading true expr, ∃ mark, charge functions name = .ok mark := by
    rw [← getUDFs_toString quiet]
    constructor
    · intro all name mem
      exact all name (mem_reverse.mpr (mem_filter.mp mem).1)
    · intro all token mem
      cases word : isWord token with
      | true => exact all token (mem_filter.mpr ⟨mem_reverse.mp mem, word⟩)
      | false => exact ⟨none, words token word⟩
  rw [fine, charged]

/-- The charged calls are those with a cost exactly when every leading call is treated rightly and no
other call has a cost. -/
theorem charged_perm_iff :
    (∃ charged, chargedCalls functions expr = .ok charged ∧ charged.Perm (costed functions expr)) ↔
      Covered functions expr := by
  classical
  have both : (costed functions expr).Perm
      ((leading true expr).filter (fun name => HasCost functions name) ++
        (trailing true expr).filter fun name => HasCost functions name) := by
    rw [← filter_append]
    exact (calls_perm true expr).filter _
  have only : ∀ name, isCharged functions name = true → HasCost functions name := by
    intro name charged
    unfold isCharged at charged
    split at charged
    · next found => exact hasCost_of_charge named found
    · cases charged
  simp only [chargedCalls_ok_iff named quiet]
  constructor
  · rintro ⟨charged, ⟨fine, rfl⟩, same⟩
    -- fewer than the leading calls with a cost are charged, so that no room is left for other calls
    have sub : ((leading true expr).filter (isCharged functions)).Sublist
        ((leading true expr).filter fun name => HasCost functions name) :=
      monotone_filter_right _ fun name charged => decide_eq_true (only name charged)
    have length := (same.trans both).length_eq
    rw [length_reverse, length_append] at length
    have fewer := sub.length_le
    have all := sub.eq_of_length (by omega)
    have none : ((trailing true expr).filter fun name => HasCost functions name) = [] :=
      length_eq_zero_iff.mp (by omega)
    refine ⟨fun name mem => ?_, fun name mem cost => ?_⟩
    · obtain ⟨mark, found⟩ := fine name mem
      refine ⟨fun cost => ?_, fun free => ?_⟩
      · have charged : name ∈ (leading true expr).filter (isCharged functions) := by
          rw [all]
          exact mem_filter.mpr ⟨mem, decide_eq_true cost⟩
        have marked := (mem_filter.mp charged).2
        cases mark with
        | none => simp [isCharged, found] at marked
        | some getCost => exact ⟨getCost, found⟩
      · cases mark with
        | none => exact found
        | some getCost => exact absurd (hasCost_of_charge named found) free
    · have there : name ∈ (trailing true expr).filter fun name => HasCost functions name :=
        mem_filter.mpr ⟨mem, decide_eq_true cost⟩
      rw [none] at there
      cases there
  · intro covered
    have treated : ∀ name ∈ leading true expr,
        (∃ mark, charge functions name = .ok mark) ∧ isCharged functions name = decide (HasCost functions name) := by
      intro name mem
      have chargeable := covered.leading name mem
      by_cases cost : HasCost functions name
      · obtain ⟨getCost, found⟩ := chargeable.1 cost
        exact ⟨⟨some getCost, found⟩, by simp [isCharged, found, cost]⟩
      · have found := chargeable.2 cost
        exact ⟨⟨none, found⟩, by simp [isCharged, found, cost]⟩
    refine ⟨_, ⟨fun name mem => (treated name mem).1, rfl⟩, ?_⟩
    have none : ((trailing true expr).filter fun name => HasCost functions name) = [] := by
      simpa using covered.trailing
    rw [none, append_nil] at both
    rw [filter_congr fun name mem => (treated name mem).2]
    exact (reverse_perm _).trans both.symm

end

section

variable [Field K]

/-- The cost of a projection is the sum of what its charged functions cost, each of them once. -/
theorem getUDFCost_eq (functions : Registry K) (udfs : List Text) (sources : List Source) :
    getUDFCost functions udfs sources = (do
      let stat ← statOf sources 0
      let charged ← chargedFunctions functions udfs
      return charged.foldl (fun estimate mark => estimate.add mark.2) ⟨0, stat.numRows, stat.numCols⟩) := by
  unfold getUDFCost
  cases statOf sources 0 with
  | error failure => rfl
  | ok stat =>
    change udfs.foldlM _ _ = (chargedFunctions functions udfs >>= _)
    generalize (⟨0, stat.numRows, stat.numCols⟩ : CostEstimate K) = estimate
    induction udfs generalizing estimate with
    | nil => rfl
    | cons udf rest ih =>
      rw [foldlM_cons, chargedFunctions]
      cases charge functions udf with
      | error failure => rfl
      | ok mark =>
        cases mark with
        | none =>
          refine Eq.trans (ih estimate) ?_
          cases chargedFunctions functions rest <;> rfl
        | some getCost =>
          refine Eq.trans (ih (estimate.add getCost)) ?_
          cases chargedFunctions functions rest <;> rfl

variable (charged : List (Text × (Int → Int → CostEstimate K))) (estimate : CostEstimate K)

theorem foldl_add_cost :
    (charged.foldl (fun estimate mark => estimate.add mark.2) estimate).cost =
      estimate.cost + (costsFrom estimate charged).sum := by
  induction charged generalizing estimate with
  | nil => simp [costsFrom]
  | cons mark rest ih =>
    rw [foldl_cons, ih, costsFrom, sum_cons, ← add_assoc]
    rfl

theorem length_costsFrom : (costsFrom estimate charged).length = charged.length := by
  induction charged generalizing estimate with
  | nil => rfl
  | cons mark rest ih => simp [costsFrom, ih]

/-- Where parentheses are opened by calls only, the charged calls are those with a cost exactly under the
condition on their places. A projection always costs the sum of its charges, and a plan the sum of what
its nodes are charged. -/
theorem cost_covers_calls_iff (model : CostModel K) (named : Named model.functions) :
    (∀ expr, opensCalls expr = true →
      ((∃ charged, chargedCalls model.functions expr = .ok charged ∧
          charged.Perm (costed model.functions expr)) ↔ Covered model.functions expr)) ∧
    (∀ expr sources estimate, handleProjection model.functions expr sources = .ok estimate →
      ∃ stat charged, statOf sources 0 = .ok stat ∧
        chargedFunctions model.functions (getUDFs expr.toString).reverse = .ok charged ∧
        (costsFrom ⟨0, stat.numRows, stat.numCols⟩ charged).length = charged.length ∧
        estimate.cost = (costsFrom ⟨0, stat.numRows, stat.numCols⟩ charged).sum) ∧
    ∀ plan, (model.estimateCost plan).map CostEstimate.cost =
      ((CostModel.subplans plan).mapM model.nodeCharge).map List.sum := by
  refine ⟨fun expr quiet => charged_perm_iff named quiet, fun expr sources estimate done => ?_,
    model.estimateCost_sums⟩
  rw [handleProjection, getUDFCost_eq] at done
  obtain ⟨stat, found, done⟩ := exists_of_bind_ok done
  obtain ⟨charged, marks, done⟩ := exists_of_bind_ok done
  refine ⟨stat, charged, found, marks, length_costsFrom charged _, ?_⟩
  rw [← Except.ok.inj done, foldl_add_cost, zero_add]

end

def sampleFunctions : Registry Rat :=
  let entry : Registration Rat := ⟨some fun rows cols => ⟨rows * cols, rows, cols⟩, true, false⟩
  ((∅ : Registry Rat).insert "relu0".toList entry).insert "relu1".toList entry

theorem sampleFunctions_named : Named sampleFunctions := by
  intro name mem
  rcases ExtTreeMap.mem_insert.mp mem with same | mem
  · rw [← LawfulEqCmp.compare_eq_iff_eq.mp same]
    decide +kernel
  · rcases ExtTreeMap.mem_insert.mp mem with same | mem
    · rw [← LawfulEqCmp.compare_eq_iff_eq.mp same]
      decide +kernel
    · exact absurd mem ExtTreeMap.not_mem_empty

theorem hasCost_iff (functions : Registry K) (name : Text) :
    HasCost functions name ↔ (functions[sanitizeName name]?.bind Registration.getCost).isSome = true := by
  unfold HasCost
  cases functions[sanitizeName name]? <;> simp

theorem chargeable_of_isCharged {functions : Registry K} (named : Named functions) {name : Text}
    (charged : isCharged functions name = true) : Chargeable functions name := by
  unfold isCharged at charged
  split at charged
  · next getCost found => exact ⟨fun _ => ⟨getCost, found⟩, fun free => absurd (hasCost_of_charge named found) free⟩
  · cases charged

/-- The second input of a call is not found, although it has a cost. -/
theorem second_input_not_charged :
    let expr : TypedExpr := .call "plus".toList
      [.call "relu0".toList [.field "x".toList], .call "relu1".toList [.field "y".toList]]
    chargedCalls sampleFunctions expr = .ok ["relu0".toList] ∧ HasCost sampleFunctions "relu1".toList ∧
      calls expr = ["plus".toList, "relu0".toList, "relu1".toList] ∧
      ¬∃ charged, chargedCalls sampleFunctions expr = .ok charged ∧ charged.Perm (costed sampleFunctions expr) := by
  intro expr
  have cost : HasCost sampleFunctions "relu1".toList := (hasCost_iff _ _).mpr (by decide +kernel)
  refine ⟨by decide +kernel, cost, by decide +kernel, ?_⟩
  rw [charged_perm_iff sampleFunctions_named (by decide +kernel)]
  exact fun covered => covered.trailing "relu1".toList (by decide +kernel) cost

/-- Calls along the first inputs are all charged. -/
theorem nested_calls_charged : let model : CostModel Rat := ⟨{}, sampleFunctions, ∅, Rat.floor⟩
    let expr : TypedExpr := .call "relu1".toList [.call "relu0".toList [.field "x".toList]]
    ∃ charged, chargedCalls model.functions expr = .ok charged ∧ charged.Perm (costed model.functions expr) := by
  intro model expr
  have leads : ∀ name ∈ leading true expr, isCharged sampleFunctions name = true := by decide +kernel
  have others : trailing true expr = [] := by decide +kernel
  refine ((cost_covers_calls_iff model sampleFunctions_named).1 expr (by decide +kernel)).mpr ⟨?_, ?_⟩
  · exact fun name mem => chargeable_of_isCharged sampleFunctions_named (leads name mem)
  · intro name mem
    rw [others] at mem
    cases mem

end CactusDB.Cost.ChargedCalls
