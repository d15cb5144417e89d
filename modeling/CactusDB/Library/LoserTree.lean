import Mathlib.Data.Set.Basic
import Mathlib.Tactic.Common

/-! A tournament over the leaves of a binary tree that lies in an array. Each inner node keeps the loser of its match,
so that only one path is played again when the winner is replaced. -/

namespace CactusDB.Library.LoserTree

section

def parent (node : Nat) : Nat := (node - 1) / 2
def leftChild (node : Nat) : Nat := node * 2 + 1
def rightChild (node : Nat) : Nat := node * 2 + 2

inductive Below (top : Nat) : Nat → Prop where
  | self : Below top top
  | child {node : Nat} (positive : 0 < node) (above : Below top (parent node)) : Below top node

theorem below_root (node : Nat) : Below 0 node := by
  induction node using Nat.strongRecOn with
  | ind node ih =>
    cases node with
    | zero => exact .self
    | succ before =>
      apply Below.child (Nat.succ_pos before)
      apply ih
      unfold parent
      omega

variable {node second first : Nat}

theorem le_of_below {top : Nat} (below : Below top node) : top ≤ node := by
  induction below with
  | self => exact Nat.le_refl top
  | child positive _ ih =>
    unfold parent at ih
    omega

def Siblings (node first second : Nat) : Prop :=
  (first = leftChild node ∧ second = rightChild node) ∨ (first = rightChild node ∧ second = leftChild node)

section

variable (siblings : Siblings node first second)
include siblings

theorem Siblings.swap : Siblings node second first := by
  unfold Siblings at *
  omega

theorem Siblings.parent_first : parent first = node := by
  unfold Siblings leftChild rightChild at siblings
  unfold parent
  omega

theorem Siblings.lt_first : node < first := by
  unfold Siblings leftChild rightChild at siblings
  omega

end

theorem below_trans {top middle : Nat} (upper : Below top middle) (lower : Below middle node) : Below top node := by
  induction lower with
  | self => exact upper
  | child positive _ ih => exact .child positive ih

variable {other : Nat}

theorem below_of_first (siblings : Siblings node first second) (below : Below first other) : Below node other := by
  have step : Below node first := by
    apply Below.child (Nat.lt_of_le_of_lt (Nat.zero_le node) siblings.lt_first)
    rw [siblings.parent_first]
    exact .self
  exact below_trans step below

theorem below_cases (siblings : Siblings node first second)
    (below : Below node other) : other = node ∨ Below first other ∨ Below second other := by
  induction below with
  | self => exact .inl rfl
  | @child other positive _ ih =>
    rcases ih with top | left | right
    · have place : other = first ∨ other = second := by
        unfold Siblings leftChild rightChild at siblings
        unfold parent at top
        omega
      rcases place with rfl | rfl
      · exact .inr (.inl .self)
      · exact .inr (.inr .self)
    · exact .inr (.inl (.child positive left))
    · exact .inr (.inr (.child positive right))

/-- The nodes above a node are on one path. -/
theorem below_chain (left : Below first node) (right : Below second node) :
    Below first second ∨ Below second first := by
  induction left with
  | self => exact .inr right
  | child positive above ih =>
    cases right with
    | self => exact .inl (.child positive above)
    | child _ other => exact ih other

theorem not_below_second (siblings : Siblings node first second) (below : Below first other) : ¬Below second other := by
  -- A child is not below its sibling, since their parent is smaller than both.
  have apart {first second : Nat} (siblings : Siblings node first second) : ¬Below first second := by
    intro lower
    cases lower with
    | self =>
      unfold Siblings leftChild rightChild at siblings
      omega
    | child _ above =>
      have low := le_of_below above
      rw [siblings.swap.parent_first] at low
      exact absurd siblings.lt_first (Nat.not_lt.mpr low)
  intro both
  rcases below_chain below both with lower | lower
  · exact apart siblings lower
  · exact apart siblings.swap lower

end

section

variable {ε : Type}

def meet (play : ε → ε → ε × ε) (node : Nat) (left right : Option ε) (values : List (Option ε)) :
    Option ε × List (Option ε) :=
  match left, right with
  | none, right => (right, values)
  | left, none => (left, values)
  | some left, some right => (some (play left right).1, values.set node (some (play left right).2))

def first (inner : Nat) (entrant : Nat → Option ε) (play : ε → ε → ε × ε) (node : Nat) (values : List (Option ε)) :
    Option ε × List (Option ε) :=
  if node < inner then
    let left := first inner entrant play (leftChild node) values
    let right := first inner entrant play (rightChild node) left.2
    meet play node left.1 right.1 right.2
  else (entrant (node - inner), values)
termination_by inner - node
decreasing_by
  · unfold leftChild
    omega
  · unfold rightChild
    omega

def held (values : List (Option ε)) (node : Nat) : Option ε := values.getD node none

def skip (values : List (Option ε)) (node : Nat) : Option Nat :=
  if (held values node).isNone then
    if node = 0 then none else skip values (parent node)
  else some node
termination_by node
decreasing_by
  unfold parent
  omega

def visit (replay : ε → ε → ε × ε) (node : Nat) (value : Option ε) (values : List (Option ε)) :
    Option ε × List (Option ε) :=
  match held values node, value with
  | none, value => (value, values)
  | some entry, none => (some entry, values.set node none)
  | some entry, some value => (some (replay entry value).1, values.set node (some (replay entry value).2))

def climb (replay : ε → ε → ε × ε) (node : Nat) (value : Option ε) (values : List (Option ε)) :
    Option ε × List (Option ε) :=
  let next := visit replay node value values
  if node = 0 then next else climb replay (parent node) next.1 next.2
termination_by node
decreasing_by
  unfold parent
  omega

section

variable (replay : ε → ε → ε × ε) (node : Nat) (value : Option ε) (values : List (Option ε))

def propagate :
    Option ε × List (Option ε) :=
  match skip values node with
  | none => (value, values)
  | some node => climb replay node value values

def rise :
    Option ε × List (Option ε) :=
  if node = 0 then (value, values) else climb replay (parent node) value values

end

variable (replay : ε → ε → ε × ε)

theorem climb_eq_rise (node : Nat) (value : Option ε) (values : List (Option ε)) :
    climb replay node value values =
      rise replay node (visit replay node value values).1 (visit replay node value values).2 := by
  rw [climb]
  rfl

variable {values : List (Option ε)}

theorem visit_of_empty {node : Nat} (empty : held values node = none)
    (replay : ε → ε → ε × ε) (value : Option ε) : visit replay node value values = (value, values) := by
  unfold visit
  rw [empty]

/-- Nodes without an entry may be passed over. -/
theorem propagate_eq_climb (node : Nat) (value : Option ε) (values : List (Option ε)) :
    propagate replay node value values = climb replay node value values := by
  unfold propagate
  induction node using Nat.strongRecOn with
  | ind node ih =>
    rw [skip]
    by_cases empty : held values node = none
    · have same := visit_of_empty empty replay value
      rw [climb, same, if_pos (by simp [empty])]
      by_cases root : node = 0
      · simp only [if_pos root]
      · simp only [if_neg root]
        apply ih
        unfold parent
        omega
    · rw [if_neg (by simpa [Option.isNone_iff_eq_none] using empty)]

theorem held_set_self {node : Nat} (inside : node < values.length) (value : Option ε) :
    held (values.set node value) node = value := by
  simp [held, List.getD_eq_getElem?_getD, inside]

theorem held_set_of_ne {node other : Nat} (different : other ≠ node) (value : Option ε) :
    held (values.set node value) other = held values other := by
  simp [held, List.getD_eq_getElem?_getD, List.getElem?_set_ne different.symm]

end

section

variable {ε : Type}

/-- A match sends the winner up and keeps the loser. `beats one other up` says that the first of two entries wins and
goes up as `up`. -/
def Fair (beats : ε → ε → ε → Prop) (play : ε → ε → ε × ε) : Prop :=
  ∀ one other, ((play one other).2 = other ∧ beats one other (play one other).1) ∨
    ((play one other).2 = one ∧ beats other one (play one other).1)

variable (inner : Nat) (entrant : Nat → Option ε) (beats : ε → ε → ε → Prop) (values : List (Option ε))

inductive Settled : Nat → Option ε → Prop where
  | leaf {node : Nat} (low : inner ≤ node) : Settled node (entrant (node - inner))
  | alone {node one other : Nat} {winner : Option ε} (high : node < inner) (siblings : Siblings node one other)
      (won : Settled one winner) (absent : Settled other none) (empty : held values node = none) : Settled node winner
  | played {node one other : Nat} {winner loser up : ε} (high : node < inner) (siblings : Siblings node one other)
      (won : Settled one (some winner)) (lost : Settled other (some loser)) (kept : held values node = some loser)
      (better : beats winner loser up) : Settled node (some up)

variable {inner entrant beats values}

variable {winner : Option ε} {node : Nat}

theorem settled_congr {otherEntrant : Nat → Option ε} {otherValues : List (Option ε)}
    (settled : Settled inner entrant beats values node winner)
    (sameValues : ∀ place, Below node place → held otherValues place = held values place)
    (sameEntrants : ∀ stream, Below node (inner + stream) → otherEntrant stream = entrant stream) :
    Settled inner otherEntrant beats otherValues node winner := by
  induction settled with
  | @leaf node low =>
    rw [← sameEntrants (node - inner) (by rw [Nat.add_sub_cancel' low]; exact .self)]
    exact .leaf low
  | alone high siblings _ _ empty hypOne hypOther =>
    refine .alone high siblings ?_ ?_ ((sameValues _ .self).trans empty)
    · exact hypOne (fun place below => sameValues place (below_of_first siblings below))
        (fun stream below => sameEntrants stream (below_of_first siblings below))
    · exact hypOther (fun place below => sameValues place (below_of_first siblings.swap below))
        (fun stream below => sameEntrants stream (below_of_first siblings.swap below))
  | played high siblings _ _ kept better hypOne hypOther =>
    refine .played high siblings ?_ ?_ ((sameValues _ .self).trans kept) better
    · exact hypOne (fun place below => sameValues place (below_of_first siblings below))
        (fun stream below => sameEntrants stream (below_of_first siblings below))
    · exact hypOther (fun place below => sameValues place (below_of_first siblings.swap below))
        (fun stream below => sameEntrants stream (below_of_first siblings.swap below))

theorem settled_set {one other : Nat} (siblings : Siblings node one other)
    (settled : Settled inner entrant beats values one winner) (value : Option ε) :
    Settled inner entrant beats (values.set node value) one winner := by
  refine settled_congr settled (fun place below => held_set_of_ne ?_ value) (fun _ _ => rfl)
  exact Nat.ne_of_gt (Nat.lt_of_lt_of_le siblings.lt_first (le_of_below below))

/-- Without a winner no node of the subtree holds an entry. -/
theorem held_of_settled_none (settled : Settled inner entrant beats values node winner)
    (nobody : winner = none) : ∀ place, Below node place → place < inner → held values place = none := by
  induction settled with
  | leaf low =>
    intro place below high
    exact absurd (le_of_below below) (Nat.not_le.mpr (Nat.lt_of_lt_of_le high low))
  | alone high siblings _ _ empty hypOne hypOther =>
    intro place below inside
    rcases below_cases siblings below with rfl | left | right
    · exact empty
    · exact hypOne nobody place left inside
    · exact hypOther rfl place right inside
  | played => cases nobody

structure Plays (inner : Nat) (entrant : Nat → Option ε) (beats : ε → ε → ε → Prop) (node : Nat)
  (values : List (Option ε)) (result : Option ε × List (Option ε)) : Prop where
  settled : Settled inner entrant beats result.2 node result.1
  length : result.2.length = values.length
  outside : ∀ place, ¬Below node place → held result.2 place = held values place

variable {play : ε → ε → ε × ε}

theorem not_below_child {child sibling place : Nat} (siblings : Siblings node child sibling)
    (away : place = node ∨ ¬Below node place) : ¬Below child place := by
  intro below
  rcases away with rfl | away
  · exact absurd (le_of_below below) (Nat.not_le.mpr siblings.lt_first)
  · exact away (below_of_first siblings below)

theorem held_set_outside {place : Nat} (outside : ¬Below node place) (value : Option ε) :
    held (values.set node value) place = held values place := by
  refine held_set_of_ne ?_ value
  rintro rfl
  exact outside .self

theorem settled_match (fair : Fair beats play) {left right : Nat} {one other : ε} (high : node < inner)
    (inside : node < values.length) (siblings : Siblings node left right)
    (leftSettled : Settled inner entrant beats values left (some one))
    (rightSettled : Settled inner entrant beats values right (some other)) :
    Settled inner entrant beats (values.set node (some (play one other).2)) node (some (play one other).1) := by
  have kept := held_set_self inside (some (play one other).2)
  have leftStays := settled_set siblings leftSettled (some (play one other).2)
  have rightStays := settled_set siblings.swap rightSettled (some (play one other).2)
  rcases fair one other with ⟨stays, better⟩ | ⟨stays, better⟩
  · exact .played high siblings leftStays rightStays (kept.trans (congrArg some stays)) better
  · exact .played high siblings.swap rightStays leftStays (kept.trans (congrArg some stays)) better

/-- The match of a node after those of its children. -/
theorem plays_meet (fair : Fair beats play)
    {left right : Option ε × List (Option ε)} (high : node < inner) (long : inner ≤ values.length)
    (empty : held values node = none) (one : Plays inner entrant beats (leftChild node) values left)
    (other : Plays inner entrant beats (rightChild node) left.2 right) :
    Plays inner entrant beats node values (meet play node left.1 right.1 right.2) := by
  have siblings : Siblings node (leftChild node) (rightChild node) := .inl ⟨rfl, rfl⟩
  have length : right.2.length = values.length := other.length.trans one.length
  have outside (place : Nat) (away : place = node ∨ ¬Below node place) : held right.2 place = held values place :=
    (other.outside place (not_below_child siblings.swap away)).trans (one.outside place (not_below_child siblings away))
  have free : held right.2 node = none := (outside node (.inl rfl)).trans empty
  have leftSettled : Settled inner entrant beats right.2 (leftChild node) left.1 :=
    settled_congr one.settled (fun place below => other.outside place (not_below_second siblings below))
      (fun _ _ => rfl)
  have rightSettled := other.settled
  generalize left.1 = leftWinner at leftSettled ⊢
  generalize right.1 = rightWinner at rightSettled ⊢
  cases leftWinner with
  | none => exact ⟨.alone high siblings.swap rightSettled leftSettled free, length, fun place away =>
      outside place (.inr away)⟩
  | some leftWinner =>
    cases rightWinner with
    | none => exact ⟨.alone high siblings leftSettled rightSettled free, length, fun place away =>
        outside place (.inr away)⟩
    | some rightWinner =>
      refine ⟨?_, (List.length_set ..).trans length, fun place away => ?_⟩
      · exact settled_match fair high (Nat.lt_of_lt_of_le high (length ▸ long)) siblings leftSettled rightSettled
      · exact (held_set_outside away _).trans (outside place (.inr away))

theorem first_plays (fair : Fair beats play)
    (empty : ∀ place, Below node place → held values place = none) (long : inner ≤ values.length) :
    Plays inner entrant beats node values (first inner entrant play node values) := by
  fun_induction first inner entrant play node values with
  | case1 node values high left right hypLeft hypRight =>
    have siblings : Siblings node (leftChild node) (rightChild node) := .inl ⟨rfl, rfl⟩
    have one := hypLeft (fun place below => empty place (below_of_first siblings below)) long
    have other := hypRight (fun place below => ?_) (one.length ▸ long)
    · exact plays_meet fair high long (empty node .self) one other
    · rw [one.outside place (not_below_second siblings.swap below)]
      exact empty place (below_of_first siblings.swap below)
  | case2 node values low => exact ⟨.leaf (Nat.not_lt.mp low), rfl, fun _ _ => rfl⟩

variable {replay : ε → ε → ε × ε}

/-- The match of a node after one of its children has got a new winner. The node holds the winner of the other one. -/
theorem plays_visit (fair : Fair beats replay) {one other : Nat}
    {result : Option ε × List (Option ε)} (high : node < inner) (long : inner ≤ values.length)
    (siblings : Siblings node one other) (again : Plays inner entrant beats one values result)
    (settled : Settled inner entrant beats values other (held values node)) :
    Plays inner entrant beats node values (visit replay node result.1 result.2) := by
  have same (place : Nat) (outside : ¬Below node place) : held result.2 place = held values place :=
    again.outside place (not_below_child siblings (.inr outside))
  have keeps : held result.2 node = held values node := again.outside node (not_below_child siblings (.inl rfl))
  have inside : node < result.2.length := Nat.lt_of_lt_of_le high (again.length ▸ long)
  have otherSettled : Settled inner entrant beats result.2 other (held values node) :=
    settled_congr settled (fun place below => again.outside place (not_below_second siblings.swap below))
      (fun _ _ => rfl)
  have oneSettled := again.settled
  have setOutside (value : Option ε) (place : Nat) (outside : ¬Below node place) :
      held (result.2.set node value) place = held values place :=
    (held_set_outside outside value).trans (same place outside)
  unfold visit
  rw [keeps]
  generalize held values node = holder at keeps otherSettled ⊢
  generalize result.1 = winner at oneSettled ⊢
  cases holder with
  | none => exact ⟨.alone high siblings oneSettled otherSettled keeps, again.length, same⟩
  | some holder =>
    cases winner with
    | none =>
      refine ⟨?_, (List.length_set ..).trans again.length, setOutside none⟩
      exact .alone high siblings.swap (settled_set siblings.swap otherSettled none)
        (settled_set siblings oneSettled none) (held_set_self inside none)
    | some winner =>
      refine ⟨?_, (List.length_set ..).trans again.length, setOutside _⟩
      exact settled_match fair high inside siblings.swap otherSettled oneSettled

variable {stream : ε → Nat} {otherEntrant : Nat → Option ε} {otherBeats : ε → ε → ε → Prop}

variable {winner : Option ε}

section

variable (own : ∀ place entry, entrant place = some entry → stream entry = place)
include own

variable (ups : ∀ one other up, beats one other up → stream up = stream one)
include ups

/-- The winner of a subtree comes from one of its leaves. -/
theorem below_winner {node : Nat}
    (settled : Settled inner entrant beats values node winner) {up : ε} (won : winner = some up) :
    Below node (inner + stream up) := by
  induction settled generalizing up with
  | @leaf node low =>
    rw [own _ _ won, Nat.add_sub_cancel' low]
    exact .self
  | alone _ siblings _ _ _ hypOne _ => exact below_of_first siblings (hypOne won)
  | played _ siblings _ _ _ better hypOne _ =>
    cases won
    rw [ups _ _ _ better]
    exact below_of_first siblings (hypOne rfl)

/-- Only matches between entries of the subtree count. -/
theorem settled_of_beats {node : Nat} (settled : Settled inner entrant beats values node winner)
    (same : ∀ one other up, Below node (inner + stream one) → Below node (inner + stream other) →
      beats one other up → otherBeats one other up) : Settled inner entrant otherBeats values node winner := by
  induction settled with
  | leaf low => exact .leaf low
  | alone high siblings _ _ empty hypOne hypOther =>
    refine .alone high siblings (hypOne fun one other up left right => ?_)
      (hypOther fun one other up left right => ?_) empty
    · exact same one other up (below_of_first siblings left) (below_of_first siblings right)
    · exact same one other up (below_of_first siblings.swap left) (below_of_first siblings.swap right)
  | played high siblings won lost kept better hypOne hypOther =>
    refine .played high siblings (hypOne fun one other up left right => ?_) (hypOther fun one other up left right => ?_)
      kept (same _ _ _ ?_ ?_ better)
    · exact same one other up (below_of_first siblings left) (below_of_first siblings right)
    · exact same one other up (below_of_first siblings.swap left) (below_of_first siblings.swap right)
    · exact below_of_first siblings (below_winner own ups won rfl)
    · exact below_of_first siblings.swap (below_winner own ups lost rfl)

end

structure Replaced (stream : ε → Nat) (entrant otherEntrant : Nat → Option ε) (beats otherBeats : ε → ε → ε → Prop)
    (place : Nat) : Prop where
  entrants : ∀ other, other ≠ place → otherEntrant other = entrant other
  matched : ∀ one other up, stream one ≠ place → stream other ≠ place → beats one other up → otherBeats one other up

variable (fair : Fair otherBeats replay) (long : inner ≤ values.length) (own : ∀ place entry,
  entrant place = some entry → stream entry = place) (ups : ∀ one other up, beats one other up → stream up = stream one)
include fair long own ups

/-- The way up from the leaf of the last winner plays all matches again that it had won. -/
theorem rise_plays {top : Nat}
    (settled : Settled inner entrant beats values top winner) {up : ε} (won : winner = some up)
    (replaced : Replaced stream entrant otherEntrant beats otherBeats (stream up)) :
    ∃ result, Plays inner otherEntrant otherBeats top values result ∧
      rise replay (inner + stream up) (otherEntrant (stream up)) values = rise replay top result.1 result.2 := by
  -- The child that had the winner has been settled anew; then the node is.
  have step {node one other place : Nat} {winner : Option ε} (high : node < inner) (siblings : Siblings node one other)
      (below : Below one (inner + place)) (settled : Settled inner entrant beats values other winner)
      (kept : held values node = winner) (replaced : Replaced stream entrant otherEntrant beats otherBeats place)
      (known : ∃ result, Plays inner otherEntrant otherBeats one values result ∧
        rise replay (inner + place) (otherEntrant place) values = rise replay one result.1 result.2) :
      ∃ result, Plays inner otherEntrant otherBeats node values result ∧
        rise replay (inner + place) (otherEntrant place) values = rise replay node result.1 result.2 := by
    obtain ⟨result, again, path⟩ := known
    have away {leaf : Nat} (lower : Below other (inner + leaf)) : leaf ≠ place := by
      rintro rfl
      exact not_below_second siblings below lower
    have sibling : Settled inner otherEntrant otherBeats values other (held values node) := by
      rw [kept]
      refine settled_congr (settled_of_beats own ups settled fun first second up left right better => ?_)
        (fun _ _ => rfl) fun leaf lower => replaced.entrants leaf (away lower)
      exact replaced.matched first second up (away left) (away right) better
    refine ⟨_, plays_visit fair high long siblings again sibling, ?_⟩
    have positive : one ≠ 0 := Nat.ne_of_gt (Nat.lt_of_le_of_lt (Nat.zero_le node) siblings.lt_first)
    have upward : rise replay one result.1 result.2 = climb replay node result.1 result.2 := by
      rw [rise, if_neg positive, siblings.parent_first]
    rw [path, upward, climb_eq_rise]
  induction settled generalizing up with
  | @leaf node low =>
    have place : inner + stream up = node := by
      rw [own _ _ won]
      omega
    rw [place]
    refine ⟨(otherEntrant (stream up), values), ⟨?_, rfl, fun _ _ => rfl⟩, rfl⟩
    rw [own _ _ won]
    exact .leaf low
  | alone high siblings child absent empty hypOne _ =>
    exact step high siblings (below_winner own ups child won) absent empty replaced (hypOne won replaced)
  | played high siblings child lost kept better hypOne _ =>
    cases won
    have same := ups _ _ _ better
    rw [same] at replaced ⊢
    exact step high siblings (below_winner own ups child rfl) lost kept replaced (hypOne rfl replaced)

/-- When the last winner is replaced, the way up from its leaf settles the whole tree. -/
theorem propagate_plays (several : 0 < inner) {up : ε}
    (settled : Settled inner entrant beats values 0 (some up))
    (replaced : Replaced stream entrant otherEntrant beats otherBeats (stream up)) :
    Plays inner otherEntrant otherBeats 0 values
      (propagate replay (parent (inner + stream up)) (otherEntrant (stream up)) values) := by
  obtain ⟨result, again, path⟩ := rise_plays fair long own ups settled rfl replaced
  rw [rise, if_neg (by omega)] at path
  rw [propagate_eq_climb, path]
  exact again

end

variable {ε : Type} {inner : Nat} {entrant : Nat → Option ε} {beats : ε → ε → ε → Prop} {values : List (Option ε)}

def leaves (inner node : Nat) : Set Nat := fun leaf => leaf ≤ inner ∧ Below node (inner + leaf)

theorem leaves_root (inner : Nat) {leaf : Nat} (small : leaf ≤ inner) : leaf ∈ leaves inner 0 :=
  ⟨small, below_root _⟩

variable {node : Nat} {one other : Nat}

theorem leaves_node (high : node < inner) (siblings : Siblings node one other) :
    leaves inner node = leaves inner one ∪ leaves inner other := by
  ext leaf
  constructor
  · rintro ⟨small, below⟩
    rcases below_cases siblings below with top | left | right
    · omega
    · exact .inl ⟨small, left⟩
    · exact .inr ⟨small, right⟩
  · rintro (⟨small, below⟩ | ⟨small, below⟩)
    · exact ⟨small, below_of_first siblings below⟩
    · exact ⟨small, below_of_first siblings.swap below⟩

theorem leaves_leaf (low : inner ≤ node) (bounded : node ≤ 2 * inner) : leaves inner node = {node - inner} := by
  ext leaf
  constructor
  · rintro ⟨small, below⟩
    show leaf = node - inner
    generalize place : inner + leaf = other at below
    cases below with
    | self => omega
    | child _ above =>
      have least := le_of_below above
      unfold parent at least
      omega
  · rintro rfl
    refine ⟨by omega, ?_⟩
    rw [Nat.add_sub_cancel' low]
    exact .self

theorem disjoint_leaves (siblings : Siblings node one other) {leaf : Nat}
    (mem : leaf ∈ leaves inner one) : leaf ∉ leaves inner other :=
  fun both => not_below_second siblings mem.2 both.2

theorem Siblings.first_le (siblings : Siblings node one other) (high : node < inner) : one ≤ 2 * inner := by
  unfold Siblings leftChild rightChild at siblings
  omega

variable {winner : Option ε} (bounded : node ≤ 2 * inner) (settled : Settled inner entrant beats values node winner)
include bounded settled

theorem entrant_of_settled_none (nobody : winner = none) :
    ∀ leaf ∈ leaves inner node, entrant leaf = none := by
  induction settled with
  | leaf low =>
    intro leaf mem
    rw [leaves_leaf low bounded] at mem
    have place : leaf = _ := mem
    rw [place, nobody]
  | alone high siblings _ _ _ hypOne hypOther =>
    intro leaf mem
    rw [leaves_node high siblings] at mem
    rcases mem with left | right
    · exact hypOne (siblings.first_le high) nobody leaf left
    · exact hypOther (siblings.swap.first_le high) rfl leaf right
  | played => cases nobody

/-- What holds of a single entrant and is kept by matches holds of the winner of a subtree. -/
theorem champion_of_settled {Champion : Set Nat → ε → Prop}
    (single : ∀ leaf entry, entrant leaf = some entry → Champion {leaf} entry)
    (alone : ∀ leaves others entry, Champion leaves entry → (∀ other ∈ others, entrant other = none) →
      Champion (leaves ∪ others) entry)
    (played : ∀ leaves others one other up, Champion leaves one → Champion others other →
      (∀ leaf ∈ leaves, leaf ∉ others) → beats one other up → Champion (leaves ∪ others) up)
    {up : ε} (won : winner = some up) : Champion (leaves inner node) up := by
  induction settled generalizing up with
  | leaf low =>
    rw [leaves_leaf low bounded]
    exact single _ up won
  | alone high siblings _ absent _ hypOne _ =>
    rw [leaves_node high siblings]
    exact alone _ _ up (hypOne (siblings.first_le high) won)
      (entrant_of_settled_none (siblings.swap.first_le high) absent rfl)
  | played high siblings _ _ _ better hypOne hypOther =>
    cases won
    rw [leaves_node high siblings]
    exact played _ _ _ _ _ (hypOne (siblings.first_le high) rfl) (hypOther (siblings.swap.first_le high) rfl)
      (fun leaf => disjoint_leaves siblings) better

end CactusDB.Library.LoserTree
