import CactusDB.Library.Buffer
import CactusDB.Library.Levels

/-! Halving and merging of ranges inside one buffer of items. -/

namespace CactusDB.Functions.KllBuffers

open Library Buffer Levels List

variable {α : Type} [Inhabited α]

def halveDown (buf : List α) (i j : Nat) : Nat → List α
  | 0 => buf
  | count + 1 => halveDown (buf.set i (buf.getD j default)) (i + 1) (j + 2) count

def randomlyHalveDown (buf : List α) (start length : Nat) (randomBit : Bool) : List α :=
  halveDown buf start (start + randomBit.toNat) (length / 2)

def halveUp (buf : List α) (i j : Nat) : Nat → List α
  | 0 => buf
  | count + 1 => halveUp (buf.set i (buf.getD j default)) (i - 1) (j - 2) count

def randomlyHalveUp (buf : List α) (start length : Nat) (randomBit : Bool) : List α :=
  halveUp buf (start + length - 1) (start + length - 1 - randomBit.toNat) (length / 2)

def mergeRounds (compare : α → α → Bool) (limA limB : Nat) (buf : List α) (a b c : Nat) : Nat → List α
  | 0 => buf
  | rounds + 1 =>
    if a < limA ∧ b < limB then
      if compare (buf.getD a default) (buf.getD b default) then
        mergeRounds compare limA limB (buf.set c (buf.getD a default)) (a + 1) b (c + 1) rounds
      else mergeRounds compare limA limB (buf.set c (buf.getD b default)) a (b + 1) (c + 1) rounds
    else if a < limA then
      mergeRounds compare limA limB (buf.set c (buf.getD a default)) (a + 1) b (c + 1) rounds
    else if b < limB then
      mergeRounds compare limA limB (buf.set c (buf.getD b default)) a (b + 1) (c + 1) rounds
    else buf

def mergeOverlap (compare : α → α → Bool) (buf : List α) (startA lenA startB lenB startC : Nat) : List α :=
  mergeRounds compare (startA + lenA) (startB + lenB) buf startA startB startC (lenA + lenB)

def compactRange (compare : α → α → Bool) (sort : List α → List α) (buf : List α) (adjBeg adjPop popAbove : Nat)
    (mustSort randomBit : Bool) : List α :=
  let buf := if mustSort then overwrite buf adjBeg (sort (slice buf adjBeg adjPop)) else buf
  if popAbove = 0 then randomlyHalveUp buf adjBeg adjPop randomBit
  else
    mergeOverlap compare (randomlyHalveDown buf adjBeg adjPop randomBit) adjBeg (adjPop / 2) (adjBeg + adjPop) popAbove
      (adjBeg + adjPop / 2)

variable {front rest : List α}

theorem getD_at {value : α} {index : Nat} (here : index = front.length) :
    (front ++ value :: rest).getD index default = value := by
  subst here
  simp

omit [Inhabited α] in
theorem set_at {old value : α} {index : Nat} (here : index = front.length) :
    (front ++ old :: rest).set index value = front ++ value :: rest := by
  subst here
  simp

omit [Inhabited α] in
theorem exists_head (middle rest : List α) (first other : α) :
    ∃ head tail, middle ++ first :: other :: rest = head :: (tail ++ rest) ∧ tail.length = middle.length + 1 := by
  cases middle with
  | nil => exact ⟨first, [other], rfl, rfl⟩
  | cons head tail => exact ⟨head, tail ++ [first, other], by simp, by simp⟩

variable {items : List α} {count : Nat}

/-- Between the items that are written and those to be read lie the places of items that were read. -/
theorem halveDown_spec (second : Bool) (even : items.length = 2 * count)
    (done middle post : List α) : ∃ junk, junk.length = middle.length + count ∧
      halveDown (done ++ (middle ++ (items ++ post))) done.length (done.length + middle.length + second.toNat) count =
        done ++ (half second items ++ (junk ++ post)) := by
  induction count generalizing items done middle with
  | zero =>
    have none := length_eq_zero_iff.mp even
    subst none
    exact ⟨middle, rfl, rfl⟩
  | succ count ih =>
    match items with
    | [] => simp at even
    | [_] => simp at even; omega
    | first :: other :: rest =>
      simp only [length_cons] at even
      let value := if second then other else first
      have read : (done ++ (middle ++ (first :: other :: rest ++ post))).getD
          (done.length + middle.length + second.toNat) default = value := by
        cases second with
        | false =>
          rw [← append_assoc]
          exact getD_at (by simp)
        | true =>
          have parts : done ++ (middle ++ (first :: other :: rest ++ post)) =
              (done ++ middle ++ [first]) ++ other :: (rest ++ post) := by simp
          rw [parts]
          exact getD_at (by simp [Nat.add_assoc])
      obtain ⟨head, tail, split, length⟩ := exists_head middle (rest ++ post) first other
      have written : (done ++ (middle ++ (first :: other :: rest ++ post))).set done.length value =
          (done ++ [value]) ++ (tail ++ (rest ++ post)) := by
        rw [cons_append, cons_append, split, set_at rfl]
        simp
      obtain ⟨junk, size, result⟩ := @ih rest (by omega) (done ++ [value]) tail
      refine ⟨junk, by omega, ?_⟩
      rw [halveDown, read, written]
      have next : (done ++ [value]).length + tail.length + second.toNat =
          done.length + middle.length + second.toNat + 2 := by
        rw [length_append, length]
        simp only [length_singleton]
        omega
      rw [next, length_append, length_singleton] at result
      rw [result, half]
      simp [value]

omit [Inhabited α] in
theorem exists_last (front middle : List α) (first other : α) :
    ∃ head last, front ++ [first, other] ++ middle = front ++ head ++ [last] ∧ head.length = middle.length + 1 := by
  rcases eq_nil_or_concat middle with rfl | ⟨head, last, rfl⟩
  · exact ⟨[first], other, by simp, rfl⟩
  · exact ⟨[first, other] ++ head, last, by simp, by simp⟩

omit [Inhabited α] in
theorem exists_last_two (enough : 2 ≤ items.length) : ∃ rest first other, items = rest ++ [first, other] := by
  rcases eq_nil_or_concat items with rfl | ⟨front, other, rfl⟩
  · simp at enough
  · rcases eq_nil_or_concat front with rfl | ⟨rest, first, rfl⟩
    · simp at enough
    · exact ⟨rest, first, other, by simp⟩

/-- Between the items to be read and those that are written lie the places of items that were read. -/
theorem halveUp_spec (second : Bool) (even : items.length = 2 * count)
    (pre middle done : List α) : ∃ junk, junk.length = middle.length + count ∧
      halveUp (pre ++ items ++ middle ++ done) (pre.length + items.length + middle.length - 1)
        (pre.length + items.length - 1 - second.toNat) count = pre ++ junk ++ (half (!second) items ++ done) := by
  induction count generalizing items middle done with
  | zero =>
    have none := length_eq_zero_iff.mp even
    subst none
    exact ⟨middle, rfl, by simp [halveUp, half]⟩
  | succ count ih =>
    have enough : 2 ≤ items.length := by omega
    obtain ⟨rest, first, other, rfl⟩ := exists_last_two enough
    have size : rest.length = 2 * count := by
      simp only [length_append, length_cons, length_nil] at even
      omega
    let value := if second then first else other
    have read : (pre ++ (rest ++ [first, other]) ++ middle ++ done).getD
        (pre.length + (rest ++ [first, other]).length - 1 - second.toNat) default = value := by
      cases second with
      | false =>
        have parts : pre ++ (rest ++ [first, other]) ++ middle ++ done =
            (pre ++ rest ++ [first]) ++ other :: (middle ++ done) := by simp
        rw [parts]
        exact getD_at (by simp)
      | true =>
        have parts : pre ++ (rest ++ [first, other]) ++ middle ++ done =
            (pre ++ rest) ++ first :: other :: (middle ++ done) := by simp
        rw [parts]
        exact getD_at (by simp)
    obtain ⟨head, last, split, length⟩ := exists_last (pre ++ rest) middle first other
    have written : (pre ++ (rest ++ [first, other]) ++ middle ++ done).set
        (pre.length + (rest ++ [first, other]).length + middle.length - 1) value =
          pre ++ rest ++ head ++ value :: done := by
      have parts : pre ++ (rest ++ [first, other]) ++ middle ++ done = (pre ++ rest ++ head) ++ last :: done := by
        rw [← append_assoc pre, split]
        simp
      rw [parts, set_at (by simp; omega)]
    obtain ⟨junk, junkSize, result⟩ := @ih rest size head (value :: done)
    refine ⟨junk, by omega, ?_⟩
    have place : pre.length + (rest ++ [first, other]).length + middle.length - 1 - 1 =
        pre.length + rest.length + head.length - 1 := by
      simp only [length_append, length_cons, length_nil]
      omega
    have next : pre.length + (rest ++ [first, other]).length - 1 - second.toNat - 2 =
        pre.length + rest.length - 1 - second.toNat := by
      simp only [length_append, length_cons, length_nil]
      omega
    rw [halveUp, read, written, place, next, result, half_append (by omega)]
    cases second <;> simp [half, value]

omit [Inhabited α] in
/-- An item is copied down over a gap, which stays as long as it was. -/
theorem set_down (pre gap post : List α) (item : α) : ∃ shifted, shifted.length = gap.length ∧
    (pre ++ (gap ++ item :: post)).set pre.length item = (pre ++ [item]) ++ (shifted ++ post) := by
  cases gap with
  | nil => exact ⟨[], rfl, by simp⟩
  | cons first gap => exact ⟨gap ++ [item], by simp, by simp⟩

variable (compare : α → α → Bool)

/-- The places behind the first range are as many as its items that are still to be merged. -/
theorem mergeRounds_spec {rounds a b c limA limB : Nat} {first second done out gap post : List α}
    (count : rounds = first.length + second.length) (room : gap.length = first.length) (atA : a = done.length)
    (endA : limA = a + first.length) (atC : c = limA + out.length) (atB : b = c + gap.length)
    (endB : limB = b + second.length) :
    mergeRounds compare limA limB (done ++ (first ++ (out ++ (gap ++ (second ++ post))))) a b c rounds =
      done ++ (first ++ (out ++ (List.merge first second compare ++ post))) := by
  induction rounds generalizing a b c first second done out gap with
  | zero =>
    have noFirst : first = [] := length_eq_zero_iff.mp (by omega)
    have noSecond : second = [] := length_eq_zero_iff.mp (by omega)
    have noGap : gap = [] := length_eq_zero_iff.mp (by omega)
    subst noFirst noSecond noGap
    simp [mergeRounds]
  | succ rounds ih =>
    generalize buffer : done ++ (first ++ (out ++ (gap ++ (second ++ post)))) = buf
    have readFirst {x : α} {rest : List α} (same : first = x :: rest) : buf.getD a default = x := by
      subst same buffer
      exact getD_at atA
    have readSecond {y : α} {rest : List α} (same : second = y :: rest) : buf.getD b default = y := by
      subst same
      have parts : buf = (done ++ first ++ out ++ gap) ++ y :: (rest ++ post) := by simp [← buffer]
      rw [parts]
      exact getD_at (by simp; omega)
    -- The next item of the second range is written, and its old place becomes the last one of the gap.
    have takeSecond {y : α} {rest : List α} (same : second = y :: rest) :
        mergeRounds compare limA limB (buf.set c y) a (b + 1) (c + 1) rounds =
          done ++ (first ++ (out ++ (y :: List.merge first rest compare ++ post))) := by
      subst same
      simp only [length_cons] at count endB
      have parts : buf = (done ++ first ++ out) ++ (gap ++ y :: (rest ++ post)) := by simp [← buffer]
      have place : c = (done ++ first ++ out).length := by simp; omega
      obtain ⟨later, size, written⟩ := set_down (done ++ first ++ out) gap (rest ++ post) y
      have shape : done ++ first ++ out ++ [y] ++ (later ++ (rest ++ post)) =
          done ++ (first ++ ((out ++ [y]) ++ (later ++ (rest ++ post)))) := by simp
      rw [parts, place, written, ← place, shape, ih (by omega) (size.trans room) atA endA (by simp; omega) (by omega)
        (by omega)]
      simp
    have takeFirst {x : α} {rest : List α} (same : first = x :: rest) :
        mergeRounds compare limA limB (buf.set c x) (a + 1) b (c + 1) rounds =
          done ++ (first ++ (out ++ (x :: List.merge rest second compare ++ post))) := by
      subst same
      simp only [length_cons] at count endA
      cases gap with
      | nil => simp at room
      | cons hole gap =>
        have parts : buf = (done ++ x :: rest ++ out) ++ hole :: (gap ++ (second ++ post)) := by simp [← buffer]
        have written : buf.set c x = (done ++ [x]) ++ (rest ++ ((out ++ [x]) ++ (gap ++ (second ++ post)))) := by
          rw [parts, set_at (by simp; omega)]
          simp
        rw [written, ih (by omega) (by simpa using room) (by simp; omega) (by omega)
          (by simp; omega) (by simp at atB ⊢; omega) endB]
        simp
    rw [mergeRounds]
    cases first with
    | nil =>
      cases second with
      | nil => simp at count
      | cons y second =>
        simp only [length_nil, length_cons] at endA endB
        rw [if_neg (by omega), if_neg (by omega), if_pos (by omega), readSecond rfl, takeSecond rfl]
        simp
    | cons x first =>
      cases second with
      | nil =>
        simp only [length_nil, length_cons] at endA endB
        rw [if_neg (by omega), if_pos (by omega), readFirst rfl, takeFirst rfl]
        simp
      | cons y second =>
        simp only [length_cons] at endA endB
        rw [if_pos (by omega), readFirst rfl, readSecond rfl, cons_merge_cons]
        split
        · exact takeFirst rfl
        · exact takeSecond rfl

theorem mergeOverlap_spec (pre first gap second post : List α) (room : gap.length = first.length) :
    mergeOverlap compare (pre ++ (first ++ (gap ++ (second ++ post)))) pre.length first.length
        (pre.length + first.length + gap.length) second.length (pre.length + first.length) =
      pre ++ (first ++ (List.merge first second compare ++ post)) := by
  change mergeRounds compare _ _ (pre ++ (first ++ ([] ++ (gap ++ (second ++ post))))) _ _ _ _ =
    pre ++ (first ++ ([] ++ (_ ++ post)))
  exact mergeRounds_spec compare rfl room rfl rfl rfl rfl rfl

omit [Inhabited α] in
theorem overwrite_middle {pre items post values : List α} (same : values.length = items.length) :
    overwrite (pre ++ (items ++ post)) pre.length values = pre ++ (values ++ post) := by
  simp [overwrite, same]

/-- What remains of the range are as many places as it loses items. -/
theorem compactRange_spec {sort : List α → List α} (sorts : ∀ items, (sort items).Perm items)
    (pre above post : List α) (even : items.length = 2 * count) (mustSort randomBit : Bool) :
    ∃ junk second, junk.length = count ∧ (half second (if mustSort then sort items else items)).length = count ∧
      compactRange compare sort (pre ++ (items ++
        (above ++ post))) pre.length items.length above.length mustSort randomBit =
        pre ++ (junk ++ (List.merge (half second (if mustSort then sort items else items)) above compare ++ post)) := by
  have sorted : (if mustSort then overwrite (pre ++ (items ++ (above ++ post))) pre.length
        (sort (slice (pre ++ (items ++ (above ++ post))) pre.length items.length))
      else pre ++ (items ++ (above ++ post))) =
        pre ++ ((if mustSort then sort items else items) ++ (above ++ post)) := by
    cases mustSort with
    | false => rfl
    | true =>
      simp only [if_true]
      rw [slice_at rfl rfl, overwrite_middle (sorts items).length_eq]
  have length : (if mustSort then sort items else items).length = items.length := by
    cases mustSort with
    | false => rfl
    | true => exact (sorts items).length_eq
  have halves : items.length / 2 = count := by omega
  have kept : ∀ second, (half second (if mustSort then sort items else items)).length = count := by
    intro second
    rw [length_half, length, halves]
  unfold compactRange
  dsimp only
  rw [sorted]
  generalize (if mustSort then sort items else items) = list at length kept
  split_ifs with none
  · have nothing : above = [] := length_eq_zero_iff.mp none
    subst nothing
    obtain ⟨junk, size, result⟩ := halveUp_spec randomBit (length.trans even) pre [] post
    refine ⟨junk, !randomBit, by simpa using size, kept _, ?_⟩
    unfold randomlyHalveUp
    rw [halves, ← length]
    simpa using result
  · obtain ⟨junk, size, result⟩ := halveDown_spec randomBit (length.trans even) pre [] (above ++ post)
    simp only [length_nil, Nat.add_zero, Nat.zero_add, nil_append] at size result
    refine ⟨half randomBit list, randomBit, kept randomBit, kept randomBit, ?_⟩
    unfold randomlyHalveDown
    rw [halves, result]
    have merged := mergeOverlap_spec compare pre (half randomBit list) junk above post
      (size.trans (kept randomBit).symm)
    rw [kept, size] at merged
    have place : pre.length + items.length = pre.length + count + count := by omega
    rw [place]
    exact merged

end CactusDB.Functions.KllBuffers
