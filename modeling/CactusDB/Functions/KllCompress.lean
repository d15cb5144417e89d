import CactusDB.Functions.KllCompact

/-! The compression of merged levels: a loop that goes up the levels and compacts the full ones. -/

namespace CactusDB.Functions.KllSketch

open Library Buffer Levels KllBuffers List

variable {α : Type} [Inhabited α] {traits : KllTraits α} {k : Nat} {zeroSorted : Bool} {values : List α}

section

omit [Inhabited α]

/-- The offsets of the levels that are still to come. -/
theorem getD_window {front slack : List Nat} {start index : Nat} {levels : List (List α)}
    (bound : index ≤ levels.length) : (front ++ (offsets start levels ++ slack)).getD (front.length + index) 0 =
      start + (levels.take index).flatten.length := by
  rw [getD_append_right _ _ _ _ (Nat.le_add_right ..), Nat.add_sub_cancel_left,
    getD_append _ _ _ _ (by rw [length_offsets]; omega), getD_offsets bound]

theorem getD_offsets_end (done : List (List α)) (slack : List Nat) :
    (offsets 0 done ++ slack).getD done.length 0 = done.flatten.length := by
  rw [getD_append _ _ _ _ (by simp), getD_offsets (Nat.le_refl _), take_length, Nat.zero_add]

theorem set_offsets {done : List (List α)} {slack : List Nat} (room : slack ≠ []) (level : List α) :
    (offsets 0 done ++ slack).set (done.length + 1) (done.flatten.length + level.length) =
      offsets 0 (done ++ [level]) ++ slack.tail := by
  obtain ⟨first, rest, rfl⟩ := exists_cons_of_ne_nil room
  rw [set_at (length_offsets ..).symm]
  simp [offsets, starts_concat]

end

section

structure Underway (traits : KllTraits α) (k : Nat) (zeroSorted : Bool) (state : Compression α) (done : List (List α))
    (junk : List α) (levels : List (List α)) (values : List α) : Prop where
  items : state.items = done.flatten ++ (junk ++ levels.flatten)
  inLevels : ∃ front slack, front.length = done.length ∧
    state.inLevels = front ++ (offsets (done.flatten.length + junk.length) levels ++ slack)
  outLevels : ∃ slack, state.outLevels = offsets 0 done ++ slack
  wide : state.outLevels.length = state.inLevels.length
  numLevels : state.currentNumLevels = done.length + levels.length
  count : state.currentItemCount = done.flatten.length + levels.flatten.length
  target : state.targetItemCount = total traits k state.currentNumLevels
  tower : Tower traits zeroSorted (done ++ levels) values
  /-- As soon as the items fit, they fit to the end. -/
  fits : state.currentItemCount < state.targetItemCount ∨
    done.flatten.length + total traits k levels.length ≤ total traits k state.currentNumLevels

variable {state : Compression α} {done : List (List α)} {junk level upper : List α} {above : List (List α)}

omit [Inhabited α] in
structure Window (state : Compression α) (done : List (List α)) (junk : List α) (levels : List (List α))
    (front slack out : List Nat) : Prop where
  place : front.length = done.length
  inLevels : state.inLevels = front ++ (offsets (done.flatten.length + junk.length) levels ++ slack)
  outLevels : state.outLevels = offsets 0 done ++ out
  room : out ≠ []

section

omit [Inhabited α]

variable {levels : List (List α)} {front slack out : List Nat}

section

variable (window : Window state done junk levels front slack out)
include window

theorem Window.inAt {index : Nat} (bound : index ≤ levels.length) :
    state.inLevels.getD (done.length + index) 0 =
      done.flatten.length + junk.length + (levels.take index).flatten.length := by
  rw [window.inLevels, ← window.place]
  exact getD_window bound

theorem Window.outAt : state.outLevels.getD done.length 0 = done.flatten.length := by
  rw [window.outLevels, getD_offsets_end]

theorem Window.rawBeg :
    state.inLevels.getD done.length 0 = done.flatten.length + junk.length := window.inAt (Nat.zero_le _)

end

theorem Window.rawLim (window : Window state done junk (level :: levels) front slack out) :
    state.inLevels.getD (done.length + 1) 0 = done.flatten.length + junk.length + level.length := by
  rw [window.inAt (Nat.le_add_left ..), take_succ_cons, take_zero, flatten_cons, flatten_nil,
    append_nil]

theorem Window.rawAbove (window : Window state done junk (level :: upper :: levels) front slack out) :
    state.inLevels.getD (done.length + 2) 0 = done.flatten.length + junk.length + level.length + upper.length := by
  rw [window.inAt (Nat.le_add_left 2 _), take_succ_cons, take_succ_cons, take_zero, flatten_cons,
    flatten_cons, flatten_nil, append_nil, length_append, ← Nat.add_assoc]

end

variable {front slack out : List Nat}

omit [Inhabited α] in
/-- A level moves down over the places that are left. -/
theorem moveOver_spec {above : List (List α)} (window : Window state done junk (level :: above) front slack out)
    (items : state.items = done.flatten ++ (junk ++ (level ++ above.flatten))) :
    ∃ gap, gap.length = junk.length ∧
      (moveOver state done.length).items = (done ++ [level]).flatten ++ (gap ++ above.flatten) ∧
      (moveOver state done.length).outLevels = offsets 0 (done ++ [level]) ++ out.tail := by
  have pop : done.flatten.length + junk.length + level.length - (done.flatten.length + junk.length) = level.length := by
    omega
  have copied : slice state.items (done.flatten.length + junk.length) level.length = level := by
    rw [items, ← append_assoc, ← length_append]
    exact slice_at rfl rfl
  refine ⟨(junk ++ level).drop level.length, by simp, ?_, ?_⟩
  · simp only [moveOver, window.rawBeg, window.rawLim, window.outAt, pop, copied]
    have parts : state.items = done.flatten ++ ((junk ++ level).take level.length ++
        ((junk ++ level).drop level.length ++ above.flatten)) := by
      rw [items, ← append_assoc (List.take ..), take_append_drop, append_assoc]
    rw [parts, overwrite_middle (by simp)]
    simp
  · simp only [moveOver, window.rawBeg, window.rawLim, window.outAt, pop]
    rw [window.outLevels, set_offsets window.room]

/-- The odd item of a level moves down over the places that are left. -/
theorem odd_over (pre junk odd post : List α) {place out : Nat} (atPlace : place = pre.length + junk.length)
    (atOut : out = pre.length) (single : odd.length ≤ 1) :
    ∃ gap, gap.length = junk.length ∧
      (if odd.length = 1 then
        (pre ++ (junk ++ (odd ++ post))).set out ((pre ++ (junk ++ (odd ++ post))).getD place default)
      else pre ++ (junk ++ (odd ++ post))) = (pre ++ odd) ++ (gap ++ post) := by
  match odd, single with
  | [], _ => exact ⟨junk, rfl, by simp⟩
  | [item], _ =>
    have read : (pre ++ (junk ++ ([item] ++ post))).getD place default = item := by
      rw [← append_assoc]
      exact getD_at (atPlace.trans (length_append ..).symm)
    obtain ⟨gap, size, written⟩ := set_down pre junk post item
    refine ⟨gap, size, ?_⟩
    rw [if_pos (length_singleton ..), read, atOut]
    exact written

/-- A level is compacted into the one above. -/
theorem halveOver_spec (lawful : traits.Lawful) (zeroSorted : Bool)
    (window : Window state done junk (level :: upper :: above) front slack out)
    (items : state.items = done.flatten ++ (junk ++ (level ++ (upper ++ above.flatten)))) :
    ∃ odd merged gap, Compacted traits (done.length = 0 && !zeroSorted) level upper odd merged ∧
      gap.length = junk.length + level.length / 2 ∧
      (halveOver traits zeroSorted state done.length).items =
        (done ++ [odd]).flatten ++ (gap ++ (merged :: above).flatten) ∧
      (halveOver traits zeroSorted state done.length).inLevels = (front ++ [done.flatten.length + junk.length]) ++
        (offsets ((done ++ [odd]).flatten.length + gap.length) (merged :: above) ++ slack) ∧
      (halveOver traits zeroSorted state done.length).outLevels = offsets 0 (done ++ [odd]) ++ out.tail ∧
      (halveOver traits zeroSorted state done.length).currentItemCount = state.currentItemCount - level.length / 2 := by
  obtain ⟨odd, even, count, split, oddSize, evenSize, halves⟩ := exists_odd_even level
  have size : level.length = odd.length + 2 * count := by omega
  have pop : done.flatten.length + junk.length + level.length - (done.flatten.length + junk.length) = level.length := by
    omega
  have popAbove : done.flatten.length + junk.length + level.length + upper.length -
      (done.flatten.length + junk.length + level.length) = upper.length := by omega
  have rest : level.length - odd.length = even.length := by omega
  have halved : even.length / 2 = count := by omega
  have parts : state.items = done.flatten ++ (junk ++ (odd ++ (even ++ (upper ++ above.flatten)))) := by
    rw [items, split, append_assoc]
  obtain ⟨gap, gapSize, moved⟩ := odd_over done.flatten junk odd (even ++ (upper ++ above.flatten)) rfl rfl (by omega)
  obtain ⟨places, second, placesSize, halfSize, compacted⟩ := compactRange_spec traits.less lawful.sort_perm
    (done.flatten ++ odd ++ gap) upper above.flatten evenSize (done.length = 0 && !zeroSorted) (state.randomBit 0)
  have begins : done.flatten.length + junk.length + odd.length = (done.flatten ++ odd ++ gap).length := by
    simp only [length_append]
    omega
  rw [append_assoc (done.flatten ++ odd), ← moved, ← parts, ← begins] at compacted
  generalize written : List.merge (half second _) upper traits.less = merged at compacted
  have result : Compacted traits (done.length = 0 && !zeroSorted) level upper odd merged :=
    ⟨even, second, split, oddSize, written.symm⟩
  have mergedSize := result.length_merged lawful.sort_perm
  refine ⟨odd, merged, gap ++ places, result, by rw [length_append]; omega, ?_, ?_, ?_, ?_⟩
  · simp only [halveOver, window.rawBeg, window.rawLim, window.rawAbove, window.outAt, pop, popAbove, ← oddSize, rest]
    rw [compacted]
    simp
  · simp only [halveOver, window.rawBeg, window.rawLim, pop, ← oddSize, rest, halved]
    rw [window.inLevels, offsets_cons, offsets_cons, offsets_cons, ← window.place, cons_append, cons_append,
      set_append_right _ _ (Nat.le_add_right ..), Nat.add_sub_cancel_left, set_cons_succ, set_cons_zero]
    have lengths : (done ++ [odd]).flatten.length + (gap ++ places).length =
        done.flatten.length + junk.length + level.length - count := by
      rw [flatten_concat_length, length_append]
      omega
    have next : done.flatten.length + junk.length + level.length - count + merged.length =
        done.flatten.length + junk.length + level.length + upper.length := by omega
    rw [lengths, next, append_assoc]
    rfl
  · simp only [halveOver, window.rawBeg, window.rawLim, window.outAt, pop, ← oddSize]
    rw [window.outLevels, set_offsets window.room]
  · simp only [halveOver, window.rawBeg, window.rawLim, pop, ← oddSize, rest, halved, halves]

end

variable {state : Compression α} {done rest : List (List α)} {junk level upper : List α} {above : List (List α)}
  {front slack out : List Nat}

omit [Inhabited α] in
theorem Underway.moved (underway : Underway traits k zeroSorted state done junk (level :: rest) values)
    (window : Window state done junk (level :: rest) front slack out)
    (small : state.currentItemCount < state.targetItemCount ∨ level.length ≤ capacity traits k rest.length) :
    ∃ gap, Underway traits k zeroSorted (moveOver state done.length) (done ++ [level]) gap rest values := by
  obtain ⟨gap, size, items, outLevels⟩ := moveOver_spec window underway.items
  have numLevels := underway.numLevels
  have count := underway.count
  refine ⟨gap, items, ⟨front ++ [done.flatten.length + junk.length], slack, ?_, ?_⟩, ⟨_, outLevels⟩, ?_, ?_, ?_,
    underway.target, ?_, ?_⟩
  · simp [window.place]
  · change state.inLevels = _
    rw [window.inLevels, offsets_cons, flatten_concat_length, size, append_assoc]
    have start : done.flatten.length + junk.length + level.length = done.flatten.length + level.length +
      junk.length := by
      omega
    rw [start]
    rfl
  · change (state.outLevels.set _ _).length = _
    rw [length_set]
    exact underway.wide
  · change state.currentNumLevels = _
    rw [numLevels, length_append, length_cons, length_singleton]
    omega
  · change state.currentItemCount = _
    rw [count, flatten_concat_length, flatten_cons, length_append]
    omega
  · rw [append_assoc]
    exact underway.tower
  · rcases small with fits | short
    · exact .inl fits
    · rcases underway.fits with fits | bound
      · exact .inl fits
      · refine .inr ?_
        change _ ≤ total traits k state.currentNumLevels
        rw [length_cons, total] at bound
        rw [flatten_concat_length]
        omega

/-- A full level is compacted into the one above, which may be a new one. -/
theorem Window.halved (lawful : traits.Lawful)
    (window : Window state done junk (level :: upper :: above) front slack out)
    (items : state.items = done.flatten ++ (junk ++ (level ++ (upper ++ above.flatten))))
    (pile : Pile traits zeroSorted (done ++ level :: upper :: above) values)
    (wide : state.outLevels.length = state.inLevels.length)
    (count : state.currentItemCount = done.flatten.length + (level ++ (upper ++ above.flatten)).length)
    (enough : 2 ≤ level.length) (top : ∀ top, above.getLast? = some top → top ≠ []) {numLevels target : Nat}
    (height : numLevels = done.length + above.length + 2) (capacity : target = total traits k numLevels)
    (fits : done.flatten.length + total traits k (above.length + 1) < total traits k numLevels) :
    ∃ odd merged gap, Underway traits k zeroSorted
      { halveOver traits zeroSorted state done.length with currentNumLevels := numLevels, targetItemCount := target }
      (done ++ [odd]) gap (merged :: above) values := by
  obtain ⟨odd, merged, gap, compacted, gapSize, items', inLevels, outLevels, fewer⟩ :=
    halveOver_spec lawful zeroSorted window items
  have sizes := compacted.length_merged lawful.sort_perm
  have oddSize := compacted.length_odd
  refine ⟨odd, merged, gap, items', ⟨_, slack, ?_, inLevels⟩, ⟨_, outLevels⟩, ?_, ?_, ?_, capacity, ?_, .inr ?_⟩
  · simp [window.place]
  · change (state.outLevels.set _ _).length = (state.inLevels.set _ _).length
    rw [length_set, length_set]
    exact wide
  · rw [length_append]
    simp only [height, length_cons, length_nil]
    omega
  · change (halveOver traits zeroSorted state done.length).currentItemCount = _
    rw [fewer, count, flatten_concat_length]
    simp only [flatten_cons, length_append]
    omega
  · rw [append_assoc]
    exact compacted.tower lawful pile enough top
  · change _ ≤ total traits k numLevels
    rw [flatten_concat_length, length_cons]
    omega

theorem compressOpened_cases (traits : KllTraits α) (k : Nat) (zeroSorted : Bool)
    (window : Window state done junk (level :: rest) front slack out)
    (numLevels : state.currentNumLevels = done.length + (level :: rest).length)
    (height : state.currentNumLevels ≤ kMaxLevel) (wide : done.length + 2 < state.inLevels.length) :
    (compressOpened traits k zeroSorted state done.length = .ok (moveOver state done.length) ∧
        (state.currentItemCount < state.targetItemCount ∨ level.length ≤ capacity traits k rest.length)) ∨
      (compressOpened traits k zeroSorted state done.length = compactOver traits k zeroSorted state done.length ∧
        state.targetItemCount ≤ state.currentItemCount ∧ capacity traits k rest.length ≤ level.length) := by
  have pop : state.inLevels.getD (done.length + 1) 0 - state.inLevels.getD done.length 0 = level.length := by
    rw [window.rawLim, window.rawBeg]
    omega
  have depth : state.currentNumLevels - done.length - 1 = rest.length := by
    rw [numLevels, length_cons]
    omega
  have cap : levelCapacity traits k state.currentNumLevels done.length = .ok (capacity traits k rest.length) := by
    rw [levelCapacity_eq traits k height (by rw [numLevels, length_cons]; omega), depth]
  unfold compressOpened
  rw [if_neg (Nat.not_le_of_lt wide), pop, cap]
  by_cases fits : state.currentItemCount < state.targetItemCount
  · exact .inl ⟨if_pos fits, .inl fits⟩
  rw [if_neg fits]
  by_cases short : level.length < capacity traits k rest.length
  · exact .inl ⟨if_pos short, .inr (Nat.le_of_lt short)⟩
  · exact .inr ⟨if_neg short, Nat.le_of_not_lt fits, Nat.le_of_not_lt short⟩

omit [Inhabited α] in
theorem Underway.window (underway : Underway traits k zeroSorted state done junk rest values)
    (wide : state.currentNumLevels + 2 ≤ state.inLevels.length) :
    ∃ front slack out, Window state done junk rest front slack out ∧ slack ≠ [] := by
  obtain ⟨front, slack, place, inLevels⟩ := underway.inLevels
  obtain ⟨out, outLevels⟩ := underway.outLevels
  have numLevels := underway.numLevels
  refine ⟨front, slack, out, ⟨place, inLevels, outLevels, ?_⟩, ?_⟩
  · rintro rfl
    have lengths := underway.wide
    rw [outLevels, append_nil, length_offsets] at lengths
    omega
  · rintro rfl
    rw [inLevels] at wide
    simp only [length_append, length_offsets, length_nil] at wide
    omega

omit [Inhabited α] in
theorem Underway.height (underway : Underway traits k zeroSorted state done junk rest values) {bits : Nat}
    (few : values.length < 2 ^ bits) (some : 0 < bits) : state.currentNumLevels ≤ bits := by
  rw [underway.numLevels, ← length_append]
  exact underway.tower.length_le few some

/-- One level more is done. -/
def Steps (traits : KllTraits α) (k : Nat) (zeroSorted : Bool) (state : Compression α) (done : List (List α))
    (values : List α) : Prop :=
  ∃ after kept gap levels, compressLevel traits k zeroSorted state done.length = .ok after ∧
    after.inLevels.length = state.inLevels.length ∧
    Underway traits k zeroSorted after (done ++ [kept]) gap levels values

theorem Underway.step_cons (lawful : traits.Lawful)
    (underway : Underway traits k zeroSorted state done junk (level :: upper :: above) values)
    (height : state.currentNumLevels ≤ kMaxLevel) (wide : state.currentNumLevels + 2 ≤ state.inLevels.length) :
    Steps traits k zeroSorted state done values := by
  obtain ⟨front, slack, out, window, _⟩ := underway.window wide
  have numLevels := underway.numLevels
  have notTop : done.length ≠ state.currentNumLevels - 1 := by
    rw [numLevels, length_cons, length_cons]
    omega
  have opened : openTop state done.length = state := if_neg notTop
  unfold Steps compressLevel
  rw [opened]
  rcases compressOpened_cases traits k zeroSorted window numLevels height (by rw [length_cons] at numLevels; omega) with
    ⟨result, small⟩ | ⟨result, full, enough⟩
  · obtain ⟨gap, moved⟩ := underway.moved window small
    exact ⟨_, level, gap, _, result, rfl, moved⟩
  · have bound := underway.fits.resolve_left (Nat.not_lt_of_le full)
    have eight := eight_le_capacity traits k (upper :: above).length
    obtain ⟨odd, merged, gap, halved⟩ := window.halved
      (k := k) lawful underway.items underway.tower.toPile underway.wide
      underway.count (by omega) underway.tower.top_above
        (by rw [numLevels, length_cons, length_cons]; omega) underway.target (by
        rw [length_cons, total] at bound
        rw [length_cons] at bound eight
        omega)
    refine ⟨_, odd, gap, _, result.trans (if_neg notTop), ?_, halved⟩
    exact length_set

omit [Inhabited α] in
/-- The arrays with an empty level above the top one. -/
theorem Underway.openTop (underway : Underway traits k zeroSorted state done junk [level] values)
    (wide : state.currentNumLevels + 2 ≤ state.inLevels.length) :
    ∃ front slack out, (KllSketch.openTop state done.length).inLevels.length = state.inLevels.length ∧
      Underway traits k zeroSorted (KllSketch.openTop state done.length) done junk [level] values ∧
      Window (KllSketch.openTop state done.length) done junk [level] front
        ((done.flatten.length + junk.length + level.length) :: slack) out ∧
      Window (KllSketch.openTop state done.length) done junk [level, []] front slack out := by
  obtain ⟨front, slack, out, window, room⟩ := underway.window wide
  obtain ⟨first, slack, rfl⟩ := exists_cons_of_ne_nil room
  have numLevels := underway.numLevels
  have opened : KllSketch.openTop state done.length =
      { state with inLevels := state.inLevels.set (done.length + 2) (state.inLevels.getD (done.length + 1) 0) } :=
    if_pos (by rw [numLevels]; rfl)
  have written : state.inLevels.set (done.length + 2) (state.inLevels.getD (done.length + 1) 0) =
      front ++ (offsets (done.flatten.length + junk.length) [level] ++
        (done.flatten.length + junk.length + level.length) :: slack) := by
    have split : front ++ (offsets (done.flatten.length + junk.length) [level] ++ first :: slack) =
        (front ++ offsets (done.flatten.length + junk.length) [level]) ++ first :: slack := by simp
    rw [window.rawLim, window.inLevels, split, set_at (by simp [window.place])]
    simp
  have length : (state.inLevels.set (done.length + 2) (state.inLevels.getD (done.length + 1) 0)).length =
      state.inLevels.length := length_set
  rw [opened]
  refine ⟨front, slack, out, length, ?_, ⟨window.place, written, window.outLevels, window.room⟩,
    ⟨window.place, ?_, window.outLevels, window.room⟩⟩
  · exact ⟨underway.items, ⟨front, _, window.place, written⟩, underway.outLevels, underway.wide.trans length.symm,
      underway.numLevels, underway.count, underway.target, underway.tower, underway.fits⟩
  · change state.inLevels.set _ _ = _
    rw [written]
    simp [offsets, starts]

theorem Underway.step_top (lawful : traits.Lawful)
    (underway : Underway traits k zeroSorted state done junk [level] values)
    (few : values.length < 2 ^ kMaxLevel) (wide : state.currentNumLevels + 2 ≤ state.inLevels.length) :
    Steps traits k zeroSorted state done values := by
  have before := underway.numLevels
  obtain ⟨front, slack, out, length, underway, window, opened⟩ := underway.openTop wide
  unfold Steps compressLevel
  generalize KllSketch.openTop state done.length = state' at length underway window opened
  have numLevels : state'.currentNumLevels = done.length + 1 := underway.numLevels
  rw [length_singleton] at before
  have height := underway.height few (by decide)
  rcases compressOpened_cases traits k zeroSorted window numLevels height (by omega) with
    ⟨result, small⟩ | ⟨result, full, enough⟩
  · obtain ⟨gap, moved⟩ := underway.moved window small
    exact ⟨_, level, gap, _, result, length, moved⟩
  · have bound := underway.fits.resolve_left (Nat.not_lt_of_le full)
    have eight := eight_le_capacity traits k ([] : List (List α)).length
    have more := eight_le_capacity traits k state'.currentNumLevels
    have pile := underway.tower.toPile.addTop underway.tower.filled
    rw [append_assoc, singleton_append] at pile
    have target : state'.targetItemCount + capacity traits k state'.currentNumLevels =
        total traits k (state'.currentNumLevels + 1) := by rw [underway.target, total]
    obtain ⟨odd, merged, gap, halved⟩ := opened.halved (k := k) lawful
      (by simpa using underway.items) pile underway.wide
      (by simpa using underway.count) (by omega) (by simp) (by rw [numLevels]; rfl) target (by
        change done.flatten.length + total traits k 1 < _ + _
        change done.flatten.length + total traits k 1 ≤ _ at bound
        omega)
    have height' : state'.currentNumLevels + 1 ≤ kMaxLevel := halved.height few (by decide)
    refine ⟨_, odd, gap, _, result.trans ?_, length_set.trans length, halved⟩
    have last : done.length = (halveOver traits zeroSorted state' done.length).currentNumLevels - 1 := by
      change done.length = state'.currentNumLevels - 1
      omega
    unfold compactOver
    rw [if_pos last]
    change (levelCapacity traits k (state'.currentNumLevels + 1) 0 >>= _) = _
    rw [levelCapacity_eq traits k height' (Nat.succ_pos _)]
    rfl

theorem Underway.step (lawful : traits.Lawful)
    (underway : Underway traits k zeroSorted state done junk (level :: rest) values)
    (few : values.length < 2 ^ kMaxLevel) (wide : state.currentNumLevels + 2 ≤ state.inLevels.length) :
    Steps traits k zeroSorted state done values := by
  cases rest with
  | nil => exact underway.step_top lawful few wide
  | cons upper above => exact underway.step_cons lawful (underway.height few (by decide)) wide

/-- The loop ends with all levels done, and their items fit. -/
theorem Underway.run (lawful : traits.Lawful) {levels : List (List α)} {rounds : Nat}
    (underway : Underway traits k zeroSorted state done junk levels values) (few : values.length < 2 ^ kMaxLevel)
    (wide : values.length < 2 ^ (state.inLevels.length - 2)) (long : 2 < state.inLevels.length)
    (enough : state.inLevels.length ≤ done.length + rounds) :
    ∃ after final gap, compressFrom traits k zeroSorted state done.length rounds = .ok after ∧
      Underway traits k zeroSorted after final gap [] values := by
  induction rounds generalizing state done junk levels with
  | zero =>
    have height := underway.height wide (by omega)
    have numLevels := underway.numLevels
    omega
  | succ rounds ih =>
    have height := underway.height wide (by omega)
    have numLevels := underway.numLevels
    rw [compressFrom]
    cases levels with
    | nil => exact ⟨state, done, junk, if_neg (by rw [numLevels]; exact Nat.lt_irrefl _), underway⟩
    | cons level rest =>
      obtain ⟨middle, kept, gap, levels, result, length, next⟩ := underway.step lawful few (by omega)
      rw [← length] at wide long enough
      obtain ⟨after, final, gap, finished, last⟩ := ih next wide long (by
        rw [length_append, length_singleton]
        omega)
      refine ⟨after, final, gap, ?_, last⟩
      rw [if_pos (by rw [numLevels, length_cons]; omega), result]
      rw [length_append, length_singleton] at finished
      exact finished

end CactusDB.Functions.KllSketch
