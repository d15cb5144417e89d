import CactusDB.Functions.KllInsert

/-! Compacting a sketch keeps its weight: two equal neighbours become one item of the level above. -/

namespace CactusDB.Functions.KllSketch

open Library Buffer Levels WeakOrder KllBuffers List

variable {α : Type} [Inhabited α] {traits : KllTraits α} {sketch : KllSketch α} {free : List α}
  {levels : List (List α)} {values : List α}

section

omit [Inhabited α]

/-- What is left of a level, and what has moved to the one above. -/
structure Collapsed (items kept moved : List α) : Prop where
  left : kept.Sublist items
  above : moved.Sublist items
  size : kept.length + 2 * moved.length = items.length

theorem collapsed_nil : Collapsed ([] : List α) [] [] := ⟨.refl _, .refl _, rfl⟩

theorem Collapsed.pair {items kept moved : List α} (collapsed : Collapsed items kept moved) (first second : α) :
    Collapsed (first :: second :: items) kept (first :: moved) := by
  refine ⟨(collapsed.left.cons second).cons first, (collapsed.above.cons second).cons_cons first, ?_⟩
  have size := collapsed.size
  simp only [length_cons]
  omega

theorem Collapsed.single {items kept moved : List α} (collapsed : Collapsed items kept moved) (first : α) :
    Collapsed (first :: items) (first :: kept) moved := by
  refine ⟨collapsed.left.cons_cons first, collapsed.above.cons first, ?_⟩
  have size := collapsed.size
  simp only [length_cons]
  omega

theorem Collapsed.eq_of_nil {items kept : List α} (collapsed : Collapsed items kept []) : kept = items :=
  collapsed.left.eq_of_length (by have size := collapsed.size; simpa using size)

end

section

omit [Inhabited α] in
theorem set_second (front rest : List α) (first second value : α) :
    (front ++ first :: second :: rest).set (front.length + 1) value = front ++ first :: value :: rest := by
  simp

omit [Inhabited α] in
theorem getD_third (front : List Nat) (first second start : Nat) (levels : List (List α)) :
    (front ++ first :: second :: offsets start levels).getD (front.length + 2) 0 = start := by
  have third : (offsets start levels).getD 0 0 = start := getD_offsets (Nat.zero_le _)
  have shape : front ++ first :: second :: offsets start levels = (front ++ [first, second]) ++
    offsets start levels := by
    simp
  rw [shape, getD_append_right _ _ _ _ (by simp)]
  simpa using third

variable (traits : KllTraits α)

theorem collapse_spec (pre gap todo post moved : List α) {rounds : Nat} (enough : todo.length ≤ rounds) :
    ∃ kept junk more, Collapsed todo kept more ∧ kept.length + junk.length = gap.length + todo.length ∧
      collapse traits (pre ++ (gap ++ (todo ++ post))) pre.length (pre.length + gap.length)
        (pre.length + gap.length + todo.length) moved rounds =
          (pre ++ (kept ++ (junk ++ post)), pre.length + kept.length, moved ++ more) := by
  induction rounds generalizing pre gap todo moved with
  | zero =>
    have none : todo = [] := length_eq_zero_iff.mp (Nat.le_zero.mp enough)
    subst none
    exact ⟨[], gap, [], collapsed_nil, by simp, by simp [collapse]⟩
  | succ rounds ih =>
    cases todo with
    | nil => exact ⟨[], gap, [], collapsed_nil, by simp, by simp [collapse]⟩
    | cons item rest =>
      have first : (pre ++ (gap ++ (item :: rest ++ post))).getD (pre.length + gap.length) default = item := by
        rw [← append_assoc]
        exact getD_at (length_append ..).symm
      rw [collapse, if_pos (by simp), first]
      by_cases pair : pre.length + gap.length + 1 < pre.length + gap.length + (item :: rest).length ∧
          traits.equal item ((pre ++ (gap ++ (item :: rest ++ post))).getD (pre.length + gap.length + 1) default) = true
      · rw [if_pos pair]
        obtain ⟨other, rest, rfl⟩ := exists_cons_of_ne_nil (l := rest) (by
          rintro rfl
          simp at pair)
        obtain ⟨kept, junk, more, collapsed, size, done⟩ := ih pre (gap ++ [item, other]) rest (moved ++ [item])
          (by simp only [length_cons] at enough; omega)
        refine ⟨kept, junk, item :: more, collapsed.pair item other, ?_, ?_⟩
        · simp only [length_append, length_cons, length_nil] at size ⊢
          omega
        · simpa [Nat.add_assoc, Nat.add_comm, Nat.add_left_comm] using done
      · rw [if_neg pair]
        obtain ⟨shifted, same, copied⟩ := set_down pre gap (rest ++ post) item
        obtain ⟨kept, junk, more, collapsed, size, done⟩ := ih (pre ++ [item]) shifted rest moved
          (by simp only [length_cons] at enough; omega)
        refine ⟨item :: kept, junk, more, collapsed.single item, ?_, ?_⟩
        · simp only [length_cons]
          omega
        · rw [cons_append, copied]
          simpa [same, Nat.add_assoc, Nat.add_comm, Nat.add_left_comm] using done

def mergedUp (moved level : List α) : List α := List.merge moved level fun one other => !traits.less other one

section

omit [Inhabited α]

@[simp] theorem nil_mergedUp (level : List α) : mergedUp traits [] level = level := by simp [mergedUp]

@[simp] theorem mergedUp_nil (moved : List α) : mergedUp traits moved [] = moved := by simp [mergedUp]

theorem length_mergedUp (moved level : List α) :
    (mergedUp traits moved level).length = moved.length + level.length := by
  rw [mergedUp, (merge_perm_append ..).length_eq, length_append]

theorem mem_mergedUp {moved level : List α} {item : α} :
    item ∈ mergedUp traits moved level ↔ item ∈ moved ∨ item ∈ level := by
  rw [mergedUp, (merge_perm_append ..).mem_iff, mem_append]

end

omit [Inhabited α] in
/-- What has moved up takes the last of the places that are left. -/
theorem mergeMoved_spec (pre junk level post moved : List α) (fits : moved.length ≤ junk.length) :
    ∃ rest, rest.length + moved.length = junk.length ∧
      mergeMoved traits (pre ++ (junk ++ (level ++ post))) moved (pre.length + junk.length)
        (pre.length + junk.length + level.length) =
          (pre ++ (rest ++ (mergedUp traits moved level ++ post)), pre.length + rest.length) := by
  cases moved with
  | nil => exact ⟨junk, rfl, by simp [mergeMoved]⟩
  | cons item moved =>
    obtain ⟨rest, places, rfl, size⟩ : ∃ rest places, junk = rest ++ places ∧ places.length = (item :: moved).length :=
      ⟨junk.take (junk.length - (item :: moved).length), junk.drop (junk.length - (item :: moved).length),
        (take_append_drop ..).symm, by rw [length_drop]; omega⟩
    refine ⟨rest, by rw [length_append, size], ?_⟩
    have begins : pre.length + (rest ++ places).length - (item :: moved).length = (pre ++ rest).length := by
      simp only [length_append]
      omega
    have written : overwrite (pre ++ (rest ++ places ++ (level ++ post))) (pre ++ rest).length (item :: moved) =
        (pre ++ rest) ++ (item :: moved ++ (level ++ post)) := by
      rw [append_assoc rest, ← append_assoc pre]
      exact overwrite_middle size.symm
    have upper : slice ((pre ++ rest) ++ (item :: moved ++ (level ++ post))) (pre.length + (rest ++ places).length)
        (pre.length + (rest ++ places).length + level.length - (pre.length + (rest ++ places).length)) = level := by
      have place : pre.length + (rest ++ places).length = (pre ++ rest ++ item :: moved).length := by
        simp only [length_append]
        omega
      rw [Nat.add_sub_cancel_left, place, ← append_assoc]
      exact slice_at rfl rfl
    have length : (mergedUp traits (item :: moved) level).length = (item :: moved ++ level).length := by
      rw [length_mergedUp, length_append]
    rw [mergeMoved, if_neg (by simp)]
    simp only [begins, written, upper, mergeBy_eq]
    rw [slice_at rfl rfl, ← mergedUp, ← append_assoc (item :: moved), overwrite_middle length, append_assoc,
      length_append]

end

section

omit [Inhabited α] in
/-- What has moved is merged into the level above. -/
theorem Pile.collapsed (lawful : traits.Lawful) {done rest : List (List α)} {items next kept moved : List α}
    (pile : Pile traits true (done ++ items :: next :: rest) values) (collapsed : Collapsed items kept moved) :
    Pile traits true (done ++ [kept] ++ mergedUp traits moved next :: rest) values := by
  have order := lawful.order
  have ordered : ∀ level ∈ done ++ items :: next :: rest, Ordered traits.less level := by
    intro level mem
    cases done with
    | nil | cons =>
      rcases mem_cons.mp mem with rfl | mem
      · exact pile.zero rfl
      · exact pile.ordered level mem
  have itemsOrdered := ordered items (by simp)
  have mergedOrdered : Ordered traits.less (mergedUp traits moved next) :=
    ordered_merge_stable (itemsOrdered.sublist collapsed.above) (ordered next (by simp))
  have all : ∀ level ∈ done ++ [kept] ++ mergedUp traits moved next :: rest, Ordered traits.less level := by
    intro level mem
    simp only [mem_append, mem_cons, not_mem_nil, or_false] at mem
    rcases mem with (early | rfl) | rfl | later
    · exact ordered level (by simp [early])
    · exact itemsOrdered.sublist collapsed.left
    · exact mergedOrdered
    · exact ordered level (by simp [later])
  refine ⟨?_, fun level mem => all level (mem_of_mem_tail mem), ?_, ?_⟩
  · intro _
    cases done with
    | nil => exact all kept (by simp)
    | cons first done => exact all first (by simp)
  · rw [← pile.weight, append_assoc, singleton_append]
    refine weight_exchange ?_
    have size := collapsed.size
    rw [length_mergedUp]
    omega
  · intro item mem
    refine pile.kept item ?_
    simp only [flatten_append, flatten_cons, flatten_nil, mem_append, append_nil, mem_mergedUp] at mem ⊢
    rcases mem with (early | left) | (moved | above) | later
    · exact .inl early
    · exact .inr (.inl (collapsed.left.mem left))
    · exact .inr (.inl (collapsed.above.mem moved))
    · exact .inr (.inr (.inl above))
    · exact .inr (.inr (.inr later))

def compactAt (traits : KllTraits α) (done : List (List α)) (junk level : List α) (rest : List (List α))
    (moved : List α) (rounds : Nat) : Except KllFailure (List α × List Nat) :=
  compactFrom traits (done.flatten ++ (junk ++ (level ++ rest.flatten)))
    (starts 0 done ++ done.flatten.length :: offsets (done.flatten.length + junk.length + level.length) rest)
    done.flatten.length moved (done.flatten.length + junk.length) (done.flatten.length + junk.length + level.length)
    done.length rounds

variable {done rest : List (List α)} {junk level moved : List α}

theorem compactAt_succ (traits : KllTraits α) (done rest : List (List α)) (level : List α)
    (fits : moved.length ≤ junk.length) (rounds : Nat) :
    ∃ kept up gap, Collapsed (mergedUp traits moved level) kept up ∧
      kept.length + gap.length = junk.length + level.length ∧
      compactAt traits done junk level rest moved (rounds + 1) =
        let place := done.flatten.length + kept.length
        let stop := done.flatten.length + junk.length + level.length
        let levels := starts 0 done ++ done.flatten.length :: offsets stop rest
        let levels := if rest = [] ∧ up.isEmpty = false then levels ++ [levels.getLastD 0] else levels
        let next := if done.length + 1 < levels.length - 1 then levels.getD (done.length + 2) 0 else stop
        compactFrom traits (done.flatten ++ (kept ++ (gap ++ rest.flatten)))
          (levels.set (done.length + 1) place) place up
          stop next (done.length + 1) rounds := by
  obtain ⟨left, leftSize, merged⟩ := mergeMoved_spec traits done.flatten junk level rest.flatten moved fits
  have mergedSize := length_mergedUp traits moved level
  have stop : done.flatten.length + junk.length + level.length =
      done.flatten.length + left.length + (mergedUp traits moved level).length := by omega
  obtain ⟨kept, gap, up, collapsed, size, done'⟩ := collapse_spec traits done.flatten left
    (mergedUp traits moved level) rest.flatten [] (Nat.le_refl _)
  refine ⟨kept, up, gap, collapsed, by omega, ?_⟩
  have count : (starts 0 done ++ done.flatten.length :: offsets
    (done.flatten.length + junk.length + level.length) rest).length
      - 1 = done.length + rest.length + 1 := by
    rw [length_append, length_starts, length_cons, length_offsets]
    omega
  have last : done.length + 1 = done.length + rest.length + 1 ↔ rest = [] := by
    rw [← length_eq_zero_iff]
    omega
  rw [compactAt, compactFrom, count, if_pos (by omega), if_neg (by omega), merged]
  have rounds' : done.flatten.length + junk.length + level.length - (done.flatten.length + left.length) =
      (mergedUp traits moved level).length := by omega
  rw [← stop] at done'
  simp only [rounds', done', nil_append, last]

omit [Inhabited α] in
theorem starts_concat (done : List (List α)) (kept : List α) :
    starts 0 (done ++ [kept]) = starts 0 done ++ [done.flatten.length] := by
  rw [starts_append, Nat.zero_add]
  rfl

omit [Inhabited α] in
theorem flatten_concat_length (done : List (List α)) (kept : List α) :
    (done ++ [kept]).flatten.length = done.flatten.length + kept.length := by
  simp

theorem compactAt_cons (traits : KllTraits α) (done rest : List (List α)) (level next : List α)
    (fits : moved.length ≤ junk.length) (rounds : Nat) :
    ∃ kept up gap, Collapsed (mergedUp traits moved level) kept up ∧
      kept.length + gap.length = junk.length + level.length ∧
      compactAt traits done junk level (next :: rest) moved (rounds + 1) =
        compactAt traits (done ++ [kept]) gap next rest up rounds := by
  obtain ⟨kept, up, gap, collapsed, size, step⟩ := compactAt_succ traits done (next :: rest) level fits rounds
  refine ⟨kept, up, gap, collapsed, size, ?_⟩
  have stop : done.flatten.length + junk.length + level.length = done.flatten.length + kept.length + gap.length := by
    omega
  have above : done.length + 1 < (starts 0 done ++ done.flatten.length ::
      (done.flatten.length + junk.length + level.length) ::
        offsets (done.flatten.length + junk.length + level.length + next.length) rest).length - 1 := by
    simp only [length_append, length_starts, length_cons, length_offsets]
    omega
  simp only [offsets_cons, reduceCtorEq, false_and, if_false] at step
  rw [if_pos above, ← length_starts 0 done, getD_third, set_second] at step
  rw [step, compactAt, starts_concat, flatten_concat_length, stop]
  simp

theorem compactAt_top (traits : KllTraits α) (done : List (List α)) (level : List α) (fits : moved.length ≤ junk.length)
    (rounds : Nat) :
    ∃ kept up gap, Collapsed (mergedUp traits moved level) kept up ∧
      kept.length + gap.length = junk.length + level.length ∧
      compactAt traits done junk level [] moved (rounds + 2) =
        if up = [] then .ok ((done ++ [kept]).flatten, offsets 0 (done ++ [kept]))
        else compactAt traits (done ++ [kept]) gap [] [] up (rounds + 1) := by
  obtain ⟨kept, up, gap, collapsed, size, step⟩ := compactAt_succ traits done [] level fits (rounds + 1)
  refine ⟨kept, up, gap, collapsed, size, ?_⟩
  have stop : done.flatten.length + junk.length + level.length = done.flatten.length + kept.length + gap.length := by
    omega
  have single (start : Nat) : offsets start ([] : List (List α)) = [start] := rfl
  rw [step]
  by_cases none : up = []
  · rw [if_pos none]
    subst none
    simp only [single, isEmpty_nil, reduceCtorEq, and_false, if_false]
    rw [← length_starts 0 done, set_second, compactFrom, if_neg (by simp), ← append_assoc,
      take_left' (length_append ..)]
    simp [offsets, starts_concat]
  · have some : up.isEmpty = false := by simpa using none
    rw [if_neg none]
    simp only [single, some, and_self, if_true]
    have shape (stop : Nat) : starts 0 done ++ [done.flatten.length, stop] ++
        [(starts 0 done ++ [done.flatten.length, stop]).getLastD 0] =
          starts 0 done ++ done.flatten.length :: stop :: offsets stop ([] : List (List α)) := by simp [single]
    rw [shape, compactAt, if_pos (by simp [single]), ← length_starts 0 done, getD_third, set_second, starts_concat,
      flatten_concat_length, stop]
    simp [single]

theorem compactAt_spec (lawful : traits.Lawful) {rounds : Nat}
    (tower : Tower traits true (done ++ mergedUp traits moved level :: rest) values)
    (fits : moved.length ≤ junk.length)
    (enough : rest.length + moved.length + level.length + rest.flatten.length + 1 < rounds) :
    ∃ levels, compactAt traits done junk level rest moved rounds = .ok (levels.flatten, offsets 0 levels) ∧
      Tower traits true levels values ∧ done.length + rest.length < levels.length ∧
      levels.flatten.length ≤ done.flatten.length + junk.length + level.length + rest.flatten.length := by
  -- A round takes a level away, or it adds one and moves at most half of the items to it.
  induction rounds generalizing done junk level rest moved with
  | zero => omega
  | succ rounds ih =>
    have size := length_mergedUp traits moved level
    cases rest with
    | nil =>
      obtain ⟨rounds, rfl⟩ : ∃ fewer, rounds = fewer + 1 := ⟨rounds - 1, by omega⟩
      obtain ⟨kept, up, gap, collapsed, places, step⟩ := compactAt_top traits done level fits rounds
      have parts := collapsed.size
      by_cases none : up = []
      · subst none
        rw [collapsed.eq_of_nil] at step
        refine ⟨_, step, tower, by simp, ?_⟩
        rw [flatten_concat_length]
        omega
      · rw [if_neg none] at step
        have pile : Pile traits true _ values := tower.toPile.addTop tower.filled
        rw [append_assoc, singleton_append] at pile
        have positive := length_pos_iff.mpr none
        have tower' : Tower traits true (done ++ [kept] ++ mergedUp traits up [] :: []) values := by
          refine ⟨pile.collapsed lawful collapsed, by simp, ?_⟩
          intro top last _
          have same : top = up := by simpa using last.symm
          rw [same]
          exact none
        have room : up.length ≤ gap.length := by omega
        obtain ⟨levels, result, final, longer, shorter⟩ := ih tower' room (by
          simp only [length_nil, flatten_nil] at enough ⊢
          omega)
        rw [length_append, length_singleton] at longer
        rw [flatten_concat_length, length_nil] at shorter
        exact ⟨levels, step.trans result, final, by omega, by omega⟩
    | cons next rest =>
      obtain ⟨kept, up, gap, collapsed, places, step⟩ := compactAt_cons traits done rest level next fits rounds
      have parts := collapsed.size
      have tower' : Tower traits true (done ++ [kept] ++ mergedUp traits up next :: rest) values := by
        refine ⟨tower.toPile.collapsed lawful collapsed, by simp, ?_⟩
        intro top last _
        cases rest with
        | nil =>
          have same : mergedUp traits up next = top := by simpa using last
          have present : next ≠ [] := tower.top next (by simp) (by simp)
          have positive := length_pos_iff.mpr present
          rw [← same, ← length_pos_iff, length_mergedUp]
          omega
        | cons above rest => exact tower.top top (by simpa using last) (by simp; omega)
      have room : up.length ≤ gap.length := by omega
      obtain ⟨levels, result, final, longer, shorter⟩ := ih tower' room (by
        simp only [length_cons, flatten_cons, length_append] at enough
        omega)
      rw [length_append, length_singleton] at longer
      rw [flatten_concat_length] at shorter
      refine ⟨levels, step.trans result, final, ?_, ?_⟩
      · rw [length_cons]
        omega
      · rw [flatten_cons, length_append]
        omega

end

theorem Sketches.compact (lawful : traits.Lawful) (sketches : Sketches traits sketch values) :
    ∃ after, KllSketch.compact traits sketch = .ok after ∧ after.k = sketch.k ∧ Sketches traits after values := by
  obtain ⟨finished, sorted⟩ := sketches.finish lawful
  have sameK := finish_k traits sketch
  unfold KllSketch.compact
  generalize KllSketch.finish traits sketch = sketch at finished sorted sameK
  obtain ⟨free, levels, holds⟩ := finished.holds
  obtain ⟨level, rest, rfl⟩ := exists_cons_of_ne_nil holds.tower.filled
  have tower := holds.tower
  have size := holds.size
  have length : sketch.levels.length = rest.length + 2 := by rw [holds.laid.levels, length_offsets, length_cons]
  have start : sketch.levelAt 0 = free.length := holds.laid.levelAt (Nat.zero_le _)
  have stop : sketch.levelAt 1 = free.length + level.length := by
    rw [holds.laid.levelAt (by simp)]
    simp
  have zero : sketch.levels.set 0 0 = 0 :: offsets (free.length + level.length) rest := by
    rw [holds.laid.levels, offsets_cons, set_cons_zero]
  have items : sketch.items = free ++ (level ++ rest.flatten) := by rw [holds.laid.items, flatten_cons]
  have itemsLength : sketch.items.length = free.length + level.length + rest.flatten.length := by
    rw [items, length_append, length_append, Nat.add_assoc]
  have numLevels : sketch.numLevels = rest.length + 1 := holds.laid.numLevels
  rw [sorted] at tower
  have run : ∃ compacted, compactAt traits [] free level rest [] (sketch.numLevels + sketch.items.length + 1) =
        .ok (compacted.flatten, offsets 0 compacted) ∧ Tower traits true compacted values ∧
      ([] : List (List α)).length + rest.length < compacted.length ∧ compacted.flatten.length ≤
        ([] : List (List α)).flatten.length + free.length + level.length + rest.flatten.length :=
    compactAt_spec lawful (by simpa using tower) (Nat.zero_le _) (by rw [length_nil]; omega)
  obtain ⟨compacted, result, final, longer, shorter⟩ := run
  have called : compactFrom traits sketch.items (sketch.levels.set 0 0) 0 [] (sketch.levelAt 0) (sketch.levelAt 1) 0
      (sketch.numLevels + sketch.items.length + 1) = .ok (compacted.flatten, offsets 0 compacted) := by
    rw [← result, compactAt, zero, start, stop, items]
    simp [starts]
  simp only [called]
  refine ⟨{ sketch with items := compacted.flatten, levels := offsets 0 compacted }, if_neg (by omega), sameK, ?_,
    finished.count, finished.extremes⟩
  refine ⟨[], compacted, ⟨rfl, rfl⟩, ?_, ?_⟩
  · change Tower traits sketch.isLevelZeroSorted compacted values
    rw [sorted]
    exact final
  · simp only [length_nil, flatten_nil, Nat.zero_add] at longer shorter
    have wider : total traits sketch.k (rest.length + 1) ≤ total traits sketch.k compacted.length :=
      total_mono traits sketch.k longer
    change compacted.flatten.length ≤ total traits sketch.k compacted.length
    rw [length_cons] at size
    omega

end CactusDB.Functions.KllSketch
