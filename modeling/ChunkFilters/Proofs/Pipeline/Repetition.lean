import ChunkFilters.Proofs.Pipeline.Lookup
import Mathlib.Data.List.Basic

/-!
# A run repeated with the mask that it returned

The mask that a run returns has the bits of the entries whose failure was skipped, besides those
that it was given. A skipped filter leaves the bytes as they were, so a run that does not try it at
all comes to the same bytes, and has nothing to put to a handler.

* `plainLoop_repeated`: a loop that leaves out what another one skipped replaces the bytes in the
  same turns and skips nothing;
* `exists_plainLoop_of_apply`: a run that succeeds has found all its filters, and is a loop;
* `apply_repeated`: a second run with the mask of the first.

This needs that no filter makes its result depend on the size hint.
-/

namespace ChunkFilters.Pipeline

/-! ## Loops -/

/-- A loop whose mask has the bits of what another one skipped. The induction is on the entries
still to be undone: the bit of a turn is not touched by the turns after it. -/
theorem plainLoop_repeated {registry : Registry} {invocation : Invocation} {entries : List Entry}
    {mask : FilterMask} (handler : Option FailureHandler) {count : Nat} {plain last : Plain}
    (hCount : count ≤ 32) (hFresh : ∀ index < count, plain.skipped.skips index = false)
    (hMask : ∀ index < count,
      mask.skips index = (invocation.mask.skips index || last.skipped.skips index))
    (h : plainLoop registry invocation entries count plain = .ok last) (again : Plain)
    (hBytes : again.bytes = plain.bytes) :
    plainLoop registry { invocation with mask, handler } entries count again =
      .ok { again with bytes := last.bytes } := by
  induction count generalizing plain again with
  | zero =>
    cases h
    rw [plainLoop, ← hBytes]
  | succ index ih =>
    have hBelow : ∀ lower < index,
        mask.skips lower = (invocation.mask.skips lower || last.skipped.skips lower) := by
      intro lower hLower
      exact hMask lower (by omega)
    have hFreshBelow : ∀ lower < index, plain.skipped.skips lower = false := by
      intro lower hLower
      exact hFresh lower (by omega)
    simp only [plainLoop] at h ⊢
    cases hEntry : entries[index]? with
    | none =>
      rw [hEntry] at h
      exact ih (by omega) hFreshBelow hBelow h again hBytes
    | some entry =>
      rw [hEntry] at h
      dsimp only at h ⊢
      have hIndex := hMask index (by omega)
      by_cases hSkips : invocation.mask.skips index = true
      · rw [if_pos hSkips] at h
        rw [hSkips, Bool.true_or] at hIndex
        rw [if_pos hIndex]
        exact ih (by omega) hFreshBelow hBelow h again hBytes
      · rw [if_neg hSkips] at h
        cases hTurn : plainTurn registry invocation index entry plain with
        | error stopped =>
          rw [hTurn] at h
          cases h
        | ok next =>
          rw [hTurn] at h
          have hLoop : plainLoop registry invocation entries index next = .ok last := h
          have hKept : last.skipped.skips index = next.skipped.skips index :=
            skips_plainLoop (Nat.le_refl index) hLoop
          rw [Bool.eq_false_iff.mpr hSkips, Bool.false_or, hKept] at hIndex
          obtain ⟨filter, hLookup, ⟨bytes, hDecode, rfl⟩ | ⟨failure, rfl⟩⟩ := plainTurn_eq_ok hTurn
          · -- The filter was undone, and is undone again.
            have hAgain : plainTurn registry { invocation with mask, handler } index entry again =
                .ok { again with bytes } := by
              unfold plainTurn
              rw [hLookup, hBytes]
              simp only [hDecode]
            rw [hFresh index (by omega)] at hIndex
            have hFreshNext : ∀ lower < index,
                ({ plain with bytes } : Plain).skipped.skips lower = false := hFreshBelow
            rw [if_neg (Bool.eq_false_iff.mp hIndex), hAgain]
            exact ih (by omega) hFreshNext hBelow hLoop { again with bytes } rfl
          · -- The filter was skipped, and is left out.
            have hSkipped : ∀ lower < index,
                (plain.skipped ||| FilterMask.only index).skips lower = false := by
              intro lower hLower
              rw [FilterMask.skips_or, hFreshBelow lower hLower, FilterMask.skips_only (by omega)]
              exact decide_eq_false (by omega)
            have hOnly : (plain.skipped ||| FilterMask.only index).skips index = true := by
              rw [FilterMask.skips_or, FilterMask.skips_only (by omega), decide_eq_true rfl,
                Bool.or_true]
            rw [hOnly] at hIndex
            rw [if_pos hIndex]
            exact ih (by omega) hSkipped hBelow hLoop again hBytes

/-! ## Runs -/

/-- A run that succeeds has found all its filters, and its plain run has succeeded. -/
theorem exists_plainLoop_of_apply {registry : Registry} (hHint : registry.IgnoresSizeHint)
    {invocation : Invocation} (hDirection : invocation.direction = .decode) {pipeline : Pipeline}
    {buffer : Bytes} {mask : FilterMask}
    (h : (pipeline.apply registry invocation buffer).result = .ok mask) :
    Registered registry invocation.mask pipeline.entries ∧
      ∃ last, plainLoop registry invocation pipeline.entries pipeline.entries.length
          ⟨buffer, 0, []⟩ = .ok last ∧
        mask = invocation.mask ||| last.skipped ∧
          (pipeline.apply registry invocation buffer).buffer = last.bytes := by
  have hRegistered : Registered registry invocation.mask pipeline.entries := by
    cases hStages : stagesFrom registry invocation.mask 0 pipeline.entries with
    | ok stages => exact registered_of_stagesFrom hStages
    | error error =>
      unfold apply at h
      rw [hDirection, hStages] at h
      cases h
  refine ⟨hRegistered, ?_⟩
  rw [apply_plain hHint hDirection pipeline hRegistered, plainRun] at h ⊢
  cases hLoop : plainLoop registry invocation pipeline.entries pipeline.entries.length
      ⟨buffer, 0, []⟩ with
  | error stopped =>
    rw [hLoop] at h
    cases h
  | ok last =>
    rw [hLoop] at h
    exact ⟨last, rfl, (Except.ok.inj h).symm, rfl⟩

/-! ## Main statement -/

/-- A run with the mask that another one returned returns it again, with the same bytes, and has no
failure to put to its handler, whatever room there is behind the chunk this time. The mask has new
bits only for entries that were to be undone. -/
theorem apply_repeated {registry : Registry} (hHint : registry.IgnoresSizeHint)
    {invocation : Invocation} (hDirection : invocation.direction = .decode) {pipeline : Pipeline}
    {buffer : Bytes} {mask : FilterMask}
    (hResult : (pipeline.apply registry invocation buffer).result = .ok mask)
    (handler : Option FailureHandler) (spare : Nat) :
    pipeline.apply registry { invocation with mask, handler, spare } buffer =
        ⟨.ok mask, (pipeline.apply registry invocation buffer).buffer, []⟩ ∧
      (∀ index, invocation.mask.skips index = true → mask.skips index = true) ∧
      ∀ index, mask.skips index = true → invocation.mask.skips index = false →
        ∃ entry, pipeline.entries[index]? = some entry := by
  obtain ⟨hRegistered, last, hLoop, rfl, hBuffer⟩ :=
    exists_plainLoop_of_apply hHint hDirection hResult
  have hMask : ∀ index, FilterMask.skips (invocation.mask ||| last.skipped) index =
      (invocation.mask.skips index || last.skipped.skips index) :=
    FilterMask.skips_or invocation.mask last.skipped
  have hFresh : ∀ index, FilterMask.skips 0 index = false := by
    intro index
    exact BitVec.getLsbD_zero
  refine ⟨?_, ?_, ?_⟩
  · have hAgain : plainLoop registry
        { invocation with mask := invocation.mask ||| last.skipped, handler } pipeline.entries
        pipeline.entries.length ⟨buffer, 0, []⟩ = .ok ⟨last.bytes, 0, []⟩ :=
      plainLoop_repeated handler pipeline.length_le (fun index _ => hFresh index)
        (fun index _ => hMask index) hLoop ⟨buffer, 0, []⟩ rfl
    have hRegisteredAgain :
        Registered registry (invocation.mask ||| last.skipped) pipeline.entries := by
      intro index entry hEntry hSkips
      rw [hMask, Bool.or_eq_false_iff] at hSkips
      exact hRegistered index entry hEntry hSkips.1
    have hRun : pipeline.apply registry
        { invocation with mask := invocation.mask ||| last.skipped, handler, spare } buffer =
          pipeline.plainRun registry
            { invocation with mask := invocation.mask ||| last.skipped, handler } buffer :=
      apply_plain_spare hHint { invocation with mask := invocation.mask ||| last.skipped, handler }
        hDirection pipeline hRegisteredAgain spare buffer
    have hNothing : invocation.mask ||| last.skipped ||| 0 = invocation.mask ||| last.skipped :=
      BitVec.or_zero
    rw [hRun, plainRun, hAgain, hBuffer]
    simp only [hNothing]
  · intro index hSkips
    rw [hMask, hSkips, Bool.true_or]
  · intro index hSkips hUnmasked
    rw [hMask, hUnmasked, Bool.false_or] at hSkips
    by_cases hIndex : index < pipeline.entries.length
    · exact ⟨pipeline.entries[index], List.getElem?_eq_getElem hIndex⟩
    · have hKept : last.skipped.skips index = FilterMask.skips 0 index :=
        skips_plainLoop (Nat.not_lt.mp hIndex) hLoop
      rw [hKept, hFresh] at hSkips
      cases hSkips

/-- A shuffle without parameters is skipped, and is not tried again by a run without a handler. -/
theorem apply_repeated_checkedShuffles :
    let pipeline : Pipeline :=
      { entries := [⟨.shuffle, .none, none, [2]⟩, ⟨.shuffle, .none, none, []⟩,
          ⟨.fletcher32, .none, none, []⟩] }
    let invocation : Invocation := { handler := some fun _ _ => .skip, options := ⟨true⟩ }
    let buffer : Bytes := [1, 3, 2, 4, 7, 3, 10, 4]
    checkedShuffles.IgnoresSizeHint ∧ invocation.direction = .decode ∧
      (pipeline.apply checkedShuffles invocation buffer).result = .ok 0b010#32 ∧
      (pipeline.apply checkedShuffles invocation buffer).failures =
        [⟨.shuffle, [1, 3, 2, 4]⟩] ∧
      pipeline.apply checkedShuffles { mask := 0b010#32, options := ⟨true⟩, spare := 5 } buffer =
        ⟨.ok 0b010#32, [1, 2, 3, 4], []⟩ := by
  intro pipeline invocation buffer
  have hResult : (pipeline.apply checkedShuffles invocation buffer).result = .ok 0b010#32 := by cbv
  have hBuffer : (pipeline.apply checkedShuffles invocation buffer).buffer = [1, 2, 3, 4] := by cbv
  have hRepeated := (apply_repeated ignoresSizeHint_checkedShuffles rfl hResult none 5).1
  rw [hBuffer] at hRepeated
  exact ⟨ignoresSizeHint_checkedShuffles, rfl, hResult, by cbv, hRepeated⟩

end ChunkFilters.Pipeline
