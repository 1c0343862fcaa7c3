import ChunkFilters.Proofs.Pipeline.Visits
import ChunkFilters.ScaleOffset
import Mathlib.Data.List.Basic

/-!
# Failures of a run

Every error of a run, and every failure that its handler is shown, is accounted for by the visits of
the run (`Accounts`).

* `accounts_of_registered`: the visits account for the outcome, where no filter is missing;
* `refused_of_missing`: where one is missing, the first that is missing is reported and there is no
  visit;
* `apply_eq_of_answers`: filters that give the recorded answers give the same outcome, so nothing
  was asked of a filter but what the visits record;
* `apply_failures`: all of this, for every pipeline, registry, invocation and buffer.
-/

namespace ChunkFilters.Pipeline

/-! ## Nothing else is asked -/

/-- The stage with the filter that another registry has for its entry. -/
def Stage.filteredBy (other : Registry) (stage : Stage) : Stage :=
  { stage with filter := (other.lookup stage.entry.filterId).getD stage.filter }

theorem stagesFrom_filteredBy {registry other : Registry} {mask : FilterMask} {start : Nat}
    {entries : List Entry}
    (h : ∀ (index : Nat) (entry : Entry), entries[index]? = some entry →
      mask.skips (start + index) = false →
        (other.lookup entry.filterId).isSome = (registry.lookup entry.filterId).isSome) :
    stagesFrom other mask start entries =
      (stagesFrom registry mask start entries).map (List.map (Stage.filteredBy other)) := by
  induction entries generalizing start with
  | nil => rfl
  | cons entry rest ih =>
    have hRest : stagesFrom other mask (start + 1) rest =
        (stagesFrom registry mask (start + 1) rest).map (List.map (Stage.filteredBy other)) := by
      apply ih
      intro index later hLater hSkips
      rw [Nat.succ_add_eq_add_succ] at hSkips
      exact h (index + 1) later hLater hSkips
    rw [stagesFrom, stagesFrom, hRest]
    by_cases hSkips : mask.skips start = true
    · rw [if_pos hSkips, if_pos hSkips]
    · rw [if_neg hSkips, if_neg hSkips]
      have hSome := h 0 entry rfl (Bool.eq_false_iff.mpr hSkips)
      cases hOther : other.lookup entry.filterId with
      | none =>
        rw [hOther, Option.isSome_none] at hSome
        have hNone : registry.lookup entry.filterId = none :=
          Option.not_isSome_iff_eq_none.mp (Bool.eq_false_iff.mp hSome.symm)
        rw [hNone]
        rfl
      | some filter =>
        rw [hOther, Option.isSome_some] at hSome
        obtain ⟨replaced, hReplaced⟩ := Option.isSome_iff_exists.mp hSome.symm
        rw [hReplaced]
        have hFirst : Stage.filteredBy other ⟨start, entry, replaced⟩ = ⟨start, entry, filter⟩ := by
          rw [Stage.filteredBy, hOther]
          rfl
        cases stagesFrom registry mask (start + 1) rest with
        | error error => rfl
        | ok stages =>
          show Except.ok (Stage.mk start entry filter :: _) =
            Except.ok (List.map (Stage.filteredBy other) (_ :: stages))
          rw [List.map_cons, hFirst]

/-- Filters that answer what was asked as it was answered can take the place of others. -/
theorem undoStages_filteredBy {other : Registry} {invocation : Invocation} {buffer : Bytes}
    {stages : List Stage} {progress : Progress}
    (h : ∀ visit ∈ visitsFrom invocation buffer stages progress, ∀ filter,
      other.lookup visit.entry.filterId = some filter →
        filter.decode visit.request = visit.answer) :
    undoStages invocation buffer (stages.map (Stage.filteredBy other)) progress =
      undoStages invocation buffer stages progress := by
  induction stages generalizing progress with
  | nil => rfl
  | cons stage rest ih =>
    have hUndo : (stage.filteredBy other).undo invocation buffer progress =
        stage.undo invocation buffer progress := by
      have hAnswer := h (stage.visit invocation buffer progress) List.mem_cons_self
      cases hLookup : other.lookup stage.entry.filterId with
      | none =>
        rw [Stage.filteredBy, hLookup]
        rfl
      | some filter =>
        have hDecode :
            filter.decode (progress.request buffer invocation.options stage.entry) =
              stage.filter.decode (progress.request buffer invocation.options stage.entry) :=
          hAnswer filter hLookup
        unfold Stage.undo Stage.filteredBy
        rw [hLookup, Option.getD_some, hDecode]
    rw [List.map_cons, undoStages, undoStages, hUndo]
    cases hNext : stage.undo invocation buffer progress with
    | error stopped => rfl
    | ok next =>
      apply ih
      intro visit hVisit
      apply h visit
      rw [visitsFrom, hNext]
      exact List.mem_cons_of_mem _ hVisit

/-- The outcome depends on nothing but which entries that are not skipped have a filter, and on the
answers to the visits. -/
theorem apply_eq_of_answers {pipeline : Pipeline} {registry other : Registry}
    {invocation : Invocation} {buffer : Bytes}
    (hFound : ∀ (index : Nat) (entry : Entry), pipeline.entries[index]? = some entry →
      invocation.mask.skips index = false →
        (other.lookup entry.filterId).isSome = (registry.lookup entry.filterId).isSome)
    (hAnswers : ∀ visit ∈ pipeline.visits registry invocation buffer, ∀ filter,
      other.lookup visit.entry.filterId = some filter →
        filter.decode visit.request = visit.answer) :
    pipeline.apply other invocation buffer = pipeline.apply registry invocation buffer := by
  unfold visits at hAnswers
  unfold apply
  cases hDirection : invocation.direction with
  | encode => rfl
  | decode =>
    have hStages : stagesFrom other invocation.mask 0 pipeline.entries =
        (stagesFrom registry invocation.mask 0 pipeline.entries).map
          (List.map (Stage.filteredBy other)) := by
      apply stagesFrom_filteredBy
      intro index entry hEntry hSkips
      rw [Nat.zero_add] at hSkips
      exact hFound index entry hEntry hSkips
    rw [hStages]
    rw [hDirection] at hAnswers
    cases hOk : stagesFrom registry invocation.mask 0 pipeline.entries with
    | error error => rfl
    | ok stages =>
      rw [hOk] at hAnswers
      simp only [Except.map]
      rw [← List.map_reverse, undoStages_filteredBy hAnswers]

/-! ## Main statement -/

/-- What a run that found its filters has to do with them and with its handler. -/
structure Accounts (registry : Registry) (invocation : Invocation) (entries : List Entry)
    (buffer : Bytes) (visits : List Visit) (outcome : Outcome) : Prop where
  /-- The entries that are not skipped are visited from the last one down, each of them once. -/
  index_prefix : visits.map Visit.index <+:
    (undoneFrom invocation.mask 0 entries.length).reverse
  asked : ∀ visit ∈ visits, entries[visit.index]? = some visit.entry ∧
    ∃ filter, registry.lookup visit.entry.filterId = some filter ∧
      visit.answer = filter.decode visit.request
  /-- A filter is given the bytes that the visits before it have left, with the parameters of its
  entry, and told the capacity of the buffer that these bytes are in. -/
  request_eq : ∀ (n : Nat) (visit : Visit), visits[n]? = some visit →
    visit.request = requestFor visit.entry invocation.options (leftBy buffer (visits.take n))
      (capacityBy (buffer.length + invocation.spare) (visits.take n))
  /-- The handler is shown the failures that are not fatal, each of them once. -/
  failures_eq : outcome.failures = told invocation.handler visits
  /-- Nothing follows a visit that ends the run. -/
  length_eq : ∀ (n : Nat) (visit : Visit) (source : CodecError), visits[n]? = some visit →
    visit.Ends invocation.handler (told invocation.handler (visits.take n)) source →
      visits.length = n + 1
  /-- The error is that of the visit that ends the run, and there is none without one. -/
  error_iff : ∀ error, outcome.result = .error error ↔
    ∃ (n : Nat) (visit : Visit) (source : CodecError), visits[n]? = some visit ∧
      visit.Ends invocation.handler (told invocation.handler (visits.take n)) source ∧
      error = .filterFailed visit.index visit.entry.filterId source
  of_ok : ∀ mask, outcome.result = .ok mask →
    visits.map Visit.index = (undoneFrom invocation.mask 0 entries.length).reverse ∧
      outcome.buffer = leftBy buffer visits

/-- If nothing follows a visit that ends the run, there is only one of them. -/
theorem ends_unique {handler : Option FailureHandler} {visits : List Visit}
    (hLength : ∀ (n : Nat) (visit : Visit) (source : CodecError), visits[n]? = some visit →
      visit.Ends handler (told handler (visits.take n)) source → visits.length = n + 1)
    {first second : Nat} {visit last : Visit} {source cause : CodecError}
    (hVisit : visits[first]? = some visit)
    (hEnds : visit.Ends handler (told handler (visits.take first)) source)
    (hLast : visits[second]? = some last)
    (hLastEnds : last.Ends handler (told handler (visits.take second)) cause) :
    visit = last ∧ source = cause := by
  have hFirst := hLength first visit source hVisit hEnds
  have hSecond := hLength second last cause hLast hLastEnds
  have hSame : first = second := by omega
  subst hSame
  obtain rfl : visit = last := Option.some.inj (hVisit.symm.trans hLast)
  exact ⟨rfl, Except.error.inj (hEnds.1.symm.trans hLastEnds.1)⟩

theorem accounts_of_registered {pipeline : Pipeline} {registry : Registry}
    {invocation : Invocation} (hDirection : invocation.direction = .decode)
    (hRegistered : Registered registry invocation.mask pipeline.entries) (buffer : Bytes) :
    Accounts registry invocation pipeline.entries buffer
      (pipeline.visits registry invocation buffer)
      (pipeline.apply registry invocation buffer) := by
  obtain ⟨stages, hStages⟩ := exists_stages_of_registered hRegistered
  obtain ⟨hIndices, hOf⟩ := stagesFrom_eq_ok hStages
  have hReverse : stages.reverse.map Stage.index =
      (undoneFrom invocation.mask 0 pipeline.entries.length).reverse := by
    rw [List.map_reverse, hIndices]
  have hVisits : pipeline.visits registry invocation buffer =
      visitsFrom invocation buffer stages.reverse (.start buffer invocation.spare) := by
    unfold visits
    rw [hDirection, hStages]
  have hRecorded := recorded_undoStages invocation buffer stages.reverse
    (.start buffer invocation.spare)
  have hStart : (Progress.start buffer invocation.spare).bytes buffer = buffer :=
    List.take_length
  have hFresh : ∀ visits, (Progress.start buffer invocation.spare).failures ++
      told invocation.handler visits = told invocation.handler visits :=
    fun visits => List.nil_append _
  rw [hVisits]
  generalize hAll : visitsFrom invocation buffer stages.reverse
    (.start buffer invocation.spare) = all
  rw [hAll] at hRecorded
  obtain ⟨hPrefix, hAsked, hRequest, hLength, hError, hOk⟩ := hRecorded
  simp only [hFresh, hStart, hReverse] at hPrefix hRequest hLength hError hOk
  have hAskedEntries : ∀ visit ∈ all, pipeline.entries[visit.index]? = some visit.entry ∧
      ∃ filter, registry.lookup visit.entry.filterId = some filter ∧
        visit.answer = filter.decode visit.request := by
    intro visit hVisit
    obtain ⟨stage, hStage, hIndex, hEntry, hAnswer⟩ := hAsked visit hVisit
    have hStageOf := hOf stage (List.mem_reverse.mp hStage)
    rw [hIndex, hEntry]
    exact ⟨hStageOf.entry_eq, stage.filter, hStageOf.lookup_eq, hAnswer⟩
  unfold apply
  rw [hDirection]
  simp only [hStages]
  cases hUndo : undoStages invocation buffer stages.reverse
      (.start buffer invocation.spare) with
  | error stopped =>
    obtain ⟨hFailures, n, visit, source, hVisit, hEnds, hSource⟩ := hError stopped hUndo
    refine ⟨hPrefix, hAskedEntries, hRequest, hFailures, hLength, ?_, ?_⟩
    · intro error
      constructor
      · rintro ⟨⟩
        exact ⟨n, visit, source, hVisit, hEnds, hSource⟩
      · rintro ⟨other, last, cause, hLast, hLastEnds, rfl⟩
        obtain ⟨rfl, rfl⟩ := ends_unique hLength hVisit hEnds hLast hLastEnds
        exact congrArg Except.error hSource
    · rintro mask ⟨⟩
  | ok last =>
    obtain ⟨hFailures, hBytes, hIndicesAll, hNoEnd⟩ := hOk last hUndo
    refine ⟨hPrefix, hAskedEntries, hRequest, hFailures, hLength, ?_, ?_⟩
    · intro error
      constructor
      · rintro ⟨⟩
      · rintro ⟨n, visit, source, hVisit, hEnds, -⟩
        exact absurd hEnds (hNoEnd n visit source hVisit)
    · rintro mask -
      exact ⟨hIndicesAll, hBytes⟩

/-- A run in the direction of storing is refused before any filter is asked. -/
theorem refused_of_encode (pipeline : Pipeline) (registry : Registry) {invocation : Invocation}
    (hDirection : invocation.direction = .encode) (buffer : Bytes) :
    pipeline.apply registry invocation buffer = ⟨.error .illegalOperation, buffer, []⟩ ∧
      pipeline.visits registry invocation buffer = [] := by
  unfold apply visits
  rw [hDirection]
  exact ⟨rfl, rfl⟩

/-- Without a filter for every entry that is to be undone, no filter is asked. -/
theorem refused_of_missing {pipeline : Pipeline} {registry : Registry} {invocation : Invocation}
    (hDirection : invocation.direction = .decode)
    (h : ¬ Registered registry invocation.mask pipeline.entries) (buffer : Bytes) :
    ∃ index entry, FirstMissing registry invocation.mask 0 pipeline.entries index entry ∧
      pipeline.apply registry invocation buffer =
        ⟨.error (.unregisteredFilter index entry.filterId), buffer, []⟩ ∧
      pipeline.visits registry invocation buffer = [] := by
  cases hStages : stagesFrom registry invocation.mask 0 pipeline.entries with
  | ok stages => exact absurd (registered_of_stagesFrom hStages) h
  | error error =>
    obtain ⟨index, entry, hMissing, rfl⟩ := stagesFrom_eq_error hStages
    rw [Nat.zero_add] at hStages
    refine ⟨index, entry, hMissing, ?_, ?_⟩
    · unfold apply
      rw [hDirection, hStages]
    · unfold visits
      rw [hDirection, hStages]

/-- Every failure that a handler is shown is that of a visit, in any run. -/
theorem failures_eq_told (pipeline : Pipeline) (registry : Registry) (invocation : Invocation)
    (buffer : Bytes) :
    (pipeline.apply registry invocation buffer).failures =
      told invocation.handler (pipeline.visits registry invocation buffer) := by
  cases hDirection : invocation.direction with
  | encode =>
    obtain ⟨hApply, hVisits⟩ := refused_of_encode pipeline registry hDirection buffer
    rw [hApply, hVisits, told_nil]
  | decode =>
    by_cases hRegistered : Registered registry invocation.mask pipeline.entries
    · exact (accounts_of_registered hDirection hRegistered buffer).failures_eq
    · obtain ⟨_, _, _, hApply, hVisits⟩ := refused_of_missing hDirection hRegistered buffer
      rw [hApply, hVisits, told_nil]

/-- The failure of a filter that a run ends with is what the filter of that entry answers when it is
visited. -/
theorem exists_answer_of_filterFailed {pipeline : Pipeline} {registry : Registry}
    {invocation : Invocation} {buffer : Bytes} {index : Nat} {id : FilterId} {source : CodecError}
    (h : (pipeline.apply registry invocation buffer).result =
      .error (.filterFailed index id source)) :
    ∃ visit ∈ pipeline.visits registry invocation buffer, visit.index = index ∧
      visit.entry.filterId = id ∧ visit.answer = .error source ∧
      ∃ filter, registry.lookup id = some filter ∧
        filter.decode visit.request = .error source := by
  cases hDirection : invocation.direction with
  | encode =>
    rw [(refused_of_encode pipeline registry hDirection buffer).1] at h
    cases h
  | decode =>
    by_cases hRegistered : Registered registry invocation.mask pipeline.entries
    · have hAccounts := accounts_of_registered hDirection hRegistered buffer
      obtain ⟨n, visit, cause, hVisit, hEnds, hError⟩ := (hAccounts.error_iff _).mp h
      obtain ⟨rfl, rfl, rfl⟩ := PipelineError.filterFailed.inj hError
      have hMem := List.mem_of_getElem? hVisit
      obtain ⟨-, filter, hLookup, hAnswer⟩ := hAccounts.asked visit hMem
      exact ⟨visit, hMem, rfl, rfl, hEnds.1, filter, hLookup, hAnswer ▸ hEnds.1⟩
    · obtain ⟨_, _, _, hApply, _⟩ := refused_of_missing hDirection hRegistered buffer
      rw [hApply] at h
      cases h

theorem exists_visit_of_filterFailed {pipeline : Pipeline} {registry : Registry}
    {invocation : Invocation} {buffer : Bytes} {index : Nat} {id : FilterId} {source : CodecError}
    (h : (pipeline.apply registry invocation buffer).result =
      .error (.filterFailed index id source)) :
    ∃ visit ∈ pipeline.visits registry invocation buffer, visit.answer = .error source := by
  obtain ⟨visit, hVisit, -, -, hAnswer, -⟩ := exists_answer_of_filterFailed h
  exact ⟨visit, hVisit, hAnswer⟩

/-- Entries that are skipped may be any. -/
theorem apply_congr_undone {first second : Pipeline} {registry : Registry} {invocation : Invocation}
    (hLength : first.entries.length = second.entries.length)
    (h : ∀ index, invocation.mask.skips index = false →
      first.entries[index]? = second.entries[index]?) (buffer : Bytes) :
    first.apply registry invocation buffer = second.apply registry invocation buffer := by
  have hStages : stagesFrom registry invocation.mask 0 first.entries =
      stagesFrom registry invocation.mask 0 second.entries := by
    apply stagesFrom_congr hLength
    intro index hSkips
    rw [Nat.zero_add] at hSkips
    exact h index hSkips
  unfold apply
  rw [hStages]

/-- How a run fails. Storing is refused, and so is a run that lacks a filter, before any filter is
asked. Otherwise the visits account for the error and for what the handler is shown. Entries that
are skipped have no influence, nor has anything that the visits do not record. The buffer is lost to
no error. The errors that no handler is asked about are those of a filter that cannot store, or that
lacks a feature. -/
theorem apply_failures (pipeline : Pipeline) (registry : Registry) (invocation : Invocation)
    (buffer : Bytes) :
    let visits := pipeline.visits registry invocation buffer
    let outcome := pipeline.apply registry invocation buffer
    (invocation.direction = .encode →
      outcome = ⟨.error .illegalOperation, buffer, []⟩ ∧ visits = []) ∧
    (invocation.direction = .decode → ¬ Registered registry invocation.mask pipeline.entries →
      ∃ index entry, FirstMissing registry invocation.mask 0 pipeline.entries index entry ∧
        outcome = ⟨.error (.unregisteredFilter index entry.filterId), buffer, []⟩ ∧
        visits = []) ∧
    (invocation.direction = .decode → Registered registry invocation.mask pipeline.entries →
      Accounts registry invocation pipeline.entries buffer visits outcome) ∧
    (∀ other : Pipeline, other.entries.length = pipeline.entries.length →
      (∀ index, invocation.mask.skips index = false →
        other.entries[index]? = pipeline.entries[index]?) →
      other.apply registry invocation buffer = outcome) ∧
    (∀ other : Registry,
      (∀ (index : Nat) (entry : Entry), pipeline.entries[index]? = some entry →
        invocation.mask.skips index = false →
          (other.lookup entry.filterId).isSome = (registry.lookup entry.filterId).isSome) →
      (∀ visit ∈ visits, ∀ filter, other.lookup visit.entry.filterId = some filter →
        filter.decode visit.request = visit.answer) →
      pipeline.apply other invocation buffer = outcome) ∧
    (∀ error, outcome.result = .error error → outcome.buffer = buffer) ∧
    ∀ source : CodecError, source.isFatal = true ↔
      (∃ filter, source = .encodeUnsupported filter) ∨
        ∃ feature, source = .unsupported feature := by
  intro visits outcome
  refine ⟨?_, ?_, ?_, ?_, ?_, ?_, CodecError.isFatal_iff⟩
  · intro hDirection
    exact refused_of_encode pipeline registry hDirection buffer
  · intro hDirection hMissing
    exact refused_of_missing hDirection hMissing buffer
  · intro hDirection hRegistered
    exact accounts_of_registered hDirection hRegistered buffer
  · intro other hLength hSame
    exact apply_congr_undone hLength hSame buffer
  · intro other hFound hAnswers
    exact apply_eq_of_answers hFound hAnswers
  · intro error hError
    exact apply_buffer_of_error hError

/-- Two shuffles without parameters fail, with a checksum between them that is dropped. A handler
that skips one failure only ends the run with the second one. A handler that skips all failures is
not asked about the offsets below them, whose way of scaling is not supported. -/
theorem apply_failures_checkedShuffles :
    let registry : Registry := (checkedShuffles.offer (ScaleOffset.filter .standard)).1
    let pipeline : Pipeline :=
      { entries := [⟨.shuffle, .none, none, [2]⟩,
          ⟨.scaleOffset, .none, none, [1, 0, 1, 0, 4, 0, 0, 0]⟩, ⟨.shuffle, .none, none, []⟩,
          ⟨.fletcher32, .none, none, []⟩, ⟨.shuffle, .none, none, []⟩] }
    let skipOne : Invocation :=
      { handler := some fun failures _ => if failures.isEmpty then .skip else .stop
        options := ⟨true⟩ }
    let skipAll : Invocation := { handler := some fun _ _ => .skip, options := ⟨true⟩, spare := 5 }
    let buffer : Bytes := [1, 3, 2, 4, 7, 3, 10, 4]
    let failures : List Failure :=
      [⟨.shuffle, [1, 3, 2, 4, 7, 3, 10, 4]⟩, ⟨.shuffle, [1, 3, 2, 4]⟩]
    (∀ invocation ∈ [skipOne, skipAll], invocation.direction = .decode ∧
      Registered registry invocation.mask pipeline.entries ∧
      Accounts registry invocation pipeline.entries buffer
        (pipeline.visits registry invocation buffer) (pipeline.apply registry invocation buffer)) ∧
      (pipeline.visits registry skipOne buffer).map Visit.index = [4, 3, 2] ∧
      pipeline.apply registry skipOne buffer =
        ⟨.error (.filterFailed 2 .shuffle
            (.invalidParameters "shuffle" "missing the element size")), buffer, failures⟩ ∧
      (pipeline.visits registry skipAll buffer).map Visit.index = [4, 3, 2, 1] ∧
      pipeline.apply registry skipAll buffer =
        ⟨.error (.filterFailed 1 .scaleOffset
            (.unsupported "the scaleoffset E-scale method")), buffer, failures⟩ := by
  intro registry pipeline skipOne skipAll buffer failures
  have hRegistered : ∀ mask, Registered registry mask pipeline.entries :=
    registered_of_forall (by decide)
  refine ⟨?_, by cbv, by cbv, by cbv, by cbv⟩
  intro invocation hInvocation
  have hDirection : invocation.direction = .decode := by
    rcases List.mem_pair.mp hInvocation with rfl | rfl <;> rfl
  obtain ⟨-, -, hAccounts, -⟩ := apply_failures pipeline registry invocation buffer
  exact ⟨hDirection, hRegistered invocation.mask, hAccounts hDirection (hRegistered _)⟩

end ChunkFilters.Pipeline
