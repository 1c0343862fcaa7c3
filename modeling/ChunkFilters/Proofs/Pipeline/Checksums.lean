import ChunkFilters.Proofs.Builtin
import ChunkFilters.Proofs.Pipeline.Failures

/-!
# Runs that do not verify checksums

Whether checksums are verified reaches a filter through its flags, joined with those that are stored
with the entry. Of the built-in filters only one looks at them, to drop a checksum unseen.

* `undo_validating`: a stage that has no handler to ask does without verification what it does with
  it, unless a checksum is rejected;
* `undo_unverified`: to a stage it makes no difference whether the invocation or its entry says not
  to verify;
* `apply_validating`: the same for runs, and that a run without verification neither fails with a
  checksum nor shows one to the handler.

With a handler the runs with and without verification can differ in more than errors: a checksum
that was rejected and skipped is still there for the next filter.
-/

namespace ChunkFilters

/-- The entry, with the flag not to verify checksums. -/
def Entry.unverified (entry : Entry) : Entry := { entry with flags := entry.flags ||| .skipEdc }

def Invocation.validating (validate : Bool) (invocation : Invocation) : Invocation :=
  { invocation with options := ⟨validate⟩ }

/-- A checksum did not match. -/
def PipelineError.RejectsChecksum (error : PipelineError) : Prop :=
  ∃ index id stored computed, error = .filterFailed index id (.invalidChecksum stored computed)

namespace Pipeline

/-- The pipeline, with the flag not to verify checksums in every entry. -/
def unverified (pipeline : Pipeline) : Pipeline where
  entries := pipeline.entries.map Entry.unverified
  length_le := by
    rw [List.length_map]
    exact pipeline.length_le

def Stage.unverified (stage : Stage) : Stage := { stage with entry := stage.entry.unverified }

/-! ## Flags -/

theorem contains_skipEdc_request (buffer : Bytes) (progress : Progress) (entry : Entry) :
    (progress.request buffer ⟨false⟩ entry).flags.contains .skipEdc = true :=
  FilterFlags.contains_or_left (by decide) entry.flags

/-- The flag reaches the filter from the invocation or from the entry. -/
theorem flags_request_unverified (buffer : Bytes) (progress : Progress) (entry : Entry) :
    (progress.request buffer ⟨true⟩ entry.unverified).flags =
      (progress.request buffer ⟨false⟩ entry).flags := by
  show FilterFlags.mk (FilterFlags.reverse.bits ||| (entry.flags.bits ||| FilterFlags.skipEdc.bits))
    = FilterFlags.mk (FilterFlags.reverse.bits ||| FilterFlags.skipEdc.bits ||| entry.flags.bits)
  rw [BitVec.or_comm entry.flags.bits, BitVec.or_assoc]

/-! ## Stages -/

/-- A stage is undone in the same way when its filter gives the same answer. -/
theorem undo_eq_of_decode_eq {first second : Stage} {invocation other : Invocation} {buffer : Bytes}
    {progress : Progress} (hIndex : first.index = second.index)
    (hId : first.entry.filterId = second.entry.filterId)
    (hHandler : invocation.handler = other.handler)
    (hDecode : first.filter.decode (progress.request buffer invocation.options first.entry) =
      second.filter.decode (progress.request buffer other.options second.entry)) :
    first.undo invocation buffer progress = second.undo other buffer progress := by
  unfold Stage.undo
  rw [hDecode, hIndex, hId, hHandler]

theorem undo_unverified {host : Host} {stage : Stage}
    (hFilter : stage.filter ∈ Filter.builtinOn host) (invocation : Invocation) (buffer : Bytes)
    (progress : Progress) :
    stage.unverified.undo (invocation.validating true) buffer progress =
      stage.undo (invocation.validating false) buffer progress := by
  refine undo_eq_of_decode_eq rfl rfl rfl ?_
  have hReverse := progress.contains_reverse_request buffer ⟨false⟩ stage.entry
  have hSkip := contains_skipEdc_request buffer progress stage.entry
  have hRequest : progress.request buffer ⟨true⟩ stage.entry.unverified =
      { progress.request buffer ⟨false⟩ stage.entry with
        flags := (progress.request buffer ⟨false⟩ stage.entry).flags
        options := ⟨true⟩ } := by
    rw [← flags_request_unverified]
    rfl
  show stage.filter.decode (progress.request buffer ⟨true⟩ stage.entry.unverified) =
    stage.filter.decode (progress.request buffer ⟨false⟩ stage.entry)
  rw [hRequest]
  rcases Filter.decode_skipEdc hFilter hReverse hReverse hSkip ⟨true⟩ with
    hSame | ⟨stored, computed, hRejected⟩
  · exact hSame
  · exact absurd hRejected (Filter.decode_ne_invalidChecksum hFilter hSkip _ _)

theorem undo_validating {host : Host} {stage : Stage}
    (hFilter : stage.filter ∈ Filter.builtinOn host) {invocation : Invocation}
    (hHandler : invocation.handler = none) (buffer : Bytes) (progress : Progress) :
    stage.undo (invocation.validating false) buffer progress =
        stage.undo (invocation.validating true) buffer progress ∨
      ∃ stopped, stage.undo (invocation.validating true) buffer progress = .error stopped ∧
        stopped.error.RejectsChecksum := by
  have hReverse := progress.contains_reverse_request buffer ⟨true⟩ stage.entry
  rcases Filter.decode_skipEdc hFilter hReverse
      (progress.contains_reverse_request buffer ⟨false⟩ stage.entry)
      (contains_skipEdc_request buffer progress stage.entry) ⟨false⟩ with
    hSame | ⟨stored, computed, hRejected⟩
  · exact Or.inl (undo_eq_of_decode_eq rfl rfl rfl hSame)
  · refine Or.inr ⟨⟨.filterFailed stage.index stage.entry.filterId
      (.invalidChecksum stored computed), progress.failures⟩, ?_, _, _, _, _, rfl⟩
    have hNone : (invocation.validating true).handler = none := hHandler
    have hDecode : stage.filter.decode (progress.request buffer
        (invocation.validating true).options stage.entry) = .error _ := hRejected
    unfold Stage.undo
    rw [hDecode, hNone]

/-! ## Runs -/

theorem stagesFrom_unverified (registry : Registry) (mask : FilterMask) (start : Nat)
    (entries : List Entry) :
    stagesFrom registry mask start (entries.map Entry.unverified) =
      (stagesFrom registry mask start entries).map (List.map Stage.unverified) := by
  induction entries generalizing start with
  | nil => rfl
  | cons entry rest ih =>
    rw [List.map_cons, stagesFrom, stagesFrom, ih]
    by_cases hSkips : mask.skips start = true
    · rw [if_pos hSkips, if_pos hSkips]
    · rw [if_neg hSkips, if_neg hSkips]
      have hId : entry.unverified.filterId = entry.filterId := rfl
      rw [hId]
      cases registry.lookup entry.filterId with
      | none => rfl
      | some filter => cases stagesFrom registry mask (start + 1) rest <;> rfl

section
variable {host : Host} {stages : List Stage}
  (hFilters : ∀ stage ∈ stages, stage.filter ∈ Filter.builtinOn host)
include hFilters

theorem undoStages_unverified (invocation : Invocation) (buffer : Bytes) (progress : Progress) :
    undoStages (invocation.validating true) buffer (stages.map Stage.unverified) progress =
      undoStages (invocation.validating false) buffer stages progress := by
  induction stages generalizing progress with
  | nil => rfl
  | cons stage rest ih =>
    obtain ⟨hFilter, hRest⟩ := List.forall_mem_cons.mp hFilters
    rw [List.map_cons, undoStages, undoStages, undo_unverified hFilter]
    cases stage.undo (invocation.validating false) buffer progress with
    | error stopped => exact Eq.refl (Except.error stopped)
    | ok next => exact ih hRest next

theorem undoStages_validating {invocation : Invocation} (hHandler : invocation.handler = none)
    (buffer : Bytes) (progress : Progress) :
    undoStages (invocation.validating false) buffer stages progress =
        undoStages (invocation.validating true) buffer stages progress ∨
      ∃ stopped,
        undoStages (invocation.validating true) buffer stages progress = .error stopped ∧
          stopped.error.RejectsChecksum := by
  induction stages generalizing progress with
  | nil => exact Or.inl rfl
  | cons stage rest ih =>
    obtain ⟨hFilter, hRest⟩ := List.forall_mem_cons.mp hFilters
    rw [undoStages, undoStages]
    rcases undo_validating hFilter hHandler buffer progress with
      hSame | ⟨stopped, hStopped, hRejects⟩
    · rw [hSame]
      cases stage.undo (invocation.validating true) buffer progress with
      | error stopped => exact Or.inl (Eq.refl (Except.error stopped))
      | ok next => exact ih hRest next
    · rw [hStopped]
      exact Or.inr ⟨stopped, rfl, hRejects⟩

end

theorem builtin_of_stagesFrom {host : Host} {mask : FilterMask} {start : Nat}
    {entries : List Entry} {stages : List Stage}
    (h : stagesFrom (.builtinOn host) mask start entries = .ok stages) :
    ∀ stage ∈ stages.reverse, stage.filter ∈ Filter.builtinOn host := by
  intro stage hStage
  have hOf := (stagesFrom_eq_ok h).2 stage (List.mem_reverse.mp hStage)
  exact (Registry.mem_builtinOn_of_lookup hOf.lookup_eq).1

theorem apply_unverified (host : Host) (pipeline : Pipeline) (invocation : Invocation)
    (buffer : Bytes) :
    pipeline.unverified.apply (.builtinOn host) (invocation.validating true) buffer =
      pipeline.apply (.builtinOn host) (invocation.validating false) buffer := by
  have hStages : stagesFrom (.builtinOn host) (invocation.validating true).mask 0
      pipeline.unverified.entries =
        (stagesFrom (.builtinOn host) (invocation.validating false).mask 0 pipeline.entries).map
          (List.map Stage.unverified) :=
    stagesFrom_unverified (.builtinOn host) invocation.mask 0 pipeline.entries
  have hDirection : (invocation.validating true).direction =
      (invocation.validating false).direction := rfl
  unfold apply
  rw [hStages, hDirection]
  cases hFound : stagesFrom (.builtinOn host) (invocation.validating false).mask 0
      pipeline.entries with
  | error error => rfl
  | ok stages =>
    have hRun := undoStages_unverified (builtin_of_stagesFrom hFound) invocation buffer
      (.start buffer (invocation.validating true).spare)
    simp only [Except.map]
    rw [← List.map_reverse, hRun]
    rfl

/-- Without a handler, a run that does not reject a checksum does not depend on verifying it. -/
theorem apply_validating_or (host : Host) {invocation : Invocation}
    (hHandler : invocation.handler = none) (pipeline : Pipeline) (buffer : Bytes) :
    pipeline.apply (.builtinOn host) (invocation.validating false) buffer =
        pipeline.apply (.builtinOn host) (invocation.validating true) buffer ∨
      ∃ error, (pipeline.apply (.builtinOn host) (invocation.validating true) buffer).result =
        .error error ∧ error.RejectsChecksum := by
  have hMask : (invocation.validating true).mask = (invocation.validating false).mask := rfl
  have hDirection : (invocation.validating true).direction =
      (invocation.validating false).direction := rfl
  have hSpare : (invocation.validating true).spare = (invocation.validating false).spare := rfl
  unfold apply
  rw [hMask, hDirection, hSpare]
  cases (invocation.validating false).direction with
  | encode => exact Or.inl rfl
  | decode =>
    cases hFound : stagesFrom (.builtinOn host) (invocation.validating false).mask 0
        pipeline.entries with
    | error error => exact Or.inl rfl
    | ok stages =>
      dsimp only
      rcases undoStages_validating (builtin_of_stagesFrom hFound) hHandler buffer
          (.start buffer (invocation.validating false).spare) with
        hSame | ⟨stopped, hStopped, hRejects⟩
      · rw [hSame]
        exact Or.inl rfl
      · rw [hStopped]
        exact Or.inr ⟨stopped.error, rfl, hRejects⟩

theorem answer_ne_invalidChecksum {host : Host} {pipeline : Pipeline} {invocation : Invocation}
    {buffer : Bytes} {visit : Visit}
    (h : visit ∈ pipeline.visits (.builtinOn host) (invocation.validating false) buffer)
    (stored computed : UInt32) : visit.answer ≠ .error (.invalidChecksum stored computed) := by
  obtain ⟨stage, before, hOf, rfl⟩ := exists_stage_of_mem_visits h
  exact Filter.decode_ne_invalidChecksum (Registry.mem_builtinOn_of_lookup hOf.lookup_eq).1
    (contains_skipEdc_request buffer before stage.entry) stored computed

/-- Not to verify checksums only removes their rejections. Without a handler a run that verifies
them either ends with a rejected checksum, or the run that does not verify them has the same
outcome. A run that does not verify them never ends with a rejected checksum, and none of its
filters answers with one, so none is put to the handler. It is the run that verifies them of the
pipeline that says not to in every entry. -/
theorem apply_validating (host : Host) (pipeline : Pipeline) (invocation : Invocation)
    (buffer : Bytes) :
    let verifying := pipeline.apply (.builtinOn host) (invocation.validating true) buffer
    let trusting := pipeline.apply (.builtinOn host) (invocation.validating false) buffer
    let visits := pipeline.visits (.builtinOn host) (invocation.validating false) buffer
    (invocation.handler = none →
      (∀ mask, verifying.result = .ok mask → trusting = verifying) ∧
        (trusting = verifying ∨
          ∃ error, verifying.result = .error error ∧ error.RejectsChecksum)) ∧
    (∀ error, trusting.result = .error error → ¬ error.RejectsChecksum) ∧
    (trusting.failures = told invocation.handler visits ∧
      ∀ visit ∈ visits, ∀ stored computed,
        visit.answer ≠ .error (.invalidChecksum stored computed)) ∧
    pipeline.unverified.apply (.builtinOn host) (invocation.validating true) buffer = trusting := by
  intro verifying trusting visits
  refine ⟨?_, ?_, ⟨?_, ?_⟩, ?_⟩
  · intro hHandler
    have hEither := apply_validating_or host hHandler pipeline buffer
    refine ⟨?_, hEither⟩
    intro mask hOk
    rcases hEither with hSame | ⟨error, hError, -⟩
    · exact hSame
    · cases hOk.symm.trans hError
  · rintro error hError ⟨index, id, stored, computed, rfl⟩
    obtain ⟨visit, hVisit, hAnswer⟩ := exists_visit_of_filterFailed hError
    exact answer_ne_invalidChecksum hVisit stored computed hAnswer
  · exact failures_eq_told pipeline (.builtinOn host) (invocation.validating false) buffer
  · intro visit hVisit
    exact answer_ne_invalidChecksum hVisit
  · exact apply_unverified host pipeline invocation buffer

/-- Shuffled bytes with their checksum are read with and without verification. With the first byte
damaged they are read without it only. -/
theorem apply_validating_damaged :
    let pipeline : Pipeline :=
      { entries := [⟨.shuffle, .none, none, [2]⟩, ⟨.fletcher32, .none, none, []⟩] }
    let invocation : Invocation := { options := ⟨true⟩ }
    let intact : Bytes := [1, 3, 2, 4, 7, 3, 10, 4]
    let damaged : Bytes := [9, 3, 2, 4, 7, 3, 10, 4]
    invocation.handler = none ∧
      pipeline.apply .builtin (invocation.validating true) intact = ⟨.ok 0, [1, 2, 3, 4], []⟩ ∧
      pipeline.apply .builtin (invocation.validating false) intact = ⟨.ok 0, [1, 2, 3, 4], []⟩ ∧
      (∃ error, (pipeline.apply .builtin (invocation.validating true) damaged).result =
        .error error ∧ error.RejectsChecksum) ∧
      pipeline.apply .builtin (invocation.validating false) damaged =
        ⟨.ok 0, [9, 2, 3, 4], []⟩ := by
  intro pipeline invocation intact damaged
  have hIntact : pipeline.apply .builtin (invocation.validating true) intact =
      ⟨.ok 0, [1, 2, 3, 4], []⟩ := by cbv
  have hDamaged : pipeline.apply .builtin (invocation.validating false) damaged =
      ⟨.ok 0, [9, 2, 3, 4], []⟩ := by cbv
  have hSame := ((apply_validating .standard pipeline invocation intact).1 rfl).1 0
    (congrArg Outcome.result hIntact)
  refine ⟨rfl, hIntact, hSame.trans hIntact, ?_, hDamaged⟩
  rcases ((apply_validating .standard pipeline invocation damaged).1 rfl).2 with hSame | hRejects
  · -- The verifying run leaves the damaged bytes as they are.
    have hLeft : (pipeline.apply .builtin (invocation.validating true) damaged).buffer =
        damaged := by cbv
    have hOther := congrArg Outcome.buffer (hSame.symm.trans hDamaged)
    exact absurd (hLeft.symm.trans hOther) (by decide)
  · exact hRejects

end Pipeline

end ChunkFilters
