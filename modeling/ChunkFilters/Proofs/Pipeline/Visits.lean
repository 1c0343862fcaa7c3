import ChunkFilters.Proofs.Pipeline.Lookup

/-!
# The visits of a run

A run asks one filter after the other to undo its work. `Pipeline.visits` lists these requests and
their answers. From the list one can tell how the run goes: which bytes each filter is given, which
failures are put to the handler, and which failure ends the run.

* `undo_cases`: the run goes on from the visit of a stage, or the visit ends it;
* `recorded_undoStages`: the same for all stages, visit by visit.

Nothing is assumed of the filters or of the handler. A filter may depend on the size hint, and the
handler on the failures that were put to it before.
-/

namespace ChunkFilters.Pipeline

/-! ## Visits -/

/-- A request to the filter of an entry, and its answer. -/
structure Visit where
  index : Nat
  entry : Entry
  request : DecodeRequest
  answer : Except CodecError Decoded

namespace Visit

/-- The filter, and the bytes that it was given. -/
def failure (visit : Visit) : Failure := ⟨visit.entry.filterId, visit.request.input⟩

/-- The failure that a handler is to decide about. -/
def failure? (visit : Visit) : Option Failure :=
  match visit.answer with
  | .ok _ => none
  | .error source => if source.isFatal then none else some visit.failure

/-- The bytes after the visit. A filter that failed has left them alone. -/
def left (visit : Visit) : Bytes :=
  match visit.answer with
  | .ok decoded => decoded.bytes visit.request.input
  | .error _ => visit.request.input

/-- The capacity of the buffer that these bytes are in. A filter that leaves the front of its input
leaves it where it is. -/
def capacity (visit : Visit) : Nat :=
  match visit.answer with
  | .ok (.leading _) | .error _ => visit.request.sizeHint
  | .ok (.part _ _) => visit.left.length
  | .ok (.fresh buffer) => buffer.capacity

/-- The visit failed and ends the run: the error is fatal, or there is no handler, or the handler,
to which `failures` were put before, does not skip it. -/
def Ends (handler : Option FailureHandler) (failures : List Failure) (visit : Visit)
    (source : CodecError) : Prop :=
  visit.answer = .error source ∧
    (source.isFatal = true ∨
      ∀ respond, handler = some respond → respond failures visit.failure = .stop)

end Visit

/-- The failures of some visits that are put to a handler, if there is one. -/
def told (handler : Option FailureHandler) (visits : List Visit) : List Failure :=
  match handler with
  | none => []
  | some _ => visits.filterMap Visit.failure?

/-- The bytes after some visits. -/
def leftBy (bytes : Bytes) (visits : List Visit) : Bytes :=
  visits.foldl (fun _ visit => visit.left) bytes

/-- The capacity of the buffer that the bytes are in after some visits. -/
def capacityBy (capacity : Nat) (visits : List Visit) : Nat :=
  visits.foldl (fun _ visit => visit.capacity) capacity

/-- What the filter of an entry is asked to undo, with which flags, and what it is told of the
buffer that its input is in. -/
def requestFor (entry : Entry) (options : CodecOptions) (input : Bytes) (capacity : Nat) :
    DecodeRequest :=
  { flags := invocationFlags options ||| entry.flags, params := entry.params, input,
    sizeHint := capacity, options }

def Stage.visit (stage : Stage) (invocation : Invocation) (buffer : Bytes)
    (progress : Progress) : Visit :=
  let request := progress.request buffer invocation.options stage.entry
  ⟨stage.index, stage.entry, request, stage.filter.decode request⟩

def visitsFrom (invocation : Invocation) (buffer : Bytes) : List Stage → Progress → List Visit
  | [], _ => []
  | stage :: rest, progress =>
    stage.visit invocation buffer progress ::
      match stage.undo invocation buffer progress with
      | .error _ => []
      | .ok next => visitsFrom invocation buffer rest next

/-- The visits of a run, in order. -/
def visits (pipeline : Pipeline) (registry : Registry) (invocation : Invocation)
    (buffer : Bytes) : List Visit :=
  match invocation.direction with
  | .encode => []
  | .decode =>
    match stagesFrom registry invocation.mask 0 pipeline.entries with
    | .error _ => []
    | .ok stages =>
      visitsFrom invocation buffer stages.reverse (.start buffer invocation.spare)

theorem told_nil (handler : Option FailureHandler) : told handler [] = [] := by
  cases handler <;> rfl

theorem told_append (handler : Option FailureHandler) (first second : List Visit) :
    told handler (first ++ second) = told handler first ++ told handler second := by
  cases handler with
  | none => rfl
  | some respond => exact List.filterMap_append

theorem told_cons (handler : Option FailureHandler) (visit : Visit) (rest : List Visit) :
    told handler (visit :: rest) = told handler [visit] ++ told handler rest :=
  told_append handler [visit] rest

theorem told_of_ok {visit : Visit} {decoded : Decoded} (h : visit.answer = .ok decoded)
    (handler : Option FailureHandler) : told handler [visit] = [] := by
  cases handler with
  | none => rfl
  | some respond =>
    have hNone : visit.failure? = none := by rw [Visit.failure?, h]
    exact List.filterMap_cons_none hNone

theorem told_of_fatal {visit : Visit} {source : CodecError} (h : visit.answer = .error source)
    (hFatal : source.isFatal = true) (handler : Option FailureHandler) :
    told handler [visit] = [] := by
  cases handler with
  | none => rfl
  | some respond =>
    have hNone : visit.failure? = none := by
      rw [Visit.failure?, h]
      exact if_pos hFatal
    exact List.filterMap_cons_none hNone

theorem told_of_not_fatal {visit : Visit} {source : CodecError} (h : visit.answer = .error source)
    (hFatal : source.isFatal = false) (respond : FailureHandler) :
    told (some respond) [visit] = [visit.failure] := by
  have hSome : visit.failure? = some visit.failure := by
    rw [Visit.failure?, h]
    exact if_neg (Bool.eq_false_iff.mp hFatal)
  exact List.filterMap_cons_some hSome

/-! ## One stage -/

theorem failures_advance (buffer : Bytes) (progress : Progress) (decoded : Decoded) :
    (progress.advance buffer decoded).failures = progress.failures := by
  unfold Progress.advance
  split <;> rfl

theorem capacity_advance (stage : Stage) (invocation : Invocation) (buffer : Bytes)
    (progress : Progress) {decoded : Decoded}
    (h : (stage.visit invocation buffer progress).answer = .ok decoded) :
    (progress.advance buffer decoded).capacity =
      (stage.visit invocation buffer progress).capacity := by
  rw [Visit.capacity, Visit.left, h]
  cases decoded with
  | fresh fresh => rfl
  | part start count =>
    cases start with
    | zero => rfl
    | succ start => rfl

/-- The run goes on from the visit of a stage, or the visit ends it. -/
theorem undo_cases (stage : Stage) (invocation : Invocation) (buffer : Bytes)
    (progress : Progress) :
    let visit := stage.visit invocation buffer progress
    (∃ next, stage.undo invocation buffer progress = .ok next ∧ next.bytes buffer = visit.left ∧
      next.capacity = visit.capacity ∧
      next.failures = progress.failures ++ told invocation.handler [visit] ∧
      ∀ source, ¬ visit.Ends invocation.handler progress.failures source) ∨
    ∃ source, visit.Ends invocation.handler progress.failures source ∧
      stage.undo invocation buffer progress =
        .error ⟨.filterFailed stage.index stage.entry.filterId source,
          progress.failures ++ told invocation.handler [visit]⟩ := by
  intro visit
  have hAnswer : visit.answer =
      stage.filter.decode (progress.request buffer invocation.options stage.entry) := rfl
  have hFailure : visit.failure = ⟨stage.entry.filterId, progress.bytes buffer⟩ := rfl
  unfold Stage.undo
  rw [← hAnswer, ← hFailure]
  cases hVisit : visit.answer with
  | ok decoded =>
    refine Or.inl ⟨progress.advance buffer decoded, rfl, ?_, ?_, ?_, ?_⟩
    · rw [bytes_advance, Visit.left, hVisit]
      rfl
    · exact capacity_advance stage invocation buffer progress hVisit
    · rw [failures_advance, told_of_ok hVisit, List.append_nil]
    · rintro source ⟨hError, -⟩
      cases hVisit.symm.trans hError
  | error source =>
    cases hFatal : source.isFatal with
    | true =>
      refine Or.inr ⟨source, ⟨hVisit, Or.inl hFatal⟩, ?_⟩
      rw [told_of_fatal hVisit hFatal, List.append_nil]
      dsimp only
      rw [hFatal]
      cases invocation.handler <;> rfl
    | false =>
      cases invocation.handler with
      | none =>
        refine Or.inr ⟨source, ⟨hVisit, Or.inr ?_⟩, ?_⟩
        · intro respond hSome
          cases hSome
        · rw [told, List.append_nil]
      | some respond =>
        rw [told_of_not_fatal hVisit hFatal]
        simp only [hFatal]
        cases hRespond : respond progress.failures visit.failure with
        | stop =>
          refine Or.inr ⟨source, ⟨hVisit, Or.inr ?_⟩, rfl⟩
          intro other hOther
          cases hOther
          exact hRespond
        | skip =>
          refine Or.inl ⟨progress.skip stage.index visit.failure, rfl, ?_, ?_, rfl, ?_⟩
          · rw [Visit.left, hVisit]
            rfl
          · rw [Visit.capacity, hVisit]
            rfl
          · rintro other ⟨hError, hEnds⟩
            cases hVisit.symm.trans hError
            rcases hEnds with hOther | hStop
            · rw [hFatal] at hOther
              cases hOther
            · rw [hStop respond rfl] at hRespond
              cases hRespond

/-! ## All stages -/

/-- What a run makes of some stages, visit by visit. -/
structure Recorded (invocation : Invocation) (buffer : Bytes) (stages : List Stage)
    (progress : Progress) (visits : List Visit) (result : Except Stopped Progress) : Prop where
  index_prefix : visits.map Visit.index <+: stages.map Stage.index
  asked : ∀ visit ∈ visits, ∃ stage ∈ stages, visit.index = stage.index ∧
    visit.entry = stage.entry ∧ visit.answer = stage.filter.decode visit.request
  request_eq : ∀ (n : Nat) (visit : Visit), visits[n]? = some visit →
    visit.request = requestFor visit.entry invocation.options
      (leftBy (progress.bytes buffer) (visits.take n))
      (capacityBy progress.capacity (visits.take n))
  length_eq : ∀ (n : Nat) (visit : Visit) (source : CodecError), visits[n]? = some visit →
    visit.Ends invocation.handler
        (progress.failures ++ told invocation.handler (visits.take n)) source →
      visits.length = n + 1
  of_error : ∀ stopped, result = .error stopped →
    stopped.failures = progress.failures ++ told invocation.handler visits ∧
      ∃ (n : Nat) (visit : Visit) (source : CodecError), visits[n]? = some visit ∧
        visit.Ends invocation.handler
          (progress.failures ++ told invocation.handler (visits.take n)) source ∧
        stopped.error = .filterFailed visit.index visit.entry.filterId source
  of_ok : ∀ last, result = .ok last →
    last.failures = progress.failures ++ told invocation.handler visits ∧
      last.bytes buffer = leftBy (progress.bytes buffer) visits ∧
      visits.map Visit.index = stages.map Stage.index ∧
      ∀ (n : Nat) (visit : Visit) (source : CodecError), visits[n]? = some visit →
        ¬ visit.Ends invocation.handler
          (progress.failures ++ told invocation.handler (visits.take n)) source

theorem recorded_nil (invocation : Invocation) (buffer : Bytes) (progress : Progress) :
    Recorded invocation buffer [] progress [] (.ok progress) where
  index_prefix := List.nil_prefix
  asked := List.forall_mem_nil _
  request_eq := by
    intro n visit h
    cases h
  length_eq := by
    intro n visit source h
    cases h
  of_error := by
    intro stopped h
    cases h
  of_ok := by
    intro last h
    cases h
    refine ⟨?_, rfl, rfl, ?_⟩
    · rw [told_nil, List.append_nil]
    · intro n visit source h
      cases h

/-- The visit of a stage ends the run. -/
theorem recorded_stopped {invocation : Invocation} {buffer : Bytes} {stage : Stage}
    {progress : Progress} {source : CodecError}
    (hEnds : (stage.visit invocation buffer progress).Ends invocation.handler progress.failures
      source) (rest : List Stage) :
    Recorded invocation buffer (stage :: rest) progress [stage.visit invocation buffer progress]
      (.error ⟨.filterFailed stage.index stage.entry.filterId source,
        progress.failures ++ told invocation.handler [stage.visit invocation buffer progress]⟩)
    where
  index_prefix := ⟨rest.map Stage.index, rfl⟩
  asked := by
    intro visit hVisit
    rw [List.mem_singleton.mp hVisit]
    exact ⟨stage, List.mem_cons_self, rfl, rfl, rfl⟩
  request_eq := by
    intro n visit h
    cases n with
    | zero =>
      cases h
      rfl
    | succ n => cases h
  length_eq := by
    intro n visit source h _
    cases n with
    | zero => rfl
    | succ n => cases h
  of_error := by
    intro stopped h
    cases h
    refine ⟨rfl, 0, stage.visit invocation buffer progress, source, rfl, ?_, rfl⟩
    rw [List.take_zero, told_nil, List.append_nil]
    exact hEnds
  of_ok := by
    intro last h
    cases h

/-- The run goes on from the visit of a stage. -/
theorem Recorded.cons {invocation : Invocation} {buffer : Bytes} {stage : Stage}
    {progress next : Progress}
    (hBytes : next.bytes buffer = (stage.visit invocation buffer progress).left)
    (hCapacity : next.capacity = (stage.visit invocation buffer progress).capacity)
    (hFailures : next.failures =
      progress.failures ++ told invocation.handler [stage.visit invocation buffer progress])
    (hGoesOn : ∀ source, ¬ (stage.visit invocation buffer progress).Ends invocation.handler
      progress.failures source)
    {rest : List Stage} {visits : List Visit} {result : Except Stopped Progress}
    (h : Recorded invocation buffer rest next visits result) :
    Recorded invocation buffer (stage :: rest) progress
      (stage.visit invocation buffer progress :: visits) result := by
  have hTold : ∀ others, progress.failures ++
      told invocation.handler (stage.visit invocation buffer progress :: others) =
        next.failures ++ told invocation.handler others := by
    intro others
    rw [told_cons, hFailures, List.append_assoc]
  have hNone : progress.failures ++ told invocation.handler [] = progress.failures := by
    rw [told_nil, List.append_nil]
  have hLeft : ∀ others, leftBy (progress.bytes buffer)
      (stage.visit invocation buffer progress :: others) = leftBy (next.bytes buffer) others := by
    intro others
    rw [hBytes]
    rfl
  have hRoom : ∀ others, capacityBy progress.capacity
      (stage.visit invocation buffer progress :: others) = capacityBy next.capacity others := by
    intro others
    rw [hCapacity]
    rfl
  refine ⟨?_, ?_, ?_, ?_, ?_, ?_⟩
  · exact (List.prefix_cons_inj stage.index).mpr h.index_prefix
  · intro visit hVisit
    rcases List.mem_cons.mp hVisit with rfl | hVisit
    · exact ⟨stage, List.mem_cons_self, rfl, rfl, rfl⟩
    · obtain ⟨other, hOther, hAsked⟩ := h.asked visit hVisit
      exact ⟨other, List.mem_cons_of_mem stage hOther, hAsked⟩
  · intro n visit hVisit
    cases n with
    | zero =>
      cases hVisit
      rfl
    | succ n =>
      rw [List.take_succ_cons, hLeft, hRoom]
      exact h.request_eq n visit hVisit
  · intro n visit source hVisit hEnds
    cases n with
    | zero =>
      cases hVisit
      rw [List.take_zero, hNone] at hEnds
      exact absurd hEnds (hGoesOn source)
    | succ n =>
      rw [List.take_succ_cons, hTold] at hEnds
      rw [List.length_cons, h.length_eq n visit source hVisit hEnds]
  · intro stopped hStopped
    obtain ⟨hAll, n, visit, source, hVisit, hEnds, hError⟩ := h.of_error stopped hStopped
    refine ⟨?_, n + 1, visit, source, hVisit, ?_, hError⟩
    · rw [hAll, hTold]
    · rw [List.take_succ_cons, hTold]
      exact hEnds
  · intro last hLast
    obtain ⟨hAll, hBytesLeft, hIndices, hNoEnd⟩ := h.of_ok last hLast
    refine ⟨?_, ?_, ?_, ?_⟩
    · rw [hAll, hTold]
    · rw [hBytesLeft, hLeft]
    · rw [List.map_cons, List.map_cons, hIndices]
      rfl
    · intro n visit source hVisit hEnds
      cases n with
      | zero =>
        cases hVisit
        rw [List.take_zero, hNone] at hEnds
        exact hGoesOn source hEnds
      | succ n =>
        rw [List.take_succ_cons, hTold] at hEnds
        exact hNoEnd n visit source hVisit hEnds

theorem recorded_undoStages (invocation : Invocation) (buffer : Bytes) (stages : List Stage)
    (progress : Progress) :
    Recorded invocation buffer stages progress (visitsFrom invocation buffer stages progress)
      (undoStages invocation buffer stages progress) := by
  induction stages generalizing progress with
  | nil => exact recorded_nil invocation buffer progress
  | cons stage rest ih =>
    rcases undo_cases stage invocation buffer progress with
      ⟨next, hUndo, hBytes, hCapacity, hFailures, hGoesOn⟩ | ⟨source, hEnds, hUndo⟩
    · rw [visitsFrom, undoStages, hUndo]
      exact (ih next).cons hBytes hCapacity hFailures hGoesOn
    · rw [visitsFrom, undoStages, hUndo]
      exact recorded_stopped hEnds rest

/-! ## Where visits come from -/

theorem exists_stage_of_mem_visitsFrom {invocation : Invocation} {buffer : Bytes}
    {stages : List Stage} {progress : Progress} {visit : Visit}
    (h : visit ∈ visitsFrom invocation buffer stages progress) :
    ∃ stage ∈ stages, ∃ before, visit = stage.visit invocation buffer before := by
  induction stages generalizing progress with
  | nil => cases h
  | cons stage rest ih =>
    rcases List.mem_cons.mp h with rfl | hRest
    · exact ⟨stage, List.mem_cons_self, progress, rfl⟩
    · cases hUndo : stage.undo invocation buffer progress with
      | error stopped =>
        rw [hUndo] at hRest
        cases hRest
      | ok next =>
        rw [hUndo] at hRest
        obtain ⟨other, hOther, before, hVisit⟩ := ih hRest
        exact ⟨other, List.mem_cons_of_mem stage hOther, before, hVisit⟩

/-- Every visit of a run is that of a stage of its pipeline. -/
theorem exists_stage_of_mem_visits {pipeline : Pipeline} {registry : Registry}
    {invocation : Invocation} {buffer : Bytes} {visit : Visit}
    (h : visit ∈ pipeline.visits registry invocation buffer) :
    ∃ (stage : Stage) (before : Progress),
      stage.Of registry invocation.mask 0 pipeline.entries ∧
        visit = stage.visit invocation buffer before := by
  unfold visits at h
  split at h
  · cases h
  · split at h
    · cases h
    · next hStages =>
      obtain ⟨stage, hStage, before, hVisit⟩ := exists_stage_of_mem_visitsFrom h
      have hOf := (stagesFrom_eq_ok hStages).2 stage (List.mem_reverse.mp hStage)
      exact ⟨stage, before, hOf, hVisit⟩

end ChunkFilters.Pipeline
