import ChunkFilters.Fletcher32
import ChunkFilters.Pipeline.Apply
import ChunkFilters.Shuffle

/-!
# A run of a pipeline is a plain loop

`Pipeline.apply` looks every filter up before it undoes one, leaves the bytes in the buffer of the
caller for as long as it can, and hands its capacity on from filter to filter. The plain loop does
nothing of this: it goes through the indices from the last to the first, looks up one filter at a
time, and replaces a byte string (`plainLoop`).

* `plain_undo`: what one stage does to the bytes, the skipped entries and the failures is one turn
  of the plain loop, whatever the shape of the output of its filter;
* `undoStages_plain`: the same for the stages of a pipeline;
* `apply_eq_plainRun`: a run and the plain loop have the same outcome, and the bits of the mask
  beyond the last entry are kept and have no other effect.

This needs that no filter of the registry makes its result depend on the size hint
(`Registry.IgnoresSizeHint`), because the hint depends on where the bytes are.
-/

namespace ChunkFilters

/-- The bytes and the errors of every filter are the same whatever the size hint. -/
def Registry.IgnoresSizeHint (registry : Registry) : Prop :=
  ∀ filter ∈ registry.filters, ∀ (request : DecodeRequest) (sizeHint : Nat),
    filter.run { request with sizeHint } = filter.run request

/-- An outcome with more bits in the mask that it returns. -/
def Outcome.withMask (outcome : Outcome) (more : FilterMask) : Outcome :=
  { outcome with result := outcome.result.map (· ||| more) }

namespace Pipeline

/-! ## The plain loop -/

/-- The state of the plain loop. -/
structure Plain where
  bytes : Bytes
  /-- The entries whose failure was skipped. -/
  skipped : FilterMask := 0
  /-- The failures that were put to the handler. -/
  failures : List Failure := []

/-- The result of a filter as a function of what it may depend on. -/
def plainDecode (filter : Filter) (options : CodecOptions) (entry : Entry) (input : Bytes) :
    Except CodecError Bytes :=
  let checked := if options.validateChecksums then FilterFlags.none else .skipEdc
  filter.run
    { flags := entry.flags ||| .reverse ||| checked, params := entry.params, input,
      sizeHint := 0, options }

/-- One turn of the plain loop. -/
def plainTurn (registry : Registry) (invocation : Invocation) (index : Nat) (entry : Entry)
    (plain : Plain) : Except Stopped Plain :=
  match registry.lookup entry.filterId with
  | none => .error ⟨.unregisteredFilter index entry.filterId, plain.failures⟩
  | some filter =>
    match plainDecode filter invocation.options entry plain.bytes with
    | .ok bytes => .ok { plain with bytes }
    | .error source =>
      let error := PipelineError.filterFailed index entry.filterId source
      if source.isFatal then .error ⟨error, plain.failures⟩
      else match invocation.handler with
        | none => .error ⟨error, plain.failures⟩
        | some respond =>
          let failure : Failure := ⟨entry.filterId, plain.bytes⟩
          match respond plain.failures failure with
          | .stop => .error ⟨error, plain.failures ++ [failure]⟩
          | .skip =>
            .ok { plain with
              skipped := plain.skipped ||| FilterMask.only index
              failures := plain.failures ++ [failure] }

/-- The turns of the entries below `count`, the last one first. -/
def plainLoop (registry : Registry) (invocation : Invocation) (entries : List Entry) :
    Nat → Plain → Except Stopped Plain
  | 0, plain => .ok plain
  | index + 1, plain =>
    match entries[index]? with
    | none => plainLoop registry invocation entries index plain
    | some entry =>
      if invocation.mask.skips index then plainLoop registry invocation entries index plain
      else do
        plainLoop registry invocation entries index
          (← plainTurn registry invocation index entry plain)

/-- What comes of the plain loop over all entries. -/
def plainRun (pipeline : Pipeline) (registry : Registry) (invocation : Invocation)
    (buffer : Bytes) : Outcome :=
  match plainLoop registry invocation pipeline.entries pipeline.entries.length ⟨buffer, 0, []⟩ with
  | .error stopped => ⟨.error stopped.error, buffer, stopped.failures⟩
  | .ok plain => ⟨.ok (invocation.mask ||| plain.skipped), plain.bytes, plain.failures⟩

/-- Every entry that the mask does not skip has a filter. -/
def Registered (registry : Registry) (mask : FilterMask) (entries : List Entry) : Prop :=
  ∀ (index : Nat) (entry : Entry), entries[index]? = some entry → mask.skips index = false →
    (registry.lookup entry.filterId).isSome = true

theorem registered_of_forall {registry : Registry} {entries : List Entry}
    (h : ∀ entry ∈ entries, (registry.lookup entry.filterId).isSome = true) (mask : FilterMask) :
    Registered registry mask entries := by
  intro index entry hEntry _
  exact h entry (List.mem_of_getElem? hEntry)

/-! ## One stage is one turn -/

/-- What the plain loop sees of the state between two filters. -/
def Progress.plain (buffer : Bytes) (progress : Progress) : Plain :=
  ⟨progress.bytes buffer, progress.skipped, progress.failures⟩

theorem plain_start (buffer : Bytes) (spare : Nat) :
    (Progress.start buffer spare).plain buffer = ⟨buffer, 0, []⟩ := by
  simp only [Progress.plain, Progress.start, Progress.bytes, Current.bytes, List.take_length]

/-- Whichever way the output is kept, the bytes are those of the output. -/
theorem bytes_advance (buffer : Bytes) (progress : Progress) (decoded : Decoded) :
    (progress.advance buffer decoded).bytes buffer = decoded.bytes (progress.bytes buffer) := by
  cases decoded with
  | fresh bytes => rfl
  | part start count =>
    cases start with
    | zero => exact Current.bytes_truncate buffer count progress.current
    | succ start => rfl

theorem plain_advance (buffer : Bytes) (progress : Progress) (decoded : Decoded) :
    (progress.advance buffer decoded).plain buffer =
      { progress.plain buffer with bytes := decoded.bytes (progress.bytes buffer) } := by
  have hBytes := bytes_advance buffer progress decoded
  have hSkipped : (progress.advance buffer decoded).skipped = progress.skipped := by
    unfold Progress.advance
    split <;> rfl
  have hFailures : (progress.advance buffer decoded).failures = progress.failures := by
    unfold Progress.advance
    split <;> rfl
  simp only [Progress.plain, hBytes, hSkipped, hFailures]

theorem invocationFlags_or (options : CodecOptions) (flags : FilterFlags) :
    invocationFlags options ||| flags =
      flags ||| .reverse |||
        (if options.validateChecksums then FilterFlags.none else .skipEdc) := by
  have hBits : ∀ left right : FilterFlags, left.bits = right.bits → left = right := by
    intro left right h
    cases left
    cases right
    exact congrArg FilterFlags.mk h
  apply hBits
  unfold invocationFlags
  split
  · simp only [FilterFlags.bits_or, FilterFlags.none]
    rw [BitVec.or_comm]
    exact BitVec.or_zero.symm
  · simp only [FilterFlags.bits_or]
    rw [BitVec.or_comm, BitVec.or_assoc]

/-- A filter that ignores the size hint gives a stage the bytes, or the error, that the plain loop
is given. -/
theorem map_decode_request {registry : Registry} (hHint : registry.IgnoresSizeHint)
    {filter : Filter} (hFilter : filter ∈ registry.filters) (buffer : Bytes) (progress : Progress)
    (options : CodecOptions) (entry : Entry) :
    (filter.decode (progress.request buffer options entry)).map
        (Decoded.bytes (progress.bytes buffer)) =
      plainDecode filter options entry (progress.bytes buffer) := by
  have hRun := hHint filter hFilter (progress.request buffer options entry) 0
  simp only [Progress.request, invocationFlags_or] at hRun
  unfold plainDecode
  rw [hRun]
  simp only [Filter.run, Progress.request, invocationFlags_or]

theorem plain_undo {registry : Registry} (hHint : registry.IgnoresSizeHint)
    (invocation : Invocation) (buffer : Bytes) (stage : Stage) (progress : Progress)
    (hLookup : registry.lookup stage.entry.filterId = some stage.filter) :
    (stage.undo invocation buffer progress).map (Progress.plain buffer) =
      plainTurn registry invocation stage.index stage.entry (progress.plain buffer) := by
  have hDecode := map_decode_request hHint (Registry.mem_filters_of_lookup hLookup) buffer progress
    invocation.options stage.entry
  have hInput : (progress.plain buffer).bytes = progress.bytes buffer := rfl
  simp only [Stage.undo, plainTurn, hLookup, hInput, ← hDecode]
  cases stage.filter.decode (progress.request buffer invocation.options stage.entry) with
  | ok decoded => simp only [Except.map, plain_advance]
  | error source =>
    have hFailures : (progress.plain buffer).failures = progress.failures := rfl
    simp only [Except.map, hFailures]
    rcases Bool.eq_false_or_eq_true source.isFatal with hFatal | hFatal
    · rw [hFatal]
      cases invocation.handler <;> rfl
    · rw [hFatal]
      cases invocation.handler with
      | none => rfl
      | some respond =>
        dsimp only
        cases respond progress.failures ⟨stage.entry.filterId, progress.bytes buffer⟩ <;> rfl

/-! ## All stages are all turns -/

theorem stagesFrom_append {registry : Registry} {mask : FilterMask} {index : Nat}
    {first : List Entry} {stages : List Stage}
    (h : stagesFrom registry mask index first = .ok stages) (second : List Entry) :
    stagesFrom registry mask index (first ++ second) =
      (stagesFrom registry mask (index + first.length) second).map (stages ++ ·) := by
  induction first generalizing index stages with
  | nil =>
    simp only [stagesFrom, Except.ok.injEq] at h
    subst h
    rw [List.nil_append, List.length_nil, Nat.add_zero]
    cases stagesFrom registry mask index second <;> rfl
  | cons entry rest ih =>
    have hIndex : index + (entry :: rest).length = index + 1 + rest.length := by
      rw [List.length_cons]
      omega
    rw [hIndex]
    simp only [List.cons_append, stagesFrom] at h ⊢
    by_cases hSkips : mask.skips index = true
    · rw [if_pos hSkips] at h ⊢
      exact ih h
    · rw [if_neg hSkips] at h ⊢
      cases hLookup : registry.lookup entry.filterId with
      | none => simp [hLookup] at h
      | some filter =>
        simp only [hLookup, bind, Except.bind, pure, Except.pure] at h ⊢
        cases hRest : stagesFrom registry mask (index + 1) rest with
        | error error => simp [hRest] at h
        | ok restStages =>
          simp only [hRest, Except.ok.injEq] at h
          subst h
          rw [ih hRest]
          cases stagesFrom registry mask (index + 1 + rest.length) second <;> rfl

/-- The stages of the entries below `count` exist, and undoing them is the plain loop over these
entries. The induction is on `count`, because both take the last entry first. -/
theorem undoStages_plain {registry : Registry} (hHint : registry.IgnoresSizeHint)
    (invocation : Invocation) {entries : List Entry}
    (hRegistered : Registered registry invocation.mask entries) (buffer : Bytes) {count : Nat}
    (hCount : count ≤ entries.length) :
    ∃ stages, stagesFrom registry invocation.mask 0 (entries.take count) = .ok stages ∧
      ∀ progress : Progress,
        (undoStages invocation buffer stages.reverse progress).map (Progress.plain buffer) =
          plainLoop registry invocation entries count (progress.plain buffer) := by
  induction count with
  | zero => exact ⟨[], rfl, fun progress => rfl⟩
  | succ index ih =>
    obtain ⟨stages, hStages, hUndo⟩ := ih (by omega)
    have hIndex : index < entries.length := by omega
    have hEntry : entries[index]? = some entries[index] := List.getElem?_eq_getElem hIndex
    have hTake : entries.take (index + 1) = entries.take index ++ [entries[index]] := by
      rw [List.take_add_one, hEntry, Option.toList_some]
    have hLength : 0 + (entries.take index).length = index := by
      rw [List.length_take]
      omega
    rw [hTake, stagesFrom_append hStages, hLength]
    by_cases hSkips : invocation.mask.skips index = true
    · refine ⟨stages, ?_, ?_⟩
      · simp only [stagesFrom, if_pos hSkips, Except.map, List.append_nil]
      · intro progress
        simp only [plainLoop, hEntry, if_pos hSkips]
        exact hUndo progress
    · obtain ⟨filter, hLookup⟩ := Option.isSome_iff_exists.mp
        (hRegistered index entries[index] hEntry (Bool.eq_false_iff.mpr hSkips))
      refine ⟨stages ++ [⟨index, entries[index], filter⟩], ?_, ?_⟩
      · simp only [stagesFrom, if_neg hSkips, hLookup]
        rfl
      · intro progress
        have hTurn := plain_undo hHint invocation buffer ⟨index, entries[index], filter⟩ progress
          hLookup
        rw [List.reverse_append]
        simp only [plainLoop, hEntry, if_neg hSkips, List.reverse_singleton, List.singleton_append,
          undoStages, ← hTurn]
        cases Stage.undo ⟨index, entries[index], filter⟩ invocation buffer progress with
        | error stopped => rfl
        | ok next => exact hUndo next

/-- A run is the plain loop, where every entry that is not skipped has a filter. -/
theorem apply_plain {registry : Registry} (hHint : registry.IgnoresSizeHint)
    {invocation : Invocation} (hDirection : invocation.direction = .decode) (pipeline : Pipeline)
    (hRegistered : Registered registry invocation.mask pipeline.entries) (buffer : Bytes) :
    pipeline.apply registry invocation buffer = pipeline.plainRun registry invocation buffer := by
  obtain ⟨stages, hStages, hUndo⟩ :=
    undoStages_plain hHint invocation hRegistered buffer (Nat.le_refl pipeline.entries.length)
  rw [List.take_length] at hStages
  have hRun := hUndo (.start buffer invocation.spare)
  rw [plain_start] at hRun
  unfold apply plainRun
  rw [hDirection]
  simp only [hStages, ← hRun]
  cases undoStages invocation buffer stages.reverse (.start buffer invocation.spare) <;> rfl

/-- The plain loop does not know how much room there is behind the bytes. -/
theorem plainLoop_spare (registry : Registry) (invocation : Invocation) (spare : Nat)
    (entries : List Entry) (count : Nat) (plain : Plain) :
    plainLoop registry { invocation with spare } entries count plain =
      plainLoop registry invocation entries count plain := by
  induction count generalizing plain with
  | zero => rfl
  | succ index ih =>
    simp only [plainLoop, ih]
    rfl

/-- So a run is the plain loop with any room behind the chunk. -/
theorem apply_plain_spare {registry : Registry} (hHint : registry.IgnoresSizeHint)
    (invocation : Invocation) (hDirection : invocation.direction = .decode) (pipeline : Pipeline)
    (hRegistered : Registered registry invocation.mask pipeline.entries) (spare : Nat)
    (buffer : Bytes) :
    pipeline.apply registry { invocation with spare } buffer =
      pipeline.plainRun registry invocation buffer := by
  have hDecode : ({ invocation with spare } : Invocation).direction = .decode := hDirection
  rw [apply_plain hHint hDecode pipeline hRegistered, plainRun, plainRun, plainLoop_spare]

/-! ## The bits beyond the last entry -/

/-- The plain loop reads the mask at the indices of its turns only. -/
theorem plainLoop_mask (registry : Registry) (invocation : Invocation) (entries : List Entry)
    {more : FilterMask} {count : Nat} (hMore : ∀ index < count, more.skips index = false)
    (plain : Plain) :
    plainLoop registry { invocation with mask := invocation.mask ||| more } entries count plain =
      plainLoop registry invocation entries count plain := by
  induction count generalizing plain with
  | zero => rfl
  | succ index ih =>
    have hBelow : ∀ plain, plainLoop registry { invocation with mask := invocation.mask ||| more }
        entries index plain = plainLoop registry invocation entries index plain :=
      fun plain => ih (fun lower hLower => hMore lower (by omega)) plain
    have hSkips : (invocation.mask ||| more).skips index = invocation.mask.skips index := by
      rw [FilterMask.skips_or, hMore index (by omega), Bool.or_false]
    simp only [plainLoop, hSkips, hBelow]
    rfl

/-- A turn that goes on has replaced the bytes, or skipped its entry and left them alone. -/
theorem plainTurn_eq_ok {registry : Registry} {invocation : Invocation} {index : Nat}
    {entry : Entry} {plain next : Plain}
    (h : plainTurn registry invocation index entry plain = .ok next) :
    ∃ filter, registry.lookup entry.filterId = some filter ∧
      ((∃ bytes, plainDecode filter invocation.options entry plain.bytes = .ok bytes ∧
          next = { plain with bytes }) ∨
        ∃ failure, next = { plain with
          skipped := plain.skipped ||| FilterMask.only index
          failures := plain.failures ++ [failure] }) := by
  unfold plainTurn at h
  split at h
  · cases h
  · next filter hLookup =>
    refine ⟨filter, hLookup, ?_⟩
    split at h
    · next bytes hDecode => exact Or.inl ⟨bytes, hDecode, (Except.ok.inj h).symm⟩
    · dsimp only at h
      split at h
      · cases h
      · split at h
        · cases h
        · split at h
          · cases h
          · exact Or.inr ⟨_, (Except.ok.inj h).symm⟩

/-- A turn skips no entry but its own. -/
theorem skips_plainTurn {registry : Registry} {invocation : Invocation} {index other : Nat}
    {entry : Entry} {plain next : Plain} (hOther : index ≠ other)
    (h : plainTurn registry invocation index entry plain = .ok next) :
    next.skipped.skips other = plain.skipped.skips other := by
  obtain ⟨_, _, ⟨_, _, rfl⟩ | ⟨_, rfl⟩⟩ := plainTurn_eq_ok h
  · rfl
  · rw [FilterMask.skips_or]
    simp [FilterMask.skips, FilterMask.only, BitVec.getLsbD_twoPow, hOther]

theorem skips_plainLoop {registry : Registry} {invocation : Invocation} {entries : List Entry}
    {count other : Nat} {plain last : Plain} (hOther : count ≤ other)
    (h : plainLoop registry invocation entries count plain = .ok last) :
    last.skipped.skips other = plain.skipped.skips other := by
  induction count generalizing plain with
  | zero =>
    cases h
    rfl
  | succ index ih =>
    simp only [plainLoop] at h
    split at h
    · exact ih (by omega) h
    · split at h
      · exact ih (by omega) h
      · cases hTurn : plainTurn registry invocation index _ plain with
        | error stopped =>
          rw [hTurn] at h
          cases h
        | ok next =>
          rw [hTurn] at h
          rw [ih (by omega) h, skips_plainTurn (by omega) hTurn]

/-! ## Main statement -/

/-- A run is the plain loop. The bits of the mask beyond the last entry are returned as they were,
and setting more of them changes nothing but the mask that is returned. -/
theorem apply_eq_plainRun {registry : Registry} (hHint : registry.IgnoresSizeHint)
    {invocation : Invocation} (hDirection : invocation.direction = .decode) (pipeline : Pipeline)
    (hRegistered : Registered registry invocation.mask pipeline.entries) (buffer : Bytes) :
    pipeline.apply registry invocation buffer = pipeline.plainRun registry invocation buffer ∧
    (∀ (mask : FilterMask) (index : Nat), pipeline.entries.length ≤ index →
      (pipeline.apply registry invocation buffer).result = .ok mask →
        mask.skips index = invocation.mask.skips index) ∧
    ∀ more : FilterMask, (∀ index < pipeline.entries.length, more.skips index = false) →
      pipeline.apply registry { invocation with mask := invocation.mask ||| more } buffer =
        (pipeline.apply registry invocation buffer).withMask more := by
  have hPlain := apply_plain hHint hDirection pipeline hRegistered buffer
  refine ⟨hPlain, ?_, ?_⟩
  · intro mask index hIndex hResult
    rw [hPlain, plainRun] at hResult
    split at hResult
    · cases hResult
    · next last hLast =>
      cases hResult
      rw [FilterMask.skips_or, skips_plainLoop hIndex hLast]
      simp [FilterMask.skips]
  · intro more hMore
    have hRegisteredMore :
        Registered registry (invocation.mask ||| more) pipeline.entries := by
      intro index entry hEntry hSkips
      rw [FilterMask.skips_or, Bool.or_eq_false_iff] at hSkips
      exact hRegistered index entry hEntry hSkips.1
    have hPlainMore :
        pipeline.apply registry { invocation with mask := invocation.mask ||| more } buffer =
          pipeline.plainRun registry { invocation with mask := invocation.mask ||| more } buffer :=
      apply_plain hHint (by exact hDirection) pipeline hRegisteredMore buffer
    rw [hPlainMore, hPlain, plainRun, plainRun, plainLoop_mask registry invocation _ hMore]
    cases plainLoop registry invocation pipeline.entries pipeline.entries.length
      ⟨buffer, 0, []⟩ with
    | error stopped => rfl
    | ok last =>
      have hMask : invocation.mask ||| more ||| last.skipped =
          invocation.mask ||| last.skipped ||| more := by
        rw [BitVec.or_assoc, BitVec.or_comm more, BitVec.or_assoc]
      simp only [Outcome.withMask, Except.map, hMask]

/-- Two filters that ignore the size hint. -/
def checkedShuffles : Registry :=
  ⟨[⟨.shuffle, Shuffle.filter .standard⟩, ⟨.fletcher32, Fletcher32.filter⟩]⟩

theorem ignoresSizeHint_checkedShuffles : checkedShuffles.IgnoresSizeHint := by
  intro filter hFilter request sizeHint
  rcases List.mem_cons.mp hFilter with rfl | hFilter
  · rfl
  · obtain rfl := List.mem_singleton.mp hFilter
    rfl

/-- The last entry has no element size, so its failure is skipped; the checksum is dropped in place,
and the shuffled bytes move to a buffer of their own. The chunk was stored without the first entry.
The highest bit of the mask has no entry. -/
theorem apply_eq_plainRun_checkedShuffles :
    let pipeline : Pipeline :=
      { entries := [⟨.shuffle, .none, none, [4]⟩, ⟨.shuffle, .none, none, [2]⟩,
          ⟨.fletcher32, .none, none, []⟩, ⟨.shuffle, .none, none, []⟩] }
    let invocation : Invocation :=
      { mask := 0x80000001#32, handler := some fun _ _ => .skip, options := ⟨true⟩, spare := 3 }
    let buffer : Bytes := [1, 3, 2, 4, 7, 3, 10, 4]
    checkedShuffles.IgnoresSizeHint ∧ invocation.direction = .decode ∧
      Registered checkedShuffles invocation.mask pipeline.entries ∧
      pipeline.apply checkedShuffles invocation buffer =
        pipeline.plainRun checkedShuffles invocation buffer ∧
      (pipeline.plainRun checkedShuffles invocation buffer).result.toOption =
        some 0x80000009#32 ∧
      (pipeline.plainRun checkedShuffles invocation buffer).buffer = [1, 2, 3, 4] := by
  intro pipeline invocation buffer
  have hHint := ignoresSizeHint_checkedShuffles
  have hRegistered : Registered checkedShuffles invocation.mask pipeline.entries :=
    registered_of_forall (by decide) invocation.mask
  exact ⟨hHint, rfl, hRegistered, (apply_eq_plainRun hHint rfl pipeline hRegistered buffer).1,
    by decide +kernel, by decide +kernel⟩

end Pipeline

end ChunkFilters
