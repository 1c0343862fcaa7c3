import ChunkFilters.Proofs.Builtin
import ChunkFilters.Proofs.Pipeline.Failures

/-!
# Runs that skip every failure

A handler that skips every failure it is shown is not shown the fatal ones. Of the built-in filters
only one has a fatal error: elements that were scaled by a power of two are refused, whatever the
bytes. So whether such a run fails can be told from the pipeline and the mask alone.

* `fatal_iff`: the visits that end such a run are those of entries with that scaling;
* `exists_last_of_error`: the run ends at the last of these entries, the first that is visited;
* `not_scaled_of_ok`: a run that does not end has met none;
* `apply_skipping`: so the run fails at the last such entry, or not at all.

That a filter only undoes its work is an error of its own, which no run of a pipeline can provoke:
the flags of every request ask for the filter to be undone, whatever those stored with the entry.
-/

namespace ChunkFilters

/-- Skips every failure. -/
def FailureHandler.skipAll : FailureHandler := fun _ _ => .skip

/-- The entry asks for a scaling by a power of two to be undone. -/
def Entry.BinaryScaled (entry : Entry) : Prop :=
  entry.filterId = .scaleOffset ∧ ScaleOffset.BinaryScaled entry.params

namespace Pipeline

/-- The entry at `index` is the last that is to be undone and has the scaling. -/
structure LastBinaryScaled (mask : FilterMask) (entries : List Entry) (index : Nat)
    (entry : Entry) : Prop where
  entry_eq : entries[index]? = some entry
  skips_eq : mask.skips index = false
  scaled : entry.BinaryScaled
  not_above : ∀ upper > index, ∀ other, entries[upper]? = some other →
    mask.skips upper = false → ¬ other.BinaryScaled

theorem LastBinaryScaled.unique {mask : FilterMask} {entries : List Entry} {first second : Nat}
    {entry other : Entry} (hFirst : LastBinaryScaled mask entries first entry)
    (hSecond : LastBinaryScaled mask entries second other) : first = second := by
  rcases Nat.lt_trichotomy first second with hLt | hEq | hGt
  · exact absurd hSecond.scaled
      (hFirst.not_above second hLt other hSecond.entry_eq hSecond.skips_eq)
  · exact hEq
  · exact absurd hFirst.scaled
      (hSecond.not_above first hGt entry hFirst.entry_eq hFirst.skips_eq)

/-! ## Visits -/

/-- A request of a run asks for the filter to be undone. -/
theorem answer_ne_encodeUnsupported {host : Host} {pipeline : Pipeline} {invocation : Invocation}
    {buffer : Bytes} {visit : Visit}
    (h : visit ∈ pipeline.visits (.builtinOn host) invocation buffer) (name : String) :
    visit.answer ≠ .error (.encodeUnsupported name) := by
  obtain ⟨stage, before, hOf, rfl⟩ := exists_stage_of_mem_visits h
  intro hAnswer
  have hFilter := (Registry.mem_builtinOn_of_lookup hOf.lookup_eq).1
  have hReverse := before.contains_reverse_request buffer invocation.options stage.entry
  cases Filter.refuses_of_decode_error hFilter _ _ hAnswer with
  | complaint hComplaint => cases hComplaint.ordinary
  | storing hStoring _ =>
    rw [hReverse] at hStoring
    cases hStoring

/-- Only the scaling makes a filter fail fatally, and it always does. -/
theorem fatal_iff {host : Host} {pipeline : Pipeline} {invocation : Invocation} {buffer : Bytes}
    {visit : Visit} (h : visit ∈ pipeline.visits (.builtinOn host) invocation buffer)
    (source : CodecError) :
    visit.answer = .error source ∧ source.isFatal = true ↔
      visit.entry.BinaryScaled ∧ source = ScaleOffset.binaryScalingError := by
  obtain ⟨stage, before, hOf, rfl⟩ := exists_stage_of_mem_visits h
  obtain ⟨hFilter, hId⟩ := Registry.mem_builtinOn_of_lookup hOf.lookup_eq
  have hReverse := before.contains_reverse_request buffer invocation.options stage.entry
  constructor
  · rintro ⟨hAnswer, hFatal⟩
    cases Filter.refuses_of_decode_error hFilter _ _ hAnswer with
    | complaint hComplaint =>
      rw [hComplaint.ordinary.not_fatal] at hFatal
      cases hFatal
    | storing hStoring _ =>
      rw [hReverse] at hStoring
      cases hStoring
    | checksum _ _ _ => cases hFatal
    | binaryScaled hScaleOffset hScaled => exact ⟨⟨hId.symm.trans hScaleOffset, hScaled⟩, rfl⟩
  · rintro ⟨⟨hScaleOffset, hScaled⟩, rfl⟩
    have hEntry : stage.entry.filterId = .scaleOffset := hScaleOffset
    have hLookup : some (ScaleOffset.filter host.memory) = some stage.filter := by
      rw [← hOf.lookup_eq, hEntry]
      rfl
    refine ⟨?_, rfl⟩
    show stage.filter.decode _ = _
    rw [← Option.some.inj hLookup]
    exact (Filter.decodeOnly_of_reverse hReverse _).trans
      (ScaleOffset.decode_of_binaryScaled host.memory hScaled)

/-- A visit ends a run that skips every failure if its error is fatal. -/
theorem ends_skipAll_iff {visit : Visit} {failures : List Failure} {source : CodecError} :
    visit.Ends (some .skipAll) failures source ↔
      visit.answer = .error source ∧ source.isFatal = true := by
  constructor
  · rintro ⟨hAnswer, hFatal | hStop⟩
    · exact ⟨hAnswer, hFatal⟩
    · cases hStop .skipAll rfl
  · rintro ⟨hAnswer, hFatal⟩
    exact ⟨hAnswer, Or.inl hFatal⟩

/-! ## The order of visits -/

theorem pairwise_undoneFrom (mask : FilterMask) (start count : Nat) :
    (undoneFrom mask start count).Pairwise (· < ·) :=
  List.Pairwise.filter _ List.pairwise_lt_range'

/-- Larger numbers come first in a descending list. -/
theorem position_lt_of_descending {numbers : List Nat} (h : numbers.Pairwise (· > ·)) {m n : Nat}
    {upper lower : Nat} (hUpper : numbers[m]? = some upper) (hLower : numbers[n]? = some lower)
    (hLt : lower < upper) : m < n := by
  obtain ⟨hM, rfl⟩ := List.getElem?_eq_some_iff.mp hUpper
  obtain ⟨hN, rfl⟩ := List.getElem?_eq_some_iff.mp hLower
  rcases Nat.lt_trichotomy m n with hBefore | rfl | hAfter
  · exact hBefore
  · exact absurd hLt (Nat.lt_irrefl _)
  · have hGreater := List.pairwise_iff_getElem.mp h n m hN hM hAfter
    omega

/-- The entries behind that of a visit were visited before it, if they are not skipped. -/
theorem exists_visit_above {mask : FilterMask} {count : Nat} {visits : List Visit}
    (hPrefix : visits.map Visit.index <+: (undoneFrom mask 0 count).reverse) {n : Nat}
    {visit : Visit} (hVisit : visits[n]? = some visit) {upper : Nat} (hAbove : visit.index < upper)
    (hCount : upper < count) (hSkips : mask.skips upper = false) :
    ∃ m other, m < n ∧ visits[m]? = some other ∧ other.index = upper := by
  have hMem : upper ∈ (undoneFrom mask 0 count).reverse := by
    rw [List.mem_reverse, undoneFrom, List.mem_filter, List.mem_range'_1, hSkips]
    exact ⟨⟨Nat.zero_le upper, by omega⟩, rfl⟩
  have hDescending : (undoneFrom mask 0 count).reverse.Pairwise (· > ·) :=
    List.pairwise_reverse.mpr (pairwise_undoneFrom mask 0 count)
  have hIndices : ∀ (i : Nat) (h : i < visits.length),
      (undoneFrom mask 0 count).reverse[i]? = some visits[i].index := by
    intro i h
    rw [List.prefix_iff_getElem?.mp hPrefix i (by rwa [List.length_map]), List.getElem_map]
  obtain ⟨m, hUpper⟩ := List.mem_iff_getElem?.mp hMem
  obtain ⟨hN, rfl⟩ := List.getElem?_eq_some_iff.mp hVisit
  have hLt : m < n := position_lt_of_descending hDescending hUpper (hIndices n hN) hAbove
  have hM : m < visits.length := Nat.lt_trans hLt hN
  have hIndex : some visits[m].index = some upper := (hIndices m hM).symm.trans hUpper
  exact ⟨m, visits[m], hLt, List.getElem?_eq_getElem hM, Option.some.inj hIndex⟩

/-! ## Runs -/

theorem isSome_lookup_builtinOn (host : Host) {id : FilterId} (hLower : 1 ≤ id.value.toNat)
    (hUpper : id.value.toNat ≤ 6) : ((Registry.builtinOn host).lookup id).isSome = true := by
  obtain ⟨value⟩ := id
  have hValue : value = 1 ∨ value = 2 ∨ value = 3 ∨ value = 4 ∨ value = 5 ∨ value = 6 := by
    simp only [← UInt16.toNat_inj, UInt16.reduceToNat]
    change 1 ≤ value.toNat at hLower
    change value.toNat ≤ 6 at hUpper
    omega
  rcases hValue with rfl | rfl | rfl | rfl | rfl | rfl <;> rfl

section
variable {host : Host} {pipeline : Pipeline} {invocation : Invocation} {buffer : Bytes}
  (hHandler : invocation.handler = some .skipAll)
  (hAccounts : Accounts (.builtinOn host) invocation pipeline.entries buffer
    (pipeline.visits (.builtinOn host) invocation buffer)
    (pipeline.apply (.builtinOn host) invocation buffer))
include hHandler hAccounts

/-- The visit of an entry with the scaling ends the run. -/
theorem length_visits_of_scaled {n : Nat} {visit : Visit}
    (hVisit : (pipeline.visits (.builtinOn host) invocation buffer)[n]? = some visit)
    (hScaled : visit.entry.BinaryScaled) :
    (pipeline.visits (.builtinOn host) invocation buffer).length = n + 1 := by
  apply hAccounts.length_eq n visit ScaleOffset.binaryScalingError hVisit
  rw [hHandler, ends_skipAll_iff, fatal_iff (List.mem_of_getElem? hVisit)]
  exact ⟨hScaled, rfl⟩

/-- The run ends at the last entry with the scaling. -/
theorem exists_last_of_error {error : PipelineError}
    (h : (pipeline.apply (.builtinOn host) invocation buffer).result = .error error) :
    ∃ index entry, LastBinaryScaled invocation.mask pipeline.entries index entry ∧
      error = .filterFailed index .scaleOffset ScaleOffset.binaryScalingError := by
  obtain ⟨n, visit, source, hVisit, hEnds, rfl⟩ := (hAccounts.error_iff error).mp h
  have hMem := List.mem_of_getElem? hVisit
  rw [hHandler, ends_skipAll_iff, fatal_iff hMem] at hEnds
  obtain ⟨hScaled, rfl⟩ := hEnds
  have hLength := length_visits_of_scaled hHandler hAccounts hVisit hScaled
  obtain ⟨stage, before, hOf, hStage⟩ := exists_stage_of_mem_visits hMem
  refine ⟨visit.index, visit.entry, ⟨(hAccounts.asked visit hMem).1, ?_, hScaled, ?_⟩, ?_⟩
  · rw [hStage]
    exact hOf.skips_eq
  · -- An entry behind would have been visited before, and would have ended the run.
    intro upper hAbove other hOther hSkips hOtherScaled
    have hCount := (List.getElem?_eq_some_iff.mp hOther).1
    obtain ⟨m, earlier, hLt, hEarlier, rfl⟩ :=
      exists_visit_above hAccounts.index_prefix hVisit hAbove hCount hSkips
    have hEntry := (hAccounts.asked earlier (List.mem_of_getElem? hEarlier)).1
    rw [hOther] at hEntry
    rw [Option.some.inj hEntry] at hOtherScaled
    have hShorter := length_visits_of_scaled hHandler hAccounts hEarlier hOtherScaled
    omega
  · rw [hScaled.1]

/-- A run that does not fail has visited every entry, and met the scaling in none. -/
theorem not_scaled_of_ok {mask : FilterMask}
    (h : (pipeline.apply (.builtinOn host) invocation buffer).result = .ok mask) {index : Nat}
    {entry : Entry} (hEntry : pipeline.entries[index]? = some entry)
    (hSkips : invocation.mask.skips index = false) : ¬ entry.BinaryScaled := by
  intro hScaled
  have hCount := (List.getElem?_eq_some_iff.mp hEntry).1
  have hMem : index ∈ (pipeline.visits (.builtinOn host) invocation buffer).map Visit.index := by
    rw [(hAccounts.of_ok mask h).1, List.mem_reverse, undoneFrom, List.mem_filter,
      List.mem_range'_1, hSkips]
    exact ⟨⟨Nat.zero_le index, by omega⟩, rfl⟩
  obtain ⟨visit, hVisitMem, rfl⟩ := List.mem_map.mp hMem
  have hSame := (hAccounts.asked visit hVisitMem).1
  rw [hEntry] at hSame
  rw [Option.some.inj hSame] at hScaled
  obtain ⟨n, hVisit⟩ := List.mem_iff_getElem?.mp hVisitMem
  have hError := (hAccounts.error_iff _).mpr ⟨n, visit, ScaleOffset.binaryScalingError, hVisit, by
    rw [hHandler, ends_skipAll_iff, fatal_iff hVisitMem]
    exact ⟨hScaled, rfl⟩, rfl⟩
  rw [h] at hError
  cases hError

end

/-- What a run can still fail on that skips every failure. If every entry that is to be undone names
a built-in filter, the run succeeds unless one of them was scaled by a power of two, and fails at
the last of these otherwise, whatever the bytes. No run at all fails for being asked to apply a
filter. -/
theorem apply_skipping (host : Host) (pipeline : Pipeline) (invocation : Invocation)
    (buffer : Bytes) :
    let outcome := pipeline.apply (.builtinOn host) invocation buffer
    (invocation.direction = .decode → invocation.handler = some .skipAll →
      (∀ index entry, pipeline.entries[index]? = some entry →
        invocation.mask.skips index = false →
          1 ≤ entry.filterId.value.toNat ∧ entry.filterId.value.toNat ≤ 6) →
      ((∃ mask, outcome.result = .ok mask) ↔
        ∀ index entry, pipeline.entries[index]? = some entry →
          invocation.mask.skips index = false → ¬ entry.BinaryScaled) ∧
      ∀ error, outcome.result = .error error ↔
        ∃ index entry, LastBinaryScaled invocation.mask pipeline.entries index entry ∧
          error = .filterFailed index .scaleOffset
            (.unsupported "the scaleoffset E-scale method")) ∧
    (∀ visit ∈ pipeline.visits (.builtinOn host) invocation buffer, ∀ name,
      visit.answer ≠ .error (.encodeUnsupported name)) ∧
    ∀ index id name,
      outcome.result ≠ .error (.filterFailed index id (.encodeUnsupported name)) := by
  intro outcome
  refine ⟨?_, ?_, ?_⟩
  · intro hDirection hHandler hIds
    have hRegistered : Registered (.builtinOn host) invocation.mask pipeline.entries := by
      intro index entry hEntry hSkips
      obtain ⟨hLower, hUpper⟩ := hIds index entry hEntry hSkips
      exact isSome_lookup_builtinOn host hLower hUpper
    have hAccounts := accounts_of_registered hDirection hRegistered buffer
    have hFails : ∀ error, outcome.result = .error error →
        ∃ index entry, LastBinaryScaled invocation.mask pipeline.entries index entry ∧
          error = .filterFailed index .scaleOffset ScaleOffset.binaryScalingError :=
      fun error hError => exists_last_of_error hHandler hAccounts hError
    have hOk : ∀ mask, outcome.result = .ok mask →
        ∀ index entry, pipeline.entries[index]? = some entry →
          invocation.mask.skips index = false → ¬ entry.BinaryScaled :=
      fun mask hOk index entry hEntry hSkips =>
        not_scaled_of_ok hHandler hAccounts hOk hEntry hSkips
    refine ⟨⟨?_, ?_⟩, ?_⟩
    · rintro ⟨mask, hMask⟩
      exact hOk mask hMask
    · intro hNone
      cases hResult : outcome.result with
      | ok mask => exact ⟨mask, rfl⟩
      | error error =>
        obtain ⟨index, entry, hLast, -⟩ := hFails error hResult
        exact absurd hLast.scaled (hNone index entry hLast.entry_eq hLast.skips_eq)
    · intro error
      refine ⟨hFails error, ?_⟩
      rintro ⟨index, entry, hLast, rfl⟩
      cases hResult : outcome.result with
      | ok mask =>
        exact absurd hLast.scaled (hOk mask hResult index entry hLast.entry_eq hLast.skips_eq)
      | error error =>
        obtain ⟨other, otherEntry, hOther, rfl⟩ := hFails error hResult
        rw [hLast.unique hOther]
        rfl
  · intro visit hVisit name
    exact answer_ne_encodeUnsupported hVisit name
  · intro index id name hError
    obtain ⟨visit, hVisit, hAnswer⟩ := exists_visit_of_filterFailed hError
    exact answer_ne_encodeUnsupported hVisit name hAnswer

/-- Two entries have the scaling, and the mask skips the second of them. The shuffle behind them
lacks its parameter and is skipped, and the first entry ends the run. -/
theorem apply_skipping_masked :
    let pipeline : Pipeline :=
      { entries := [⟨.scaleOffset, .none, none, [1, 0, 0, 9, 9, 9, 9, 9]⟩,
          ⟨.scaleOffset, .none, none, [1, 0, 0, 0, 0, 0, 0, 0]⟩, ⟨.shuffle, .none, none, []⟩] }
    let invocation : Invocation :=
      { mask := FilterMask.only 1, handler := some .skipAll, options := ⟨true⟩ }
    invocation.direction = .decode ∧ invocation.handler = some .skipAll ∧
      (∀ index entry, pipeline.entries[index]? = some entry →
        invocation.mask.skips index = false →
          1 ≤ entry.filterId.value.toNat ∧ entry.filterId.value.toNat ≤ 6) ∧
      ∀ buffer, (pipeline.apply .builtin invocation buffer).result =
        .error (.filterFailed 0 .scaleOffset (.unsupported "the scaleoffset E-scale method")) := by
  intro pipeline invocation
  have hIds : ∀ index entry, pipeline.entries[index]? = some entry →
      invocation.mask.skips index = false →
        1 ≤ entry.filterId.value.toNat ∧ entry.filterId.value.toNat ≤ 6 := by
    intro index entry hEntry _
    have hAll : ∀ entry ∈ pipeline.entries,
        1 ≤ entry.filterId.value.toNat ∧ entry.filterId.value.toNat ≤ 6 := by decide
    exact hAll entry (List.mem_of_getElem? hEntry)
  have hLast : LastBinaryScaled invocation.mask pipeline.entries 0
      ⟨.scaleOffset, .none, none, [1, 0, 0, 9, 9, 9, 9, 9]⟩ := by
    refine ⟨rfl, by decide, ⟨rfl, by decide⟩, ?_⟩
    intro upper hAbove other hOther hSkips hScaled
    match upper, hAbove with
    | 1, _ => exact absurd hSkips (by decide)
    | 2, _ =>
      cases hOther
      cases hScaled.1
  refine ⟨rfl, rfl, hIds, ?_⟩
  intro buffer
  obtain ⟨hRun, -, -⟩ := apply_skipping .standard pipeline invocation buffer
  exact ((hRun rfl rfl hIds).2 _).mpr ⟨0, _, hLast, rfl⟩

end Pipeline

end ChunkFilters
