import ChunkFilters.Proofs.Pipeline.PlainLoop

/-!
# Looking up the filters of a pipeline

Every filter is looked up before one is undone. `stagesFrom` either finds all filters that the mask
does not skip, in the order of their entries, or reports the first that is missing.

* `stagesFrom_eq_ok`: the stages are those of the entries that are not skipped, with their filters;
* `stagesFrom_eq_error`: the entry that is reported has no filter, and all before it have;
* `stagesFrom_congr`: entries that are skipped are not looked at.
-/

namespace ChunkFilters.Pipeline

/-- The stage is that of one of the entries from `start` on. -/
structure Stage.Of (registry : Registry) (mask : FilterMask) (start : Nat) (entries : List Entry)
    (stage : Stage) : Prop where
  start_le : start ≤ stage.index
  entry_eq : entries[stage.index - start]? = some stage.entry
  skips_eq : mask.skips stage.index = false
  lookup_eq : registry.lookup stage.entry.filterId = some stage.filter

theorem Stage.Of.cons {registry : Registry} {mask : FilterMask} {start : Nat}
    {entries : List Entry} {stage : Stage} (h : stage.Of registry mask (start + 1) entries)
    (first : Entry) : stage.Of registry mask start (first :: entries) where
  start_le := Nat.le_of_succ_le h.start_le
  entry_eq := by
    have hStart := h.start_le
    have hIndex : stage.index - start = stage.index - (start + 1) + 1 := by omega
    rw [hIndex, List.getElem?_cons_succ, h.entry_eq]
  skips_eq := h.skips_eq
  lookup_eq := h.lookup_eq

/-- The indices from `start` on, `count` of them, that the mask does not skip. -/
def undoneFrom (mask : FilterMask) (start count : Nat) : List Nat :=
  (List.range' start count).filter fun index => !mask.skips index

theorem stagesFrom_eq_ok {registry : Registry} {mask : FilterMask} {start : Nat}
    {entries : List Entry} {stages : List Stage}
    (h : stagesFrom registry mask start entries = .ok stages) :
    stages.map Stage.index = undoneFrom mask start entries.length ∧
      ∀ stage ∈ stages, stage.Of registry mask start entries := by
  induction entries generalizing start stages with
  | nil =>
    cases h
    exact ⟨rfl, List.forall_mem_nil _⟩
  | cons first rest ih =>
    have hRange : List.range' start (first :: rest).length =
        start :: List.range' (start + 1) rest.length := List.range'_succ
    rw [undoneFrom, hRange, List.filter_cons]
    rw [stagesFrom] at h
    by_cases hSkips : mask.skips start = true
    · rw [if_pos hSkips] at h
      rw [hSkips]
      obtain ⟨hIndices, hStages⟩ := ih h
      exact ⟨hIndices, fun stage hStage => (hStages stage hStage).cons first⟩
    · have hUnmasked : mask.skips start = false := Bool.eq_false_iff.mpr hSkips
      rw [if_neg hSkips] at h
      rw [hUnmasked]
      cases hLookup : registry.lookup first.filterId with
      | none =>
        rw [hLookup] at h
        cases h
      | some filter =>
        rw [hLookup] at h
        cases hRest : stagesFrom registry mask (start + 1) rest with
        | error error =>
          rw [hRest] at h
          cases h
        | ok others =>
          rw [hRest] at h
          cases h
          obtain ⟨hIndices, hStages⟩ := ih hRest
          constructor
          · rw [List.map_cons, hIndices]
            rfl
          · intro stage hStage
            rcases List.mem_cons.mp hStage with rfl | hStage
            · refine ⟨Nat.le_refl start, ?_, hUnmasked, hLookup⟩
              rw [Nat.sub_self]
              rfl
            · exact (hStages stage hStage).cons first

/-- The entry at `index` is the first that is to be undone and has no filter. -/
structure FirstMissing (registry : Registry) (mask : FilterMask) (start : Nat)
    (entries : List Entry) (index : Nat) (entry : Entry) : Prop where
  entry_eq : entries[index]? = some entry
  skips_eq : mask.skips (start + index) = false
  lookup_eq : registry.lookup entry.filterId = none
  isSome_below : ∀ lower < index, ∀ other, entries[lower]? = some other →
    mask.skips (start + lower) = false → (registry.lookup other.filterId).isSome = true

/-- An entry that is skipped or has a filter can be put in front. -/
theorem FirstMissing.cons {registry : Registry} {mask : FilterMask} {start : Nat}
    {entries : List Entry} {index : Nat} {entry : Entry}
    (h : FirstMissing registry mask (start + 1) entries index entry) {first : Entry}
    (hFirst : mask.skips start = false → (registry.lookup first.filterId).isSome = true) :
    FirstMissing registry mask start (first :: entries) (index + 1) entry where
  entry_eq := h.entry_eq
  skips_eq := by
    rw [← Nat.succ_add_eq_add_succ]
    exact h.skips_eq
  lookup_eq := h.lookup_eq
  isSome_below := by
    intro lower hLower other hOther hSkips
    cases lower with
    | zero =>
      cases hOther
      exact hFirst hSkips
    | succ lower =>
      rw [← Nat.succ_add_eq_add_succ] at hSkips
      exact h.isSome_below lower (Nat.lt_of_succ_lt_succ hLower) other hOther hSkips

theorem stagesFrom_eq_error {registry : Registry} {mask : FilterMask} {start : Nat}
    {entries : List Entry} {error : PipelineError}
    (h : stagesFrom registry mask start entries = .error error) :
    ∃ index entry, FirstMissing registry mask start entries index entry ∧
      error = .unregisteredFilter (start + index) entry.filterId := by
  induction entries generalizing start with
  | nil => cases h
  | cons first rest ih =>
    -- The error of the entries behind the first, which is skipped or has a filter.
    have hBehind : stagesFrom registry mask (start + 1) rest = .error error →
        (mask.skips start = false → (registry.lookup first.filterId).isSome = true) →
          ∃ index entry, FirstMissing registry mask start (first :: rest) index entry ∧
            error = .unregisteredFilter (start + index) entry.filterId := by
      intro hRest hFirst
      obtain ⟨index, entry, hMissing, rfl⟩ := ih hRest
      refine ⟨index + 1, entry, hMissing.cons hFirst, ?_⟩
      rw [Nat.add_assoc, Nat.add_comm 1 index]
    rw [stagesFrom] at h
    by_cases hSkips : mask.skips start = true
    · rw [if_pos hSkips] at h
      apply hBehind h
      intro hUnmasked
      rw [hSkips] at hUnmasked
      cases hUnmasked
    · rw [if_neg hSkips] at h
      cases hLookup : registry.lookup first.filterId with
      | none =>
        rw [hLookup] at h
        cases h
        refine ⟨0, first, ⟨rfl, Bool.eq_false_iff.mpr hSkips, hLookup, ?_⟩, rfl⟩
        intro lower hLower
        exact absurd hLower (Nat.not_lt_zero lower)
      | some filter =>
        rw [hLookup] at h
        cases hRest : stagesFrom registry mask (start + 1) rest with
        | error other =>
          rw [hRest] at h
          cases h
          apply hBehind hRest
          intro _
          rw [hLookup]
          rfl
        | ok stages =>
          rw [hRest] at h
          cases h

/-! ## Whole pipelines -/

/-- Filters that have been found are there. -/
theorem registered_of_stagesFrom {registry : Registry} {mask : FilterMask} {entries : List Entry}
    {stages : List Stage} (h : stagesFrom registry mask 0 entries = .ok stages) :
    Registered registry mask entries := by
  intro index entry hEntry hSkips
  obtain ⟨hIndices, hStages⟩ := stagesFrom_eq_ok h
  have hLength : index < entries.length := (List.getElem?_eq_some_iff.mp hEntry).1
  have hMem : index ∈ stages.map Stage.index := by
    rw [hIndices, undoneFrom, List.mem_filter, List.mem_range'_1, hSkips]
    exact ⟨⟨Nat.zero_le index, by omega⟩, rfl⟩
  obtain ⟨stage, hStage, rfl⟩ := List.mem_map.mp hMem
  have hOf := hStages stage hStage
  have hSame : some stage.entry = some entry := by
    rw [← hOf.entry_eq, ← hEntry, Nat.sub_zero]
  rw [← Option.some.inj hSame, hOf.lookup_eq]
  rfl

theorem exists_stages_of_registered {registry : Registry} {mask : FilterMask}
    {entries : List Entry} (h : Registered registry mask entries) :
    ∃ stages, stagesFrom registry mask 0 entries = .ok stages := by
  cases hStages : stagesFrom registry mask 0 entries with
  | ok stages => exact ⟨stages, rfl⟩
  | error error =>
    obtain ⟨index, entry, hMissing, -⟩ := stagesFrom_eq_error hStages
    have hSome := h index entry hMissing.entry_eq (by
      rw [← Nat.zero_add index]
      exact hMissing.skips_eq)
    rw [hMissing.lookup_eq] at hSome
    cases hSome

/-- Entries that are skipped may be any. -/
theorem stagesFrom_congr {registry : Registry} {mask : FilterMask} {start : Nat}
    {first second : List Entry} (hLength : first.length = second.length)
    (h : ∀ index, mask.skips (start + index) = false → first[index]? = second[index]?) :
    stagesFrom registry mask start first = stagesFrom registry mask start second := by
  induction first generalizing start second with
  | nil =>
    rw [List.length_eq_zero_iff.mp hLength.symm]
  | cons entry rest ih =>
    cases second with
    | nil => cases hLength
    | cons other others =>
      have hRest : stagesFrom registry mask (start + 1) rest =
          stagesFrom registry mask (start + 1) others := by
        apply ih (Nat.succ.inj hLength)
        intro index hSkips
        rw [Nat.succ_add_eq_add_succ] at hSkips
        exact h (index + 1) hSkips
      rw [stagesFrom, stagesFrom, hRest]
      by_cases hSkips : mask.skips start = true
      · rw [if_pos hSkips, if_pos hSkips]
      · have hSame : entry = other := Option.some.inj (h 0 (Bool.eq_false_iff.mpr hSkips))
        rw [hSame]

end ChunkFilters.Pipeline
