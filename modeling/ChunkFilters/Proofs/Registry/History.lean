import ChunkFilters.Builtin
import Mathlib.Data.List.Basic
import Mathlib.Data.List.Induction

/-!
# Registries over time

A registry starts empty or with the built-in filters, and then filters are registered and the table
is torn down in any order. What it holds at the end is a matter of that history alone: under each
identifier the filter that was accepted last, as long as no teardown has come after it, or a
built-in one that nothing has touched (`Held`).

* `wellFormed_run`: the table stays in ascending order, every filter in it is in the slot of its own
  identifier, and these identifiers belong to the library;
* `lookup_run`: a filter is found exactly if the history holds it;
* `run_shows`: with both, everything that can be seen of the registry after any history.

Registering a filter under an identifier that does not belong to the library is refused, and is
part of a history like any other operation.
-/

namespace ChunkFilters.Registry

/-! ## Histories -/

inductive Operation where
  | register (filter : Filter)
  | teardown

/-- The registry after an operation, whatever the answer to it. -/
def step (registry : Registry) : Operation → Registry
  | .register filter => (registry.offer filter).1
  | .teardown => registry.teardown

def run (registry : Registry) (history : List Operation) : Registry := history.foldl step registry

theorem run_concat (registry : Registry) (history : List Operation) (operation : Operation) :
    registry.run (history ++ [operation]) = (registry.run history).step operation :=
  List.foldl_concat step registry operation history

/-- The two ways to make a registry. -/
inductive Origin where
  | empty
  | builtin (host : Host)

namespace Origin

def registry : Origin → Registry
  | empty => Registry.empty
  | builtin host => Registry.builtinOn host

/-- The filters that a registry starts with. -/
def filters : Origin → List Filter
  | empty => []
  | builtin host => Filter.builtinOn host

theorem filters_registry (origin : Origin) : origin.registry.filters = origin.filters := by
  cases origin <;> rfl

end Origin

/-! ## What a history holds -/

/-- The operation leaves alone what is registered under an identifier: it is neither a teardown nor
an accepted registration under that identifier. -/
def Operation.Spares (id : FilterId) : Operation → Prop
  | .register filter => filter.id = id → filter.id.isLibraryOwned = false
  | .teardown => False

/-- The filter is registered after a history that started with some filters. -/
inductive Held (initial : List Filter) (history : List Operation) (filter : Filter) : Prop
  /-- It was there from the start. -/
  | initially (hMem : filter ∈ initial)
      (hSpared : ∀ operation ∈ history, operation.Spares filter.id) : Held initial history filter
  /-- It was accepted, and is the last one of its identifier since the last teardown. -/
  | accepted (before after : List Operation)
      (hHistory : history = before ++ .register filter :: after)
      (hOwned : filter.id.isLibraryOwned = true)
      (hSpared : ∀ operation ∈ after, operation.Spares filter.id) : Held initial history filter

theorem held_nil {initial : List Filter} {filter : Filter} :
    Held initial [] filter ↔ filter ∈ initial := by
  constructor
  · rintro (⟨hMem, -⟩ | ⟨before, after, hHistory, -, -⟩)
    · exact hMem
    · exact absurd hHistory (by simp)
  · exact fun hMem => .initially hMem (List.forall_mem_nil _)

/-- The last operation of a history registers a filter or spares it. -/
theorem held_concat {initial : List Filter} {history : List Operation} {operation : Operation}
    {filter : Filter} :
    Held initial (history ++ [operation]) filter ↔
      operation = .register filter ∧ filter.id.isLibraryOwned = true ∨
        operation.Spares filter.id ∧ Held initial history filter := by
  constructor
  · rintro (⟨hMem, hSpared⟩ | ⟨before, after, hHistory, hOwned, hSpared⟩)
    · obtain ⟨hEarlier, hLast⟩ := List.forall_mem_append.mp hSpared
      exact Or.inr ⟨hLast operation List.mem_cons_self, .initially hMem hEarlier⟩
    · rcases List.eq_nil_or_concat' after with rfl | ⟨earlier, last, rfl⟩
      · obtain ⟨-, hLast⟩ := List.append_inj' hHistory rfl
        exact Or.inl ⟨List.head_eq_of_cons_eq hLast, hOwned⟩
      · rw [← List.cons_append, ← List.append_assoc] at hHistory
        obtain ⟨rfl, hLast⟩ := List.append_inj' hHistory rfl
        obtain rfl := List.head_eq_of_cons_eq hLast
        obtain ⟨hEarlier, hLast⟩ := List.forall_mem_append.mp hSpared
        exact Or.inr ⟨hLast operation List.mem_cons_self,
          .accepted before earlier rfl hOwned hEarlier⟩
  · rintro (⟨rfl, hOwned⟩ | ⟨hLast, hHeld⟩)
    · exact .accepted history [] rfl hOwned (List.forall_mem_nil _)
    · have hAlso : ∀ {operations : List Operation},
          (∀ operation ∈ operations, operation.Spares filter.id) →
            ∀ other ∈ operations ++ [operation], other.Spares filter.id := fun hEarlier =>
        List.forall_mem_append.mpr ⟨hEarlier, List.forall_mem_singleton.mpr hLast⟩
      rcases hHeld with ⟨hMem, hSpared⟩ | ⟨before, after, rfl, hOwned, hSpared⟩
      · exact .initially hMem (hAlso hSpared)
      · exact .accepted before (after ++ [operation]) (by simp) hOwned (hAlso hSpared)

/-! ## The table -/

/-- The order is kept, every filter is in the slot of its own identifier, and there are only
identifiers that belong to the library. -/
structure WellFormed (registry : Registry) : Prop where
  ascending : registry.Ascending
  id_eq : ∀ slot ∈ registry.slots, slot.filter.id = slot.id
  owned : ∀ slot ∈ registry.slots, slot.id.isLibraryOwned = true

/-- A registration gives back what it has replaced, or is refused. -/
theorem register_eq (registry : Registry) (filter : Filter) :
    registry.register filter =
      if filter.id.isLibraryOwned then
        .ok (registry.step (.register filter), registry.lookup filter.id)
      else .error (.invalidFilterId filter.id) := by
  rw [register, step]
  cases hOwned : filter.id.isLibraryOwned with
  | true =>
    rw [offer_of_owned hOwned]
    rfl
  | false =>
    rw [offer_of_not_owned hOwned]
    rfl

theorem step_of_not_owned {filter : Filter} (h : filter.id.isLibraryOwned = false)
    (registry : Registry) : registry.step (.register filter) = registry := by
  rw [step, offer_of_not_owned h]

theorem wellFormed_empty : WellFormed empty :=
  ⟨ascending_empty, List.forall_mem_nil _, List.forall_mem_nil _⟩

theorem wellFormed_step {registry : Registry} (h : registry.WellFormed) (operation : Operation) :
    (registry.step operation).WellFormed := by
  cases operation with
  | teardown => exact wellFormed_empty
  | register filter =>
    cases hOwned : filter.id.isLibraryOwned with
    | false =>
      rw [step_of_not_owned hOwned]
      exact h
    | true =>
      have hAscending := ascending_offer h.ascending filter
      rw [step]
      rw [offer_of_owned hOwned] at hAscending ⊢
      refine ⟨hAscending, ?_, ?_⟩
      · intro slot hSlot
        rcases mem_insertSlot hSlot with rfl | hSlot
        · rfl
        · exact h.id_eq slot hSlot
      · intro slot hSlot
        rcases mem_insertSlot hSlot with rfl | hSlot
        · exact hOwned
        · exact h.owned slot hSlot

theorem wellFormed_run {registry : Registry} (h : registry.WellFormed) (history : List Operation) :
    (registry.run history).WellFormed := by
  induction history generalizing registry with
  | nil => exact h
  | cons operation rest ih => exact ih (wellFormed_step h operation)

/-- The built-in filters are registered one by one. -/
theorem wellFormed_origin (origin : Origin) : origin.registry.WellFormed := by
  cases origin with
  | empty => exact wellFormed_empty
  | builtin host =>
    exact wellFormed_run wellFormed_empty ((Filter.builtinOn host).map Operation.register)

/-! ## Looking up -/

/-- No slot stands behind another one of the same identifier. -/
theorem lookup_of_mem {slots : List Slot} (h : Ascending ⟨slots⟩) {slot : Slot}
    (hMem : slot ∈ slots) : lookup ⟨slots⟩ slot.id = some slot.filter := by
  induction slots with
  | nil => cases hMem
  | cons first rest ih =>
    simp only [Ascending, List.map_cons, List.pairwise_cons] at h
    obtain ⟨hFirst, hRest⟩ := h
    rcases List.mem_cons.mp hMem with rfl | hMem
    · rw [lookup, List.find?_cons_of_pos (by simp)]
      rfl
    · have hNe : first.id ≠ slot.id := by
        intro hSame
        have hLt := hFirst slot.id.value (List.mem_map.mpr ⟨slot, hMem, rfl⟩)
        rw [hSame] at hLt
        exact UInt16.lt_irrefl _ hLt
      rw [lookup, List.find?_cons_of_neg (by simpa using hNe)]
      exact ih hRest hMem

theorem lookup_eq_some_iff {registry : Registry} (h : registry.WellFormed) {id : FilterId}
    {filter : Filter} :
    registry.lookup id = some filter ↔ filter ∈ registry.filters ∧ filter.id = id := by
  constructor
  · intro hLookup
    exact ⟨mem_filters_of_lookup hLookup, h.id_eq _ (exists_slot_of_lookup hLookup)⟩
  · rintro ⟨hMem, rfl⟩
    obtain ⟨slot, hSlot, rfl⟩ := List.mem_map.mp hMem
    rw [h.id_eq slot hSlot]
    exact lookup_of_mem h.ascending hSlot

theorem mem_ids_iff (registry : Registry) (id : FilterId) :
    id ∈ registry.ids ↔ ∃ filter, registry.lookup id = some filter := by
  rw [ids, lookup, ← Option.isSome_iff_exists, Option.isSome_map, List.find?_isSome, List.mem_map]
  simp only [beq_iff_eq]

/-- One operation registers a filter, or spares it if it was there. -/
theorem lookup_step (registry : Registry) (operation : Operation) (id : FilterId)
    (filter : Filter) :
    (registry.step operation).lookup id = some filter ↔
      (operation = .register filter ∧ filter.id.isLibraryOwned = true) ∧ filter.id = id ∨
        operation.Spares id ∧ registry.lookup id = some filter := by
  cases operation with
  | teardown => simp [step, teardown, lookup, empty, Operation.Spares]
  | register other =>
    cases hOwned : other.id.isLibraryOwned with
    | false =>
      rw [step_of_not_owned hOwned]
      constructor
      · exact fun hLookup => Or.inr ⟨fun _ => hOwned, hLookup⟩
      · rintro (⟨⟨hSame, hAccepted⟩, -⟩ | ⟨-, hLookup⟩)
        · cases hSame
          rw [hOwned] at hAccepted
          cases hAccepted
        · exact hLookup
    | true =>
      rw [step, lookup_offer hOwned]
      by_cases hId : other.id = id
      · rw [if_pos hId, Option.some.injEq]
        constructor
        · rintro rfl
          exact Or.inl ⟨⟨rfl, hOwned⟩, hId⟩
        · rintro (⟨⟨hSame, -⟩, -⟩ | ⟨hSpares, -⟩)
          · exact Operation.register.inj hSame
          · rw [hSpares hId] at hOwned
            cases hOwned
      · rw [if_neg hId]
        constructor
        · exact fun hLookup => Or.inr ⟨fun hSame => absurd hSame hId, hLookup⟩
        · rintro (⟨⟨hSame, -⟩, hOther⟩ | ⟨-, hLookup⟩)
          · cases hSame
            exact absurd hOther hId
          · exact hLookup

/-- The induction is on the history, from its last operation back. -/
theorem lookup_run (origin : Origin) (history : List Operation) (id : FilterId) (filter : Filter) :
    (origin.registry.run history).lookup id = some filter ↔
      Held origin.filters history filter ∧ filter.id = id := by
  induction history using List.reverseRecOn with
  | nil =>
    rw [held_nil, ← origin.filters_registry]
    exact lookup_eq_some_iff (wellFormed_origin origin)
  | append_singleton history operation ih =>
    rw [run_concat, lookup_step, ih, held_concat]
    constructor
    · rintro (⟨hAccepted, hId⟩ | ⟨hSpares, hHeld, rfl⟩)
      · exact ⟨Or.inl hAccepted, hId⟩
      · exact ⟨Or.inr ⟨hSpares, hHeld⟩, rfl⟩
    · rintro ⟨hAccepted | ⟨hSpares, hHeld⟩, rfl⟩
      · exact Or.inl ⟨hAccepted, rfl⟩
      · exact Or.inr ⟨hSpares, hHeld, rfl⟩

/-! ## Main statement -/

/-- What can be seen of a registry, if it is known which filters it holds. -/
structure Shows (registry : Registry) (held : Filter → Prop) : Prop where
  lookup_eq_some_iff : ∀ id filter,
    registry.lookup id = some filter ↔ held filter ∧ filter.id = id
  /-- A filter is stored in the slot of its own identifier, which belongs to the library, and is
  found there. -/
  stored : ∀ slot ∈ registry.slots, slot.filter.id = slot.id ∧ slot.id.value.toNat ≤ 255 ∧
    registry.lookup slot.id = some slot.filter
  ids_ascending : (registry.ids.map FilterId.value).Pairwise (· < ·)
  mem_ids_iff : ∀ id, id ∈ registry.ids ↔ ∃ filter, registry.lookup id = some filter
  size_eq : registry.size = registry.ids.length
  isEmpty_iff : registry.isEmpty = true ↔ registry.size = 0
  /-- A registration gives back what was found before it. -/
  register_of_le : ∀ filter, filter.id.value.toNat ≤ 255 →
    registry.register filter = .ok (registry.step (.register filter), registry.lookup filter.id)
  /-- A registration that is refused leaves the whole registry as it is. -/
  register_of_ge : ∀ filter, 256 ≤ filter.id.value.toNat →
    registry.register filter = .error (.invalidFilterId filter.id) ∧
      registry.offer filter = (registry, .error (.invalidFilterId filter.id)) ∧
      registry.step (.register filter) = registry

/-- After any history from either origin, the registry shows exactly the filters that the history
holds. -/
theorem run_shows (origin : Origin) (history : List Operation) :
    (origin.registry.run history).Shows (Held origin.filters history) := by
  have hWellFormed := wellFormed_run (wellFormed_origin origin) history
  generalize hRegistry : origin.registry.run history = registry at hWellFormed
  constructor
  · intro id filter
    rw [← hRegistry]
    exact lookup_run origin history id filter
  · intro slot hSlot
    have hOwned := slot.id.isLibraryOwned_iff.mp (hWellFormed.owned slot hSlot)
    exact ⟨hWellFormed.id_eq slot hSlot, Nat.le_of_lt_succ hOwned,
      lookup_of_mem hWellFormed.ascending hSlot⟩
  · rw [ids, List.map_map]
    exact hWellFormed.ascending
  · exact registry.mem_ids_iff
  · exact (List.length_map _).symm
  · rw [isEmpty, size, List.isEmpty_iff, List.length_eq_zero_iff]
  · intro filter hLe
    rw [register_eq, if_pos (filter.id.isLibraryOwned_iff.mpr (Nat.lt_succ_of_le hLe))]
  · intro filter hGe
    have hOwned : filter.id.isLibraryOwned = false := by
      rw [Bool.eq_false_iff]
      intro hOwned
      have hLt := filter.id.isLibraryOwned_iff.mp hOwned
      omega
    refine ⟨?_, offer_of_not_owned hOwned registry, step_of_not_owned hOwned registry⟩
    rw [register_eq, if_neg (Bool.eq_false_iff.mp hOwned)]

end ChunkFilters.Registry
