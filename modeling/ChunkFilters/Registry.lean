import ChunkFilters.Filter
import ChunkFilters.Plugin

/-!
# Registries

A registry is a table of filters by identifier, kept in ascending order. A filter is stored in the
slot of its own identifier and replaces the one that was there; only identifiers that belong to the
library can be registered. The table is searched by the identifiers of the slots, never by those of
the filters in them. The laws stated here say what `lookup` finds after `register`, and that the
order is kept (`Ascending`).
-/

namespace ChunkFilters

namespace Registry

/-- A place in the table. -/
structure Slot where
  id : FilterId
  filter : Filter

end Registry

structure Registry where
  slots : List Registry.Slot := []

namespace Registry

/-! ## Operations -/

def empty : Registry := {}

/-- Puts a slot in its place among slots in ascending order, instead of one with the same
identifier. -/
def insertSlot (slot : Slot) : List Slot → List Slot
  | [] => [slot]
  | first :: rest =>
    if slot.id.value < first.id.value then slot :: first :: rest
    else if slot.id = first.id then slot :: rest
    else first :: insertSlot slot rest

def lookup (registry : Registry) (id : FilterId) : Option Filter :=
  (registry.slots.find? fun slot => slot.id == id).map Slot.filter

/-- The registry after a filter has been offered to it, and the answer: the filter that was
replaced, or why the offer was refused. -/
def offer (registry : Registry) (filter : Filter) :
    Registry × Except RegistryError (Option Filter) :=
  let id := filter.id
  if id.isLibraryOwned then
    (⟨insertSlot ⟨id, filter⟩ registry.slots⟩, .ok (registry.lookup id))
  else (registry, .error (.invalidFilterId id))

/-- The registry with a filter added, and the filter that it replaces. -/
def register (registry : Registry) (filter : Filter) :
    Except RegistryError (Registry × Option Filter) :=
  let (offered, answer) := registry.offer filter
  answer.map fun replaced => (offered, replaced)

def teardown (_ : Registry) : Registry := empty

/-- The filters in the table, in the order of their slots. -/
def filters (registry : Registry) : List Filter := registry.slots.map Slot.filter

/-- The registered identifiers, in ascending order. -/
def ids (registry : Registry) : List FilterId := registry.slots.map Slot.id

def size (registry : Registry) : Nat := registry.slots.length

def isEmpty (registry : Registry) : Bool := registry.slots.isEmpty

/-- The registry of the filters that plugins create. A plugin that creates a filter for another
identifier than its own is passed over, and one that cannot be registered is refused. -/
def ofPlugins (plugins : List (Plugin Filter)) : Registry :=
  plugins.foldl (fun registry plugin =>
    let filter := plugin.create ()
    if plugin.isFor filter.id then (registry.offer filter).1 else registry) empty

/-! ## Laws -/

/-- The identifiers are in strictly ascending order. -/
def Ascending (registry : Registry) : Prop :=
  (registry.slots.map fun slot => slot.id.value).Pairwise (· < ·)

theorem ascending_empty : Ascending empty := List.Pairwise.nil

theorem mem_insertSlot {slot other : Slot} {slots : List Slot}
    (h : other ∈ insertSlot slot slots) : other = slot ∨ other ∈ slots := by
  induction slots with
  | nil => exact Or.inl (List.mem_singleton.mp h)
  | cons first rest ih =>
    simp only [insertSlot] at h
    split at h
    · exact List.mem_cons.mp h
    · split at h
      · rcases List.mem_cons.mp h with h | h
        · exact Or.inl h
        · exact Or.inr (List.mem_cons_of_mem _ h)
      · rcases List.mem_cons.mp h with h | h
        · exact Or.inr (h ▸ List.mem_cons_self)
        · rcases ih h with h | h
          · exact Or.inl h
          · exact Or.inr (List.mem_cons_of_mem _ h)

theorem ascending_insertSlot (slot : Slot) (slots : List Slot)
    (h : Ascending ⟨slots⟩) : Ascending ⟨insertSlot slot slots⟩ := by
  induction slots with
  | nil => exact List.pairwise_singleton _ _
  | cons first rest ih =>
    simp only [Ascending, List.map_cons, List.pairwise_cons] at h ih ⊢
    obtain ⟨hFirst, hRest⟩ := h
    simp only [insertSlot]
    split
    · next hLt =>
      simp only [List.map_cons, List.pairwise_cons]
      refine ⟨?_, hFirst, hRest⟩
      intro value hValue
      rcases List.mem_cons.mp hValue with rfl | hValue
      · exact hLt
      · exact UInt16.lt_trans hLt (hFirst value hValue)
    · next hNotLt =>
      split
      · next hEq => simpa only [List.map_cons, List.pairwise_cons, hEq] using ⟨hFirst, hRest⟩
      · next hNe =>
        simp only [List.map_cons, List.pairwise_cons]
        refine ⟨?_, ih hRest⟩
        intro value hValue
        obtain ⟨other, hOther, rfl⟩ := List.mem_map.mp hValue
        rcases mem_insertSlot hOther with rfl | hOther
        · have hValueNe : first.id.value ≠ other.id.value := fun hEq =>
            hNe (by cases hO : other.id; cases hF : first.id; simp_all)
          exact UInt16.lt_of_le_of_ne (UInt16.not_lt.mp hNotLt) hValueNe
        · exact hFirst _ (List.mem_map.mpr ⟨other, hOther, rfl⟩)

theorem offer_of_owned {filter : Filter} (h : filter.id.isLibraryOwned = true)
    (registry : Registry) :
    registry.offer filter =
      (⟨insertSlot ⟨filter.id, filter⟩ registry.slots⟩, .ok (registry.lookup filter.id)) :=
  if_pos h

theorem offer_of_not_owned {filter : Filter} (h : filter.id.isLibraryOwned = false)
    (registry : Registry) :
    registry.offer filter = (registry, .error (.invalidFilterId filter.id)) :=
  if_neg (Bool.eq_false_iff.mp h)

theorem ascending_offer {registry : Registry} (hAscending : registry.Ascending) (filter : Filter) :
    (registry.offer filter).1.Ascending := by
  unfold offer
  dsimp only
  split
  · exact ascending_insertSlot _ registry.slots hAscending
  · exact hAscending

theorem exists_slot_of_lookup {registry : Registry} {id : FilterId} {filter : Filter}
    (h : registry.lookup id = some filter) : ⟨id, filter⟩ ∈ registry.slots := by
  obtain ⟨slot, hFind, rfl⟩ := Option.map_eq_some_iff.mp h
  have hId : slot.id = id := eq_of_beq (List.find?_some hFind :)
  exact hId ▸ List.mem_of_find?_eq_some hFind

theorem mem_filters_of_lookup {registry : Registry} {id : FilterId} {filter : Filter}
    (h : registry.lookup id = some filter) : filter ∈ registry.filters :=
  List.mem_map_of_mem (exists_slot_of_lookup h)

theorem lookup_insertSlot_self (slot : Slot) (slots : List Slot) :
    lookup ⟨insertSlot slot slots⟩ slot.id = some slot.filter := by
  induction slots with
  | nil => simp [lookup, insertSlot]
  | cons first rest ih =>
    simp only [lookup, insertSlot] at ih ⊢
    split
    · simp
    · split
      · simp
      · next hNe => simp [Ne.symm hNe, ih]

theorem lookup_insertSlot_of_ne {slot : Slot} {id : FilterId} (h : slot.id ≠ id)
    (slots : List Slot) : lookup ⟨insertSlot slot slots⟩ id = lookup ⟨slots⟩ id := by
  induction slots with
  | nil => simp [lookup, insertSlot, h]
  | cons first rest ih =>
    simp only [lookup, insertSlot] at ih ⊢
    split
    · simp [h]
    · split
      · next hEq => simp [h, ← hEq]
      · simp only [List.find?_cons]
        split
        · rfl
        · exact ih

/-- A filter that was accepted is found under its own identifier, and nothing else has changed. -/
theorem lookup_offer {filter : Filter} (h : filter.id.isLibraryOwned = true) (registry : Registry)
    (id : FilterId) :
    (registry.offer filter).1.lookup id =
      if filter.id = id then some filter else registry.lookup id := by
  rw [offer_of_owned h]
  split
  · next hEq => exact hEq ▸ lookup_insertSlot_self ⟨filter.id, filter⟩ registry.slots
  · next hNe => exact lookup_insertSlot_of_ne hNe registry.slots

end Registry

end ChunkFilters
