import ChunkFilters.Pipeline.Json
import ChunkFilters.Proofs.Json.Printing

/-!
# The JSON values of an entry

Which JSON values stand for an entry is said without regard for how they are read (`WrittenAs`): an
object with the members of the entry in any order, where those with a default value may be left out
and others may be added, or the array of their values.

* `addMembers_of_brings`: an object is read key by key, by what its members have under each key, so
  their order plays no part;
* `ofJson?_of_writtenAs`: every value that stands for an entry is read as this entry;
* `exists_writes`: the compact text of an entry spells one of these values.
-/

namespace ChunkFilters.Entry

open Json

/-! ## Values that stand for an entry -/

/-- The keys that have a meaning in an entry. -/
def keys : List String := ["filter_id", "flags", "name", "client_params"]

def idJson (entry : Entry) : Json := .natural entry.filterId.value.toNat

def flagsJson (entry : Entry) : Json := .natural entry.flags.bits.toNat

def nameJson (entry : Entry) : Json :=
  match entry.name with
  | some name => .string (some name)
  | none => .null

def paramsJson (entry : Entry) : Json :=
  .array (entry.params.map fun param => .natural param.toNat)

/-- The member is there, or is left out as it has its default value. -/
inductive Optional (hasDefault : Prop) (member : Option String × Json) : Members → Prop where
  | present : Optional hasDefault member [member]
  | absent (h : hasDefault) : Optional hasDefault member []

/-- The value stands for the entry. -/
inductive WrittenAs (entry : Entry) : Json → Prop where
  | object {flags name params others members : Members}
      (hFlags : Optional (entry.flags = .none) (some "flags", entry.flagsJson) flags)
      (hName : Optional (entry.name = none) (some "name", entry.nameJson) name)
      (hParams : Optional (entry.params = []) (some "client_params", entry.paramsJson) params)
      (hOthers : ∀ member ∈ others, ∃ key, member.1 = some key ∧ key ∉ keys)
      (hMembers : members.Perm
        ((some "filter_id", entry.idJson) :: (flags ++ name ++ params ++ others))) :
      WrittenAs entry (.object members)
  | positional :
      WrittenAs entry (.array [entry.idJson, entry.flagsJson, entry.nameJson, entry.paramsJson])

/-! ## Single values -/

theorem idOfJson?_idJson (entry : Entry) : idOfJson? entry.idJson = some entry.filterId := by
  rw [idJson, idOfJson?, if_pos entry.filterId.value.toNat_lt_size, UInt16.ofNat_toNat]

theorem flagsOfJson?_flagsJson (entry : Entry) :
    flagsOfJson? entry.flagsJson = some entry.flags := by
  rw [flagsJson, flagsOfJson?, if_pos entry.flags.bits.isLt, BitVec.ofNat_toNat, BitVec.setWidth_eq]

theorem nameOfJson?_nameJson (entry : Entry) : nameOfJson? entry.nameJson = some entry.name := by
  rw [nameJson]
  cases entry.name <;> rfl

theorem paramOfJson?_natural (param : UInt32) :
    paramOfJson? (.natural param.toNat) = some param := by
  rw [paramOfJson?, if_pos param.toNat_lt_size, UInt32.ofNat_toNat]

theorem paramsOfJson?_paramsJson (entry : Entry) :
    paramsOfJson? entry.paramsJson = some entry.params := by
  rw [paramsJson, paramsOfJson?]
  induction entry.params with
  | nil => rfl
  | cons param params ih =>
    rw [List.map_cons, List.mapM_cons, paramOfJson?_natural, ih]
    rfl

/-! ## Members by key -/

/-- The values that members have under a key. -/
def valuesOf (key : String) (members : Members) : List Json :=
  (members.filter fun member => member.1 = some key).map Prod.snd

theorem valuesOf_cons_self (key : String) (value : Json) (members : Members) :
    valuesOf key ((some key, value) :: members) = value :: valuesOf key members := by
  simp [valuesOf]

theorem valuesOf_cons_of_ne {key other : String} (h : other ≠ key) (value : Json)
    (members : Members) : valuesOf key ((some other, value) :: members) = valuesOf key members := by
  simp [valuesOf, h]

/-- What the values under a key make of what was given for it before. A second value is refused. -/
inductive Brings {α : Type} (parse : Json → Option α) : Option α → List Json → Option α → Prop where
  | keep (before : Option α) : Brings parse before [] before
  | take {value : Json} {now : α} (h : parse value = some now) :
      Brings parse none [value] (some now)

theorem Brings.eq_of_nil {α : Type} {parse : Json → Option α} {before after : Option α}
    (h : Brings parse before [] after) : before = after := by
  cases h
  rfl

theorem Brings.cons {α : Type} {parse : Json → Option α} {before after : Option α} {value : Json}
    {rest : List Json} (h : Brings parse before (value :: rest) after) :
    ∃ now, once before (parse value) = some now ∧ Brings parse (some now) rest after := by
  cases h with
  | take hParse => exact ⟨_, hParse, .keep _⟩

theorem Brings.of_perm {α : Type} {parse : Json → Option α} {before after : Option α}
    {values others : List Json} (h : Brings parse before values after)
    (hPerm : others.Perm values) : Brings parse before others after := by
  cases h with
  | keep =>
    rw [hPerm.eq_nil]
    exact .keep _
  | take hParse =>
    rw [List.perm_singleton.mp hPerm]
    exact .take hParse

/-- What members make of what was given before, key by key. -/
structure BringsAll (given : Given) (members : Members) (last : Given) : Prop where
  isSome_key : ∀ member ∈ members, member.1.isSome = true
  filterId : Brings idOfJson? given.filterId (valuesOf "filter_id" members) last.filterId
  flags : Brings flagsOfJson? given.flags (valuesOf "flags" members) last.flags
  name : Brings nameOfJson? given.name (valuesOf "name" members) last.name
  params : Brings paramsOfJson? given.params (valuesOf "client_params" members) last.params

theorem addMember_of_not_mem {key : String} (h : key ∉ keys) (given : Given) (value : Json) :
    given.addMember (some key) value = some given := by
  simp only [keys, List.mem_cons, List.not_mem_nil, or_false, not_or] at h
  obtain ⟨hId, hFlags, hName, hParams⟩ := h
  unfold Given.addMember
  split <;> simp_all

theorem addMembers_of_brings {given last : Given} {members : Members}
    (h : BringsAll given members last) : given.addMembers members = some last := by
  induction members generalizing given with
  | nil =>
    have hSame : given = last := by
      cases given
      cases last
      congr
      · exact h.filterId.eq_of_nil
      · exact h.flags.eq_of_nil
      · exact h.name.eq_of_nil
      · exact h.params.eq_of_nil
    rw [hSame]
    rfl
  | cons member members ih =>
    obtain ⟨key?, value⟩ := member
    obtain ⟨hKeys, hId, hFlags, hName, hParams⟩ := h
    obtain ⟨hKey, hRest⟩ := List.forall_mem_cons.mp hKeys
    obtain ⟨key, rfl⟩ := Option.isSome_iff_exists.mp hKey
    rw [Given.addMembers]
    by_cases hKnown : key ∈ keys
    · simp only [keys, List.mem_cons, List.not_mem_nil, or_false] at hKnown
      rcases hKnown with rfl | rfl | rfl | rfl
      · rw [valuesOf_cons_self] at hId
        rw [valuesOf_cons_of_ne (by decide)] at hFlags hName hParams
        obtain ⟨id, hOnce, hId⟩ := hId.cons
        rw [Given.addMember, hOnce]
        exact ih ⟨hRest, hId, hFlags, hName, hParams⟩
      · rw [valuesOf_cons_self] at hFlags
        rw [valuesOf_cons_of_ne (by decide)] at hId hName hParams
        obtain ⟨flags, hOnce, hFlags⟩ := hFlags.cons
        rw [Given.addMember, hOnce]
        exact ih ⟨hRest, hId, hFlags, hName, hParams⟩
      · rw [valuesOf_cons_self] at hName
        rw [valuesOf_cons_of_ne (by decide)] at hId hFlags hParams
        obtain ⟨name, hOnce, hName⟩ := hName.cons
        rw [Given.addMember, hOnce]
        exact ih ⟨hRest, hId, hFlags, hName, hParams⟩
      · rw [valuesOf_cons_self] at hParams
        rw [valuesOf_cons_of_ne (by decide)] at hId hFlags hName
        obtain ⟨params, hOnce, hParams⟩ := hParams.cons
        rw [Given.addMember, hOnce]
        exact ih ⟨hRest, hId, hFlags, hName, hParams⟩
    · have hNe : ∀ other ∈ keys, key ≠ other := by
        rintro other hOther rfl
        exact hKnown hOther
      rw [valuesOf_cons_of_ne (hNe _ (by decide))] at hId hFlags hName hParams
      rw [addMember_of_not_mem hKnown]
      exact ih ⟨hRest, hId, hFlags, hName, hParams⟩

/-! ## Whole entries -/

theorem valuesOf_append (key : String) (first second : Members) :
    valuesOf key (first ++ second) = valuesOf key first ++ valuesOf key second := by
  rw [valuesOf, List.filter_append, List.map_append]
  rfl

theorem valuesOf_of_others {others : Members}
    (h : ∀ member ∈ others, ∃ key, member.1 = some key ∧ key ∉ keys) {key : String}
    (hKey : key ∈ keys) : valuesOf key others = [] := by
  rw [valuesOf, List.map_eq_nil_iff, List.filter_eq_nil_iff]
  intro member hMember hSame
  obtain ⟨other, hOther, hUnknown⟩ := h member hMember
  rw [hOther, decide_eq_true_eq] at hSame
  exact hUnknown (Option.some.inj hSame ▸ hKey)

theorem Optional.valuesOf_of_ne {hasDefault : Prop} {key other : String} {value : Json}
    {members : Members} (h : Optional hasDefault (some other, value) members)
    (hNe : other ≠ key) : valuesOf key members = [] := by
  cases h with
  | present => exact valuesOf_cons_of_ne hNe value []
  | absent _ => rfl

theorem Optional.eq_of_mem {hasDefault : Prop} {member other : Option String × Json}
    {members : Members} (h : Optional hasDefault member members) (hMem : other ∈ members) :
    other = member := by
  cases h with
  | present => exact List.mem_singleton.mp hMem
  | absent _ => cases hMem

/-- A member that is there brings its value, and one that is left out brings nothing. -/
theorem Optional.exists_brings {α : Type} {parse : Json → Option α} {hasDefault : Prop}
    {key : String} {value : Json} {members : Members} {now : α}
    (h : Optional hasDefault (some key, value) members) (hParse : parse value = some now) :
    ∃ after, Brings parse none (valuesOf key members) after ∧
      ∀ default, (hasDefault → now = default) → after.getD default = now := by
  cases h with
  | present =>
    refine ⟨some now, ?_, fun _ _ => rfl⟩
    rw [valuesOf_cons_self]
    exact .take hParse
  | absent hDefault =>
    refine ⟨none, .keep none, ?_⟩
    intro default hNow
    exact (hNow hDefault).symm

section
variable {entry : Entry} {flags name params others : Members}
  (hFlags : Optional (entry.flags = .none) (some "flags", entry.flagsJson) flags)
  (hName : Optional (entry.name = none) (some "name", entry.nameJson) name)
  (hParams : Optional (entry.params = []) (some "client_params", entry.paramsJson) params)
  (hOthers : ∀ member ∈ others, ∃ key, member.1 = some key ∧ key ∉ keys)
include hFlags hName hParams hOthers

theorem isSome_key_of_mem {member : Option String × Json}
    (h : member ∈ (some "filter_id", entry.idJson) :: (flags ++ name ++ params ++ others)) :
    member.1.isSome = true := by
  simp only [List.mem_cons, List.mem_append] at h
  rcases h with rfl | (((hMem | hMem) | hMem) | hMem)
  · rfl
  · rw [hFlags.eq_of_mem hMem]
    rfl
  · rw [hName.eq_of_mem hMem]
    rfl
  · rw [hParams.eq_of_mem hMem]
    rfl
  · obtain ⟨key, hKey, -⟩ := hOthers member hMem
    rw [hKey]
    rfl

/-- Every key has its own values, whatever the other members. -/
theorem valuesOf_object :
    let members := (some "filter_id", entry.idJson) :: (flags ++ name ++ params ++ others)
    valuesOf "filter_id" members = [entry.idJson] ∧
      valuesOf "flags" members = valuesOf "flags" flags ∧
      valuesOf "name" members = valuesOf "name" name ∧
      valuesOf "client_params" members = valuesOf "client_params" params := by
  have hId := valuesOf_of_others hOthers (show "filter_id" ∈ keys by decide)
  have hFlagsOthers := valuesOf_of_others hOthers (show "flags" ∈ keys by decide)
  have hNameOthers := valuesOf_of_others hOthers (show "name" ∈ keys by decide)
  have hParamsOthers := valuesOf_of_others hOthers (show "client_params" ∈ keys by decide)
  refine ⟨?_, ?_, ?_, ?_⟩
  · simp [valuesOf_append, valuesOf_cons_self, hFlags.valuesOf_of_ne, hName.valuesOf_of_ne,
      hParams.valuesOf_of_ne, hId]
  · simp [valuesOf_append, valuesOf_cons_of_ne, hName.valuesOf_of_ne, hParams.valuesOf_of_ne,
      hFlagsOthers]
  · simp [valuesOf_append, valuesOf_cons_of_ne, hFlags.valuesOf_of_ne, hParams.valuesOf_of_ne,
      hNameOthers]
  · simp [valuesOf_append, valuesOf_cons_of_ne, hFlags.valuesOf_of_ne, hName.valuesOf_of_ne,
      hParamsOthers]

end

theorem ofJson?_of_writtenAs {entry : Entry} {value : Json} (h : entry.WrittenAs value) :
    ofJson? value = some entry := by
  cases h with
  | positional =>
    rw [ofJson?, Given.ofItems?, idOfJson?_idJson, flagsOfJson?_flagsJson, nameOfJson?_nameJson,
      paramsOfJson?_paramsJson]
    rfl
  | @object flags name params others members hFlags hName hParams hOthers hMembers =>
    obtain ⟨flagsAfter, hFlagsBrings, hFlagsAfter⟩ :=
      hFlags.exists_brings (flagsOfJson?_flagsJson entry)
    obtain ⟨nameAfter, hNameBrings, hNameAfter⟩ := hName.exists_brings (nameOfJson?_nameJson entry)
    obtain ⟨paramsAfter, hParamsBrings, hParamsAfter⟩ :=
      hParams.exists_brings (paramsOfJson?_paramsJson entry)
    obtain ⟨hIdValues, hFlagsValues, hNameValues, hParamsValues⟩ :=
      valuesOf_object hFlags hName hParams hOthers
    have hIdBrings := Brings.take (idOfJson?_idJson entry)
    rw [← hIdValues] at hIdBrings
    rw [← hFlagsValues] at hFlagsBrings
    rw [← hNameValues] at hNameBrings
    rw [← hParamsValues] at hParamsBrings
    have hValues : ∀ key, (valuesOf key members).Perm (valuesOf key
        ((some "filter_id", entry.idJson) :: (flags ++ name ++ params ++ others))) := fun key =>
      (hMembers.filter _).map _
    have hBrings : BringsAll {} members
        ⟨some entry.filterId, flagsAfter, nameAfter, paramsAfter⟩ := by
      refine ⟨?_, hIdBrings.of_perm (hValues _), hFlagsBrings.of_perm (hValues _),
        hNameBrings.of_perm (hValues _), hParamsBrings.of_perm (hValues _)⟩
      intro member hMember
      exact isSome_key_of_mem hFlags hName hParams hOthers (hMembers.mem_iff.mp hMember)
    rw [ofJson?, addMembers_of_brings hBrings, Option.bind_some, Given.entry?, Option.map_some,
      hFlagsAfter .none id, hNameAfter none id, hParamsAfter [] id]

/-! ## Compact text -/

theorem writes_paramsJson (entry : Entry) :
    Writes entry.paramsJson
      (Text.array (entry.params.map fun param => Text.natural param.toNat)) := by
  apply writes_array
  rw [List.forall₂_map_left_iff, List.forall₂_map_right_iff, List.forall₂_same]
  exact fun param _ => writes_natural param.toNat

/-- The compact text spells an object in which only a missing name is left out. -/
theorem exists_writes (entry : Entry) :
    ∃ value, entry.WrittenAs value ∧ Writes value entry.toJsonText := by
  have hId : WritesMember (some "filter_id", entry.idJson) _ := .member _ (writes_natural _)
  have hFlags : WritesMember (some "flags", entry.flagsJson) _ := .member _ (writes_natural _)
  have hParams : WritesMember (some "client_params", entry.paramsJson) _ :=
    .member _ entry.writes_paramsJson
  have hOthers : ∀ member ∈ ([] : Members), ∃ key, member.1 = some key ∧ key ∉ keys :=
    List.forall_mem_nil _
  unfold toJsonText
  cases hName : entry.name with
  | none =>
    refine ⟨_, .object .present (.absent hName) .present hOthers (.refl _), ?_⟩
    exact writes_object (.cons hId (.cons hFlags (.cons hParams .nil)))
  | some name =>
    have hNameJson : entry.nameJson = .string (some name) := by rw [nameJson, hName]
    have hWrites : WritesMember (some "name", entry.nameJson) _ :=
      .member _ (hNameJson ▸ writes_quoted name)
    refine ⟨_, .object .present .present .present hOthers (.refl _), ?_⟩
    exact writes_object (.cons hId (.cons hFlags (.cons hWrites (.cons hParams .nil))))

end ChunkFilters.Entry
