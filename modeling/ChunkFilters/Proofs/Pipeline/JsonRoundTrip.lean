import ChunkFilters.Proofs.Pipeline.EntryJson

/-!
# Pipelines are kept by their JSON text

A text stands for a list of entries if it spells an array of values that stand for the entries
(`WrittenAs`). Blanks, the order of keys, keys that are left out or unknown, and the spelling of
strings are all free.

* `writtenAs_ofList`: the compact text of some entries stands for them;
* `entriesOfText?_of_writtenAs`: a text that stands for some entries is read as these entries;
* `ofJsonText_of_le`, `ofJsonText_of_lt`: a pipeline is made of them, unless there are too many;
* `jsonText_roundTrip`: so a pipeline is read from its compact text and from every other.
-/

namespace ChunkFilters.Pipeline

open Json

/-- The text stands for the entries. -/
def WrittenAs (entries : List Entry) (text : String) : Prop :=
  ∃ values, List.Forall₂ Entry.WrittenAs entries values ∧ (Json.array values).SpelledAs text

theorem writtenAs_ofList (entries : List Entry) :
    WrittenAs entries (String.ofList (Text.array (entries.map Entry.toJsonText))) := by
  have hValues : ∃ values, List.Forall₂ Entry.WrittenAs entries values ∧
      List.Forall₂ Writes values (entries.map Entry.toJsonText) := by
    induction entries with
    | nil => exact ⟨[], .nil, .nil⟩
    | cons entry entries ih =>
      obtain ⟨values, hWritten, hWrites⟩ := ih
      obtain ⟨value, hValue, hText⟩ := entry.exists_writes
      exact ⟨value :: values, .cons hValue hWritten, .cons hText hWrites⟩
  obtain ⟨values, hWritten, hWrites⟩ := hValues
  exact ⟨values, hWritten, spelledAs_of_writes (writes_array hWrites)⟩

theorem entriesOfJson?_array {entries : List Entry} {values : List Json}
    (h : List.Forall₂ Entry.WrittenAs entries values) :
    entriesOfJson? (.array values) = some entries := by
  rw [entriesOfJson?]
  induction h with
  | nil => rfl
  | cons hEntry _ ih =>
    rw [List.mapM_cons, Entry.ofJson?_of_writtenAs hEntry, ih]
    rfl

theorem entriesOfText?_of_writtenAs {entries : List Entry} {text : String}
    (h : WrittenAs entries text) : (ofText? text).bind entriesOfJson? = some entries := by
  obtain ⟨values, hValues, hText⟩ := h
  rw [ofText?_of_spelledAs hText, Option.bind_some, entriesOfJson?_array hValues]

theorem ofJsonText_of_le {entries : List Entry} {text : String}
    (h : (ofText? text).bind entriesOfJson? = some entries)
    (hLength : entries.length ≤ maxFilters) :
    ofJsonText text = .ok ⟨entries, hLength⟩ := by
  rw [ofJsonText, h]
  simp only [ofEntries, dif_pos hLength]

theorem ofJsonText_of_lt {entries : List Entry} {text : String}
    (h : (ofText? text).bind entriesOfJson? = some entries)
    (hLength : maxFilters < entries.length) :
    ofJsonText text = .error (.tooMany ⟨entries.length⟩) := by
  rw [ofJsonText, h]
  simp only [ofEntries_eq_error hLength]

theorem ofEntries_eq_ok_iff (entries : List Entry) (pipeline : Pipeline) :
    ofEntries entries = .ok pipeline ↔
      entries.length ≤ maxFilters ∧ pipeline.entries = entries := by
  constructor
  · intro h
    rw [ofEntries] at h
    split at h
    · next hLength =>
      cases h
      exact ⟨hLength, rfl⟩
    · cases h
  · rintro ⟨-, rfl⟩
    exact ofEntries_entries pipeline

/-- Reading undoes writing. A pipeline is read from its compact text and from every other text that
stands for its entries. No list of more than 32 entries becomes a pipeline, neither directly nor
from a text. -/
theorem jsonText_roundTrip :
    (∀ pipeline : Pipeline, ofJsonText pipeline.toJsonText = .ok pipeline) ∧
    (∀ (pipeline : Pipeline) (text : String), WrittenAs pipeline.entries text →
      ofJsonText text = .ok pipeline) ∧
    (∀ (entries : List Entry) (text : String), WrittenAs entries text → 32 < entries.length →
      ofJsonText text = .error (.tooMany ⟨entries.length⟩)) ∧
    (∀ (entries : List Entry) (text : String), (ofText? text).bind entriesOfJson? = some entries →
      32 < entries.length → ofJsonText text = .error (.tooMany ⟨entries.length⟩)) ∧
    ∀ (entries : List Entry) (pipeline : Pipeline),
      ofEntries entries = .ok pipeline ↔ entries.length ≤ 32 ∧ pipeline.entries = entries := by
  refine ⟨?_, ?_, ?_, ?_, ?_⟩
  · intro pipeline
    exact ofJsonText_of_le (entriesOfText?_of_writtenAs (writtenAs_ofList pipeline.entries))
      pipeline.length_le
  · intro pipeline text hText
    exact ofJsonText_of_le (entriesOfText?_of_writtenAs hText) pipeline.length_le
  · intro entries text hText hLength
    exact ofJsonText_of_lt (entriesOfText?_of_writtenAs hText) hLength
  · intro entries text hEntries hLength
    exact ofJsonText_of_lt hEntries hLength
  · intro entries pipeline
    exact ofEntries_eq_ok_iff entries pipeline

/-- An entry with an unknown key in front and all that can be left out left out, and an entry that
is given by its values, behind a blank; and 33 entries. -/
theorem jsonText_roundTrip_reordered :
    let entries : List Entry := [⟨.shuffle, .none, none, []⟩, ⟨.fletcher32, .optional, none, [7]⟩]
    let text := " [\x7b\x22x\x22:[[]],\x22filter_id\x22:2\x7d,[3,1,null,[7]]]"
    let long := List.replicate 33 (⟨.shuffle, .none, none, []⟩ : Entry)
    let longText := String.ofList (Text.array (long.map Entry.toJsonText))
    WrittenAs entries text ∧ ofJsonText text = .ok ⟨entries, by decide⟩ ∧
      WrittenAs long longText ∧ 32 < long.length ∧
      ofJsonText longText = .error (.tooMany ⟨33⟩) := by
  intro entries text long longText
  have hOthers : ∀ member ∈ ([(some "x", .array [.array []])] : Members),
      ∃ key, member.1 = some key ∧ key ∉ Entry.keys := by
    intro member hMember
    rw [List.mem_singleton.mp hMember]
    exact ⟨"x", rfl, by decide⟩
  have hShuffle : Entry.WrittenAs ⟨.shuffle, .none, none, []⟩
      (.object [(some "x", .array [.array []]), (some "filter_id", .natural 2)]) :=
    .object (.absent rfl) (.absent rfl) (.absent rfl) hOthers (.swap _ _ _)
  have hFletcher : Entry.WrittenAs ⟨.fletcher32, .optional, none, [7]⟩
      (.array [.natural 3, .natural 1, .null, .array [.natural 7]]) := .positional
  have hNull : Writes .null ['n', 'u', 'l', 'l'] := fun _ _ hRest _ => .token .null hRest
  let objectText := Text.object [Text.member "x" (Text.array [Text.array []]),
    Text.member "filter_id" (Text.natural 2)]
  have hObject : Writes (.object [(some "x", .array [.array []]), (some "filter_id", .natural 2)])
      objectText :=
    writes_object (.cons (.member _ (writes_array (.cons (writes_array .nil) .nil)))
      (.cons (.member _ (writes_natural 2)) .nil))
  let arrayText := Text.array [Text.natural 3, Text.natural 1, ['n', 'u', 'l', 'l'],
    Text.array [Text.natural 7]]
  have hArray : Writes (.array [.natural 3, .natural 1, .null, .array [.natural 7]]) arrayText :=
    writes_array (.cons (writes_natural 3) (.cons (writes_natural 1) (.cons hNull
      (.cons (writes_array (.cons (writes_natural 7) .nil)) .nil))))
  have hSpelled := writes_array (.cons hObject (.cons hArray .nil)) [] [] .nil ends_nil
  have hChars : text.toList = ' ' :: (Text.array [objectText, arrayText] ++ []) := by decide
  have hText : WrittenAs entries text := by
    refine ⟨_, .cons hShuffle (.cons hFletcher .nil), ?_⟩
    rw [List.append_nil] at hSpelled
    rw [SpelledAs, hChars]
    exact .blank (by decide) hSpelled
  have hLong : WrittenAs long longText := writtenAs_ofList long
  obtain ⟨-, hRead, hRefused, -⟩ := jsonText_roundTrip
  exact ⟨hText, hRead ⟨entries, by decide⟩ text hText, hLong, by decide,
    hRefused long longText hLong (by decide)⟩

end ChunkFilters.Pipeline
