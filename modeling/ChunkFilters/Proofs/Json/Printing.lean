import ChunkFilters.Json.Text
import ChunkFilters.Proofs.Json.Values
import Mathlib.Data.List.Forall2

/-!
# Compact text is a spelling

Each writer of compact text spells its value (`Writes`), in front of anything that no number goes on
with. For arrays and objects the texts of the parts have to spell the parts.

* `exists_pieces`: an escaped text is a sequence of pieces that mean the text;
* `spells_commaSeparated`: parts with commas between them spell their tokens with commas between;
* `writes_natural`, `writes_quoted`, `writes_array`, `writes_object`: one statement for each writer;
* `spelledAs_of_writes`: what a writer makes of a value is a text of the value.
-/

namespace ChunkFilters.Json

/-- The text spells some tokens, in front of any text that can follow a number. -/
def Spells (part : List Token) (text : List Char) : Prop :=
  ∀ tokens rest, Spelled tokens rest → Ends rest → Spelled (part ++ tokens) (text ++ rest)

def Writes (value : Json) (text : List Char) : Prop := Spells value.tokens text

theorem ends_nil : Ends [] := by
  intro character h
  cases h

theorem ends_cons {character : Char} (hDigit : character.isDigit = false)
    (hPoint : character ≠ '.') (hLower : character ≠ 'e') (hUpper : character ≠ 'E')
    (rest : List Char) : Ends (character :: rest) := by
  intro first h
  cases h
  exact ⟨hDigit, hPoint, hLower, hUpper⟩

theorem spelledAs_of_writes {value : Json} {text : List Char} (h : Writes value text) :
    value.SpelledAs (String.ofList text) := by
  have hSpelled := h [] [] .nil ends_nil
  rw [List.append_nil, List.append_nil] at hSpelled
  rw [SpelledAs, String.toList_ofList]
  exact hSpelled

/-! ## Numbers and strings -/

theorem writes_natural (value : Nat) : Writes (.natural value) (Text.natural value) := by
  intro tokens rest hRest hEnds
  rw [Json.tokens, List.singleton_append]
  exact .number (.natural value) hEnds hRest

theorem isHexDigit_hexDigit {digit : Nat} (h : digit < 16) :
    IsHexDigit (Text.hexDigit digit) digit :=
  ⟨h, Or.inl rfl⟩

/-- A control character is written as a code unit. -/
theorem spelledAs_control {character : Char} (h : character.toNat < 0x20) :
    Piece.SpelledAs (.unit character.toNat)
      ['\x5c', 'u', '0', '0', Text.hexDigit (character.toNat / 16),
        Text.hexDigit (character.toNat % 16)] := by
  have hZero : IsHexDigit '0' 0 := ⟨by decide, Or.inl rfl⟩
  have hHigh : character.toNat / 16 < 16 := by omega
  have hLow : character.toNat % 16 < 16 := Nat.mod_lt character.toNat (by decide)
  have hUnit := Piece.SpelledAs.unit hZero hZero (isHexDigit_hexDigit hHigh)
    (isHexDigit_hexDigit hLow)
  have hValue : 16 * (16 * (16 * 0 + 0) + character.toNat / 16) + character.toNat % 16 =
      character.toNat := by omega
  rw [hValue] at hUnit
  exact hUnit

theorem isEscape_of_lookup {character letter : Char}
    (h : Text.shortEscapes.lookup character = some letter) : IsEscape letter character := by
  obtain ⟨before, after, hPairs, -⟩ := List.lookup_eq_some_iff.mp h
  have hMem : (character, letter) ∈ Text.shortEscapes := by
    rw [hPairs]
    exact List.mem_append_right before List.mem_cons_self
  simp only [Text.shortEscapes, List.mem_cons, Prod.mk.injEq, List.not_mem_nil, or_false] at hMem
  rcases hMem with ⟨rfl, rfl⟩ | ⟨rfl, rfl⟩ | ⟨rfl, rfl⟩ | ⟨rfl, rfl⟩ | ⟨rfl, rfl⟩ | ⟨rfl, rfl⟩ |
    ⟨rfl, rfl⟩ <;> constructor

/-- An escaped character is a piece that means the character. -/
theorem exists_piece (character : Char) :
    ∃ piece : Piece, piece.SpelledAs (Text.escaped character) ∧
      ∀ rest, meaning (piece :: rest) = (meaning rest).map (character :: ·) := by
  unfold Text.escaped
  split
  · next letter hLetter =>
    exact ⟨.character character, .escape (isEscape_of_lookup hLetter), fun rest => rfl⟩
  · next hNone =>
    split
    · next hControl =>
      refine ⟨.unit character.toNat, spelledAs_control hControl, ?_⟩
      intro rest
      have hUpper : PartialText.isUpperSurrogate character.toNat = false := by
        rw [PartialText.isUpperSurrogate, decide_eq_false (by omega), Bool.false_and]
      have hLower : PartialText.isLowerSurrogate character.toNat = false := by
        rw [PartialText.isLowerSurrogate, decide_eq_false (by omega), Bool.false_and]
      rw [meaning_unit hUpper hLower, Char.ofNat_toNat]
    · next hControl =>
      refine ⟨.character character, .plain ?_ ?_ (Nat.not_lt.mp hControl), fun rest => rfl⟩
      · rintro rfl
        cases hNone
      · rintro rfl
        cases hNone

theorem exists_pieces (text : List Char) :
    ∃ pieces, PiecesSpelledAs pieces (text.flatMap Text.escaped) ∧ meaning pieces = some text := by
  induction text with
  | nil => exact ⟨[], .nil, rfl⟩
  | cons character rest ih =>
    obtain ⟨pieces, hSpelled, hMeaning⟩ := ih
    obtain ⟨piece, hPiece, hMeans⟩ := exists_piece character
    refine ⟨piece :: pieces, .cons hPiece hSpelled, ?_⟩
    rw [hMeans, hMeaning, Option.map_some]

theorem writes_quoted (text : String) : Writes (.string (some text)) (Text.quoted text) := by
  intro tokens rest hRest _
  obtain ⟨pieces, hSpelled, hMeaning⟩ := exists_pieces text.toList
  have hToken := Token.SpelledAs.string hSpelled
  rw [hMeaning, Option.map_some, String.ofList_toList] at hToken
  rw [Json.tokens, List.singleton_append]
  exact .token hToken hRest

/-! ## Arrays and objects -/

theorem spells_commaSeparated {parts : List (List Token)} {texts : List (List Char)}
    (h : List.Forall₂ Spells parts texts) {part : List Token} {text : List Char}
    (hPart : Spells part text) :
    Spells (part ++ parts.flatMap (.comma :: ·)) (Text.commaSeparated (text :: texts)) := by
  induction h generalizing part text with
  | nil =>
    rw [List.flatMap_nil, List.append_nil]
    exact hPart
  | @cons next nextText parts texts hNext _ ih =>
    intro tokens rest hRest hEnds
    have hComma := Spelled.token .comma (ih hNext tokens rest hRest hEnds)
    have hSpelled := hPart _ _ hComma (ends_cons rfl (by decide) (by decide) (by decide) _)
    rw [List.flatMap_cons, Text.commaSeparated_cons_cons]
    simp only [List.append_assoc, List.cons_append, List.nil_append] at hSpelled ⊢
    exact hSpelled

theorem itemTokens_eq (items : List Json) :
    itemTokens items = (items.map tokens).flatMap (.comma :: ·) ++ [.closeArray] := by
  induction items with
  | nil => rw [itemTokens, List.map_nil, List.flatMap_nil, List.nil_append]
  | cons item items ih =>
    rw [itemTokens, ih, List.map_cons, List.flatMap_cons]
    simp only [List.cons_append, List.append_assoc]

theorem writes_array {items : List Json} {texts : List (List Char)}
    (h : List.Forall₂ Writes items texts) : Writes (.array items) (Text.array texts) := by
  intro rest following hRest _
  have hClose := Spelled.token .closeArray hRest
  rw [Json.tokens.eq_def]
  cases h with
  | nil =>
    have hOpen := Spelled.token .openArray hClose
    exact hOpen
  | cons hItem hItems =>
    have hParts := spells_commaSeparated (List.forall₂_map_left_iff.mpr hItems) hItem
    have hOpen := Spelled.token .openArray
      (hParts _ _ hClose (ends_cons rfl (by decide) (by decide) (by decide) _))
    rw [Text.array]
    simp only [itemTokens_eq, List.append_assoc, List.cons_append, List.nil_append] at hOpen ⊢
    exact hOpen

def memberPart (member : Option String × Json) : List Token :=
  .string member.1 :: .colon :: member.2.tokens

/-- The text spells the key and the value of the member. -/
inductive WritesMember : Option String × Json → List Char → Prop where
  | member (key : String) {value : Json} {text : List Char} (h : Writes value text) :
      WritesMember (some key, value) (Text.member key text)

theorem WritesMember.spells {member : Option String × Json} {text : List Char}
    (h : WritesMember member text) : Spells (memberPart member) text := by
  intro tokens rest hRest hEnds
  cases h with
  | member key hValue =>
    have hColon := Spelled.token .colon (hValue tokens rest hRest hEnds)
    have hKey := writes_quoted key _ _ hColon
      (ends_cons rfl (by decide) (by decide) (by decide) _)
    rw [Json.tokens] at hKey
    rw [memberPart, Text.member]
    simp only [List.append_assoc, List.cons_append, List.nil_append] at hKey ⊢
    exact hKey

theorem memberTokens_eq (members : Members) :
    memberTokens members = (members.map memberPart).flatMap (.comma :: ·) ++ [.closeObject] := by
  induction members with
  | nil => rw [memberTokens, List.map_nil, List.flatMap_nil, List.nil_append]
  | cons member members ih =>
    obtain ⟨key, value⟩ := member
    rw [memberTokens, ih, List.map_cons, List.flatMap_cons, memberPart]
    simp only [List.cons_append, List.append_assoc]

theorem writes_object {members : Members} {texts : List (List Char)}
    (h : List.Forall₂ WritesMember members texts) :
    Writes (.object members) (Text.object texts) := by
  intro rest following hRest _
  have hClose := Spelled.token .closeObject hRest
  rw [Json.tokens.eq_def]
  cases h with
  | nil =>
    have hOpen := Spelled.token .openObject hClose
    exact hOpen
  | @cons member text members texts hMember hMembers =>
    obtain ⟨key, value⟩ := member
    have hSpells := hMembers.imp fun _ _ => WritesMember.spells
    have hParts := spells_commaSeparated (List.forall₂_map_left_iff.mpr hSpells) hMember.spells
    have hOpen := Spelled.token .openObject
      (hParts _ _ hClose (ends_cons rfl (by decide) (by decide) (by decide) _))
    rw [Text.object]
    simp only [memberTokens_eq, memberPart, List.append_assoc, List.cons_append,
      List.nil_append] at hOpen ⊢
    exact hOpen

end ChunkFilters.Json
