import ChunkFilters.Proofs.Json.Grammar

/-!
# Scanning what is spelled

The scanner finds the tokens that a text spells. Each kind of token is scanned from its first
character to its last, whatever follows.

* `scanFrom_pieces`: inside a string, the pieces are fed to the partial text one by one, which makes
  of them what they mean (`finish_foldl_feed`);
* `exists_integer`, `foldlM_fraction`, `foldlM_exponent`: a number is read part by part, and
  `scanFrom_ends` ends it at the character after it;
* `tokens?_of_spelled`: so every spelling of some tokens is scanned to these.
-/

namespace ChunkFilters.Json

open Scan

theorem scanFrom_of_step {scan next : Scan} {character : Char} {tokens : List Token}
    (h : scan.step character = some (next, tokens)) (done : Array Token) (rest : List Char) :
    scanFrom scan done (character :: rest) = scanFrom next (done ++ tokens) rest := by
  rw [scanFrom, h]

/-- A character that ends no token. -/
theorem scanFrom_of_silent_step {scan next : Scan} {character : Char}
    (h : scan.step character = some (next, [])) (done : Array Token) (rest : List Char) :
    scanFrom scan done (character :: rest) = scanFrom next done rest := by
  rw [scanFrom_of_step h, Array.appendList_nil]

/-! ## Strings -/

namespace PartialText

/-- The text with one more piece. -/
def feed (text : PartialText) : Piece → PartialText
  | .character character => text.push character
  | .unit value => text.pushUnit value

/-- What is no text stays no text. -/
theorem reversed_feed {text : PartialText} (h : text.reversed = none) (piece : Piece) :
    (text.feed piece).reversed = none := by
  cases piece with
  | character character =>
    rw [feed, push]
    split
    · rfl
    · simp only [h, Option.map_none]
  | unit value =>
    rw [feed, pushUnit]
    split
    · split
      · simp only [h, Option.map_none]
      · rfl
    · split
      · exact h
      · split
        · rfl
        · rw [push]
          split
          · rfl
          · simp only [h, Option.map_none]

theorem finish_of_none {text : PartialText} (h : text.reversed = none) : text.finish = none := by
  rw [finish]
  split
  · rfl
  · rw [h, Option.map_none]

theorem finish_foldl_of_none {text : PartialText} (h : text.reversed = none)
    (pieces : List Piece) : (pieces.foldl feed text).finish = none := by
  induction pieces generalizing text with
  | nil => exact finish_of_none h
  | cons piece rest ih => exact ih (reversed_feed h piece)

/-- Half of a surrogate pair without the other half leaves no text. -/
theorem finish_foldl_pending (before : List Char) (upper : Nat) {pieces : List Piece}
    (h : ∀ lower rest, pieces = .unit lower :: rest → isLowerSurrogate lower = false) :
    (pieces.foldl feed { reversed := some before, pending := some upper }).finish = none := by
  cases pieces with
  | nil => rfl
  | cons piece rest =>
    have hBroken : ({ reversed := some before, pending := some upper } : PartialText).feed piece =
        broken := by
      cases piece with
      | character character => rfl
      | unit lower =>
        simp only [feed, pushUnit, h lower rest rfl, Bool.false_eq_true, if_false]
    rw [List.foldl_cons, hBroken]
    exact finish_foldl_of_none rfl rest

/-- A character can be put behind those before or in front of those that follow. -/
theorem map_ofList_cons (character : Char) (before : List Char) (after : Option (List Char)) :
    (after.map fun characters => String.ofList ((character :: before).reverse ++ characters)) =
      (after.map (character :: ·)).map fun characters =>
        String.ofList (before.reverse ++ characters) := by
  rw [Option.map_map]
  congr 1
  funext characters
  rw [Function.comp_apply, List.reverse_cons, List.append_assoc, List.singleton_append]

/-- Pieces are made into what they mean, behind the characters so far. -/
theorem finish_foldl_feed (before : List Char) (pieces : List Piece) :
    (pieces.foldl feed { reversed := some before }).finish =
      (meaning pieces).map fun characters => String.ofList (before.reverse ++ characters) := by
  fun_induction meaning pieces generalizing before with
  | case1 =>
    rw [List.foldl_nil, Option.map_some, List.append_nil]
    rfl
  | case2 character rest ih =>
    rw [← map_ofList_cons, ← ih]
    rfl
  | case3 upper hUpper lower rest hLower ih =>
    have hFirst : feed { reversed := some before } (.unit upper) =
        { reversed := some before, pending := some upper } := by
      simp only [feed, pushUnit, hUpper, if_true]
    have hSecond : feed { reversed := some before, pending := some upper } (.unit lower) =
        { reversed := some (surrogatePair upper lower :: before) } := by
      simp only [feed, pushUnit, hLower, if_true, Option.map_some]
    rw [← map_ofList_cons, ← ih, List.foldl_cons, List.foldl_cons, hFirst, hSecond]
  | case4 upper hUpper lower rest hLower =>
    have hFirst : feed { reversed := some before } (.unit upper) =
        { reversed := some before, pending := some upper } := by
      simp only [feed, pushUnit, hUpper, if_true]
    rw [List.foldl_cons, hFirst, Option.map_none]
    apply finish_foldl_pending
    rintro other others h
    cases h
    exact Bool.eq_false_iff.mpr hLower
  | case5 upper rest hUpper hNoUnit =>
    have hFirst : feed { reversed := some before } (.unit upper) =
        { reversed := some before, pending := some upper } := by
      simp only [feed, pushUnit, hUpper, if_true]
    rw [List.foldl_cons, hFirst, Option.map_none]
    apply finish_foldl_pending
    intro lower others h
    exact absurd h (hNoUnit lower others)
  | case6 value rest hUpper hLower =>
    have hFirst : feed { reversed := some before } (.unit value) = broken := by
      simp only [feed, pushUnit, hUpper, hLower, if_true, Bool.false_eq_true, if_false]
    rw [List.foldl_cons, hFirst, Option.map_none]
    exact finish_foldl_of_none rfl rest
  | case7 value rest hUpper hLower ih =>
    have hFirst : feed { reversed := some before } (.unit value) =
        { reversed := some (Char.ofNat value :: before) } := by
      simp only [feed, pushUnit, hUpper, hLower, Bool.false_eq_true, if_false, push,
        Option.map_some]
    rw [← map_ofList_cons, ← ih, List.foldl_cons, hFirst]

end PartialText

theorem escape?_of_isEscape {letter character : Char} (h : IsEscape letter character) :
    escape? letter = some character := by
  cases h <;> rfl

theorem hexValue?_of_isHexDigit {character : Char} {value : Nat} (h : IsHexDigit character value) :
    hexValue? character = some value := by
  have hAll : ∀ value < 16, hexValue? value.digitChar = some value ∧
      hexValue? value.digitChar.toUpper = some value := by decide
  obtain ⟨hLower, hUpper⟩ := hAll value h.lt
  rcases h.eq_or_eq with rfl | rfl
  · exact hLower
  · exact hUpper

theorem step_unit {character : Char} {digit : Nat} (h : IsHexDigit character digit)
    (text : PartialText) (digits value : Nat) :
    step (.unit text (digits + 1) value) character =
      some (.unit text digits (16 * value + digit), []) := by
  rw [step, hexValue?_of_isHexDigit h]
  rfl

theorem step_last_unit {character : Char} {digit : Nat} (h : IsHexDigit character digit)
    (text : PartialText) (value : Nat) :
    step (.unit text 0 value) character =
      some (.string (text.feed (.unit (16 * value + digit))), []) := by
  rw [step, hexValue?_of_isHexDigit h]
  rfl

/-- Inside a string, every spelling of a piece feeds it to the text. -/
theorem scanFrom_piece {piece : Piece} {spelling : List Char} (h : piece.SpelledAs spelling)
    (text : PartialText) (done : Array Token) (rest : List Char) :
    scanFrom (.string text) done (spelling ++ rest) =
      scanFrom (.string (text.feed piece)) done rest := by
  cases h with
  | plain hQuote hBackslash hControl =>
    apply scanFrom_of_silent_step
    rw [step, stepString, if_neg hQuote, if_neg hBackslash, if_neg (Nat.not_lt.mpr hControl)]
    rfl
  | @escape letter character hEscape =>
    have hNotUnit : letter ≠ 'u' := by
      rintro rfl
      cases hEscape
    rw [List.cons_append, scanFrom_of_silent_step rfl]
    apply scanFrom_of_silent_step
    rw [step, if_neg hNotUnit, escape?_of_isEscape hEscape]
    rfl
  | @unit _ _ _ _ a b c d hFirst hSecond hThird hFourth =>
    simp only [List.cons_append, List.nil_append]
    rw [scanFrom_of_silent_step rfl, scanFrom_of_silent_step rfl,
      scanFrom_of_silent_step (step_unit hFirst text 2 0),
      scanFrom_of_silent_step (step_unit hSecond text 1 _),
      scanFrom_of_silent_step (step_unit hThird text 0 _),
      scanFrom_of_silent_step (step_last_unit hFourth text _), Nat.mul_zero, Nat.zero_add]

theorem scanFrom_pieces {pieces : List Piece} {spelling : List Char}
    (h : PiecesSpelledAs pieces spelling) (text : PartialText) (done : Array Token)
    (rest : List Char) :
    scanFrom (.string text) done (spelling ++ rest) =
      scanFrom (.string (pieces.foldl PartialText.feed text)) done rest := by
  induction h generalizing text with
  | nil => rfl
  | cons hPiece _ ih => rw [List.append_assoc, scanFrom_piece hPiece, ih, List.foldl_cons]

/-! ## Numbers -/

/-- Characters that a number goes on with are read into it. -/
theorem scanFrom_number {part last : NumberPart} {text : List Char}
    (h : text.foldlM NumberPart.next? part = some last) (done : Array Token) (rest : List Char) :
    scanFrom (.number part) done (text ++ rest) = scanFrom (.number last) done rest := by
  induction text generalizing part with
  | nil =>
    cases h
    rfl
  | cons character text ih =>
    rw [List.foldlM_cons] at h
    obtain ⟨next, hNext, hLast⟩ := Option.bind_eq_some_iff.mp h
    have hStep : step (.number part) character = some (.number next, []) := by
      rw [step, hNext]
    rw [List.cons_append, scanFrom_of_silent_step hStep, ih hLast]

/-- The number has an integer part, and nothing else yet. -/
def integral (negative : Bool) (value : Nat) : NumberPart :=
  if value = 0 then .zero negative else .digits negative value

theorem isDigit_digitChar {digit : Nat} (h : digit < 10) : digit.digitChar.isDigit = true := by
  rw [Nat.isDigit_digitChar, decide_eq_true h]

theorem digitValue_digitChar {digit : Nat} (h : digit < 10) :
    digitValue digit.digitChar = digit := by
  have hAll : ∀ digit < 10, digitValue digit.digitChar = digit := by decide
  exact hAll digit h

theorem integer?_digitChar (negative : Bool) {digit : Nat} (h : digit < 10) :
    NumberPart.integer? negative digit.digitChar = some (integral negative digit) := by
  by_cases hZero : digit = 0
  · rw [hZero]
    rfl
  · have hNotZero : digit.digitChar ≠ '0' := by
      have hAll : ∀ digit < 10, digit ≠ 0 → digit.digitChar ≠ '0' := by decide
      exact hAll digit h hZero
    rw [NumberPart.integer?, if_neg hNotZero, if_pos (isDigit_digitChar h),
      digitValue_digitChar h, integral, if_neg hZero]

theorem next?_digitChar (negative : Bool) (value : Nat) {digit : Nat} (h : digit < 10) :
    (NumberPart.digits negative value).next? digit.digitChar =
      some (.digits negative (10 * value + digit)) := by
  rw [NumberPart.next?, if_pos (isDigit_digitChar h), digitValue_digitChar h]

/-- The digits of an integer part are read up to its value. -/
theorem exists_integer (negative : Bool) (value : Nat) :
    ∃ first others part, Nat.toDigits 10 value = first :: others ∧ first.isDigit = true ∧
      NumberPart.integer? negative first = some part ∧
      others.foldlM NumberPart.next? part = some (integral negative value) := by
  induction value using Nat.strongRecOn with
  | ind value ih =>
    rcases Nat.lt_or_ge value 10 with hLt | hGe
    · rw [Nat.toDigits_of_lt_base hLt]
      exact ⟨_, [], _, rfl, isDigit_digitChar hLt, integer?_digitChar negative hLt, rfl⟩
    · have hLast : value % 10 < 10 := Nat.mod_lt value (by decide)
      have hPart : integral negative (value / 10) = .digits negative (value / 10) := by
        rw [integral, if_neg (by omega)]
      have hWhole : integral negative value = .digits negative value := by
        rw [integral, if_neg (by omega)]
      obtain ⟨first, others, part, hDigits, hFirst, hStart, hRead⟩ :=
        ih (value / 10) (by omega)
      refine ⟨first, others ++ [(value % 10).digitChar], part, ?_, hFirst, hStart, ?_⟩
      · rw [Nat.toDigits_of_base_le (by decide) hGe, hDigits, List.cons_append]
      · have hStep : [(value % 10).digitChar].foldlM NumberPart.next?
            (.digits negative (value / 10)) = some (.digits negative value) := by
          rw [List.foldlM_cons, next?_digitChar negative (value / 10) hLast, Nat.div_add_mod]
          rfl
        rw [List.foldlM_append, hRead, hPart, hWhole]
        exact hStep

/-- Digits are read into a part that more digits do not change. -/
theorem foldlM_isDigits {part last : NumberPart} {text : List Char}
    (hFirst : ∀ character : Char, character.isDigit = true → part.next? character = some last)
    (hMore : ∀ character : Char, character.isDigit = true → last.next? character = some last)
    (h : IsDigits text) : text.foldlM NumberPart.next? part = some last := by
  obtain ⟨hNe, hDigits⟩ := h
  cases text with
  | nil => exact absurd rfl hNe
  | cons first others =>
    obtain ⟨hHead, hOthers⟩ := List.forall_mem_cons.mp hDigits
    rw [List.foldlM_cons, hFirst first hHead]
    show List.foldlM NumberPart.next? last others = some last
    clear hNe hDigits
    induction others with
    | nil => rfl
    | cons next others ih =>
      obtain ⟨hNext, hRest⟩ := List.forall_mem_cons.mp hOthers
      rw [List.foldlM_cons, hMore next hNext]
      exact ih hRest

theorem foldlM_fraction (negative : Bool) (value : Nat) {text : List Char} (h : IsFraction text) :
    text.foldlM NumberPart.next? (integral negative value) =
      some (if text = [] then integral negative value else .fraction) := by
  cases h with
  | none => rfl
  | digits hDigits =>
    have hPoint : (integral negative value).next? '.' = some .point := by
      rw [integral]
      split <;> rfl
    rw [List.foldlM_cons, hPoint]
    exact foldlM_isDigits (fun _ h => if_pos h) (fun _ h => if_pos h) hDigits

theorem foldlM_exponent {part : NumberPart}
    (hMark : ∀ mark, mark = 'e' ∨ mark = 'E' → part.next? mark = some .exponent)
    {text : List Char} (h : IsExponent text) :
    text.foldlM NumberPart.next? part = some (if text = [] then part else .exponentDigits) := by
  cases h with
  | none => rfl
  | unsigned hIsMark hDigits =>
    rw [List.foldlM_cons, hMark _ hIsMark]
    show List.foldlM NumberPart.next? .exponent _ = some .exponentDigits
    refine foldlM_isDigits ?_ (fun _ h => if_pos h) hDigits
    intro character hDigit
    have hNoSign : ¬ (character = '+' ∨ character = '-') := by
      rintro (rfl | rfl) <;> cases hDigit
    rw [NumberPart.next?, if_neg hNoSign, if_pos hDigit]
  | signed hIsMark hSign hDigits =>
    rw [List.foldlM_cons, hMark _ hIsMark]
    show List.foldlM NumberPart.next? .exponent _ = some .exponentDigits
    have hNext : NumberPart.next? .exponent _ = some .exponentSign := if_pos hSign
    rw [List.foldlM_cons, hNext]
    exact foldlM_isDigits (fun _ h => if_pos h) (fun _ h => if_pos h) hDigits

/-- What follows the integer part is read into the number. -/
theorem exists_numeral (negative : Bool) (value : Nat) {fraction exponent : List Char}
    (hFraction : IsFraction fraction) (hExponent : IsExponent exponent)
    (h : negative = true ∨ fraction ++ exponent ≠ []) :
    ∃ last, (fraction ++ exponent).foldlM NumberPart.next? (integral negative value) =
      some last ∧ last.token? = some .numeral := by
  have hMark : ∀ mark, mark = 'e' ∨ mark = 'E' →
      (if fraction = [] then integral negative value else .fraction : NumberPart).next? mark =
        some .exponent := by
    rintro mark (rfl | rfl) <;> split <;> first | rfl | (rw [integral]; split <;> rfl)
  rw [List.foldlM_append, foldlM_fraction negative value hFraction]
  refine ⟨_, foldlM_exponent hMark hExponent, ?_⟩
  split
  · next hNoExponent =>
    split
    · next hNoFraction =>
      rw [hNoExponent, hNoFraction] at h
      obtain rfl : negative = true := h.resolve_right fun hNe => hNe rfl
      rw [integral]
      split <;> rfl
    · rfl
  · rfl

/-- A number that may end does end, where the text does not go on with it. -/
theorem next?_eq_none {part : NumberPart} {token : Token} (h : part.token? = some token)
    {character : Char} (hDigit : character.isDigit = false) (hPoint : character ≠ '.')
    (hLower : character ≠ 'e') (hUpper : character ≠ 'E') : part.next? character = none := by
  have hMark : ¬ (character = 'e' ∨ character = 'E') := fun hMark =>
    hMark.elim hLower hUpper
  cases part with
  | sign | point | exponent | exponentSign => cases h
  | zero negative =>
    rw [NumberPart.next?, NumberPart.afterInteger?, if_neg hPoint, if_neg hMark]
  | digits negative value =>
    rw [NumberPart.next?, hDigit, if_neg Bool.false_ne_true, NumberPart.afterInteger?,
      if_neg hPoint, if_neg hMark]
  | fraction => rw [NumberPart.next?, hDigit, if_neg Bool.false_ne_true, if_neg hMark]
  | exponentDigits => rw [NumberPart.next?, hDigit, if_neg Bool.false_ne_true]

theorem scanFrom_ends {part : NumberPart} {token : Token} (h : part.token? = some token)
    {rest : List Char} (hEnds : Ends rest) (done : Array Token) :
    scanFrom (.number part) done rest = scanFrom .between (done.push token) rest := by
  cases rest with
  | nil =>
    have hFinish : finish (.number part) = some [token] := by rw [finish, h, Option.map_some]
    have hBetween : finish .between = some [] := rfl
    rw [scanFrom, scanFrom, hFinish, hBetween]
    simp only [Option.map_some, Array.toListAppend_eq, Array.toList_push, List.append_nil]
  | cons character rest =>
    obtain ⟨hDigit, hPoint, hLower, hUpper⟩ := hEnds character rfl
    have hNone := next?_eq_none h hDigit hPoint hLower hUpper
    have hBetween : step .between character = start character := rfl
    cases hStart : start character with
    | none =>
      have hStep : step (.number part) character = none := by rw [step, hNone, h, hStart]
      rw [scanFrom, scanFrom, hStep, hBetween, hStart]
    | some started =>
      obtain ⟨next, tokens⟩ := started
      have hStep : step (.number part) character = some (next, token :: tokens) := by
        rw [step, hNone, h, hStart]
      have hDone : done ++ token :: tokens = done.push token ++ tokens := by
        apply Array.ext'
        simp
      rw [scanFrom_of_step hStep, scanFrom_of_step (hBetween.trans hStart), hDone]

/-- A digit starts a number. -/
theorem start_of_isDigit {character : Char} (h : character.isDigit = true) :
    start character =
      (NumberPart.integer? false character).map fun part => (.number part, []) := by
  unfold start
  split
  all_goals first | rfl | cases h

theorem scanFrom_numberSpelledAs {token : Token} {spelling rest : List Char}
    (h : NumberSpelledAs token spelling) (hEnds : Ends rest) (done : Array Token) :
    scanFrom .between done (spelling ++ rest) = scanFrom .between (done.push token) rest := by
  cases h with
  | natural value =>
    obtain ⟨first, others, part, hDigits, hFirst, hStart, hRead⟩ := exists_integer false value
    have hStep : step .between first = some (.number part, []) := by
      rw [step, start_of_isDigit hFirst, hStart, Option.map_some]
    have hToken : (integral false value).token? = some (.natural value) := by
      rw [integral]
      split
      · next hZero =>
        rw [hZero]
        rfl
      · rfl
    rw [hDigits, List.cons_append, scanFrom_of_silent_step hStep, scanFrom_number hRead,
      scanFrom_ends hToken hEnds]
  | negative value hFraction hExponent =>
    obtain ⟨first, others, part, hDigits, hFirst, hStart, hRead⟩ := exists_integer true value
    obtain ⟨last, hTail, hToken⟩ := exists_numeral true value hFraction hExponent (Or.inl rfl)
    have hStep : step (.number .sign) first = some (.number part, []) := by
      rw [step, NumberPart.next?, hStart]
    rw [hDigits, List.cons_append, scanFrom_of_silent_step rfl]
    simp only [List.cons_append, List.append_assoc]
    rw [scanFrom_of_silent_step hStep, scanFrom_number hRead, ← List.append_assoc,
      scanFrom_number hTail, scanFrom_ends hToken hEnds]
  | positive value hFraction hExponent hSome =>
    obtain ⟨first, others, part, hDigits, hFirst, hStart, hRead⟩ := exists_integer false value
    obtain ⟨last, hTail, hToken⟩ :=
      exists_numeral false value hFraction hExponent (Or.inr hSome)
    have hStep : step .between first = some (.number part, []) := by
      rw [step, start_of_isDigit hFirst, hStart, Option.map_some]
    rw [hDigits]
    simp only [List.cons_append, List.append_assoc]
    rw [scanFrom_of_silent_step hStep, scanFrom_number hRead, ← List.append_assoc,
      scanFrom_number hTail, scanFrom_ends hToken hEnds]

/-! ## Tokens -/

theorem scanFrom_tokenSpelledAs {token : Token} {spelling : List Char}
    (h : token.SpelledAs spelling) (done : Array Token) (rest : List Char) :
    scanFrom .between done (spelling ++ rest) = scanFrom .between (done.push token) rest := by
  cases h with
  | @string pieces text hPieces =>
    have hClose : step (.string (pieces.foldl PartialText.feed {})) '\x22' =
        some (.between, [.string (pieces.foldl PartialText.feed {}).finish]) := rfl
    have hText : (pieces.foldl PartialText.feed {}).finish =
        (meaning pieces).map String.ofList := PartialText.finish_foldl_feed [] pieces
    rw [List.cons_append, scanFrom_of_silent_step rfl, List.append_assoc,
      scanFrom_pieces hPieces, List.singleton_append, scanFrom_of_step hClose, hText]
    rfl
  | _ => rfl

theorem step_blank {character : Char} (h : isBlank character = true) :
    step .between character = some (.between, []) := by
  simp only [isBlank, List.contains_eq_mem, List.mem_cons, List.not_mem_nil, or_false,
    decide_eq_true_eq] at h
  rcases h with rfl | rfl | rfl | rfl <;> rfl

theorem scanFrom_spelled {tokens : List Token} {text : List Char} (h : Spelled tokens text)
    (done : Array Token) : scanFrom .between done text = some (done.toList ++ tokens) := by
  induction h generalizing done with
  | nil =>
    have hFinish : finish .between = some [] := rfl
    rw [scanFrom, hFinish, Option.map_some, Array.toListAppend_eq]
  | blank hBlank _ ih => rw [scanFrom_of_silent_step (step_blank hBlank), ih]
  | token hToken _ ih =>
    rw [scanFrom_tokenSpelledAs hToken, ih, Array.toList_push, List.append_assoc]
    rfl
  | number hNumber hEnds _ ih =>
    rw [scanFrom_numberSpelledAs hNumber hEnds, ih, Array.toList_push, List.append_assoc]
    rfl

theorem tokens?_of_spelled {tokens : List Token} {text : String}
    (h : Spelled tokens text.toList) : tokens? text = some tokens :=
  scanFrom_spelled h #[]

end ChunkFilters.Json
