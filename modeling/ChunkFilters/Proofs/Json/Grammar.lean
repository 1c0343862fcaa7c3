import ChunkFilters.Json

/-!
# How JSON is spelled

The grammar of JSON text, without regard for how it is scanned. Tokens are spelled one after the
other, with blanks between them (`Spelled`). A number is an integer part without leading zeros, with
a sign, a fraction or an exponent or without. A string is a sequence of pieces, each a character as
it is, an escape of one letter, or an escaped code unit; two units can be halves of one character
(`meaning`).

Nothing separates a number from the token after it, so no character may follow that would go on with
the number (`Ends`). The grammar allows other tokens to be put next to each other that no value has
next to each other; which tokens a value has is a matter of `Json.tokens`.
-/

namespace ChunkFilters.Json

/-! ## Strings -/

/-- A part of a string: a character, or a code unit of 16 bits. -/
inductive Piece where
  | character (character : Char)
  | unit (value : Nat)

/-- The letters of escapes, and the characters that they stand for. -/
inductive IsEscape : Char → Char → Prop where
  | quote : IsEscape '\x22' '\x22'
  | backslash : IsEscape '\x5c' '\x5c'
  | slash : IsEscape '/' '/'
  | backspace : IsEscape 'b' '\x08'
  | formFeed : IsEscape 'f' '\x0c'
  | lineFeed : IsEscape 'n' '\n'
  | carriageReturn : IsEscape 'r' '\r'
  | tab : IsEscape 't' '\t'

/-- A hexadecimal digit, in lower or in upper case. -/
structure IsHexDigit (character : Char) (value : Nat) : Prop where
  lt : value < 16
  eq_or_eq : character = value.digitChar ∨ character = value.digitChar.toUpper

inductive Piece.SpelledAs : Piece → List Char → Prop where
  | plain {character : Char} (hQuote : character ≠ '\x22') (hBackslash : character ≠ '\x5c')
      (hControl : 0x20 ≤ character.toNat) : SpelledAs (.character character) [character]
  | escape {letter character : Char} (h : IsEscape letter character) :
      SpelledAs (.character character) ['\x5c', letter]
  | unit {first second third fourth : Char} {a b c d : Nat} (hFirst : IsHexDigit first a)
      (hSecond : IsHexDigit second b) (hThird : IsHexDigit third c)
      (hFourth : IsHexDigit fourth d) :
      SpelledAs (.unit (16 * (16 * (16 * a + b) + c) + d))
        ['\x5c', 'u', first, second, third, fourth]

inductive PiecesSpelledAs : List Piece → List Char → Prop where
  | nil : PiecesSpelledAs [] []
  | cons {piece : Piece} {pieces : List Piece} {spelling rest : List Char}
      (hPiece : piece.SpelledAs spelling) (hRest : PiecesSpelledAs pieces rest) :
      PiecesSpelledAs (piece :: pieces) (spelling ++ rest)

/-- The characters that some pieces are. The upper half of a surrogate pair has to be followed by a
lower one, and a lower half has to follow an upper one. -/
def meaning : List Piece → Option (List Char)
  | [] => some []
  | .character character :: rest => (meaning rest).map (character :: ·)
  | .unit value :: rest =>
    if PartialText.isUpperSurrogate value then
      match rest with
      | .unit lower :: rest =>
        if PartialText.isLowerSurrogate lower then
          (meaning rest).map (PartialText.surrogatePair value lower :: ·)
        else none
      | _ => none
    else if PartialText.isLowerSurrogate value then none
    else (meaning rest).map (Char.ofNat value :: ·)

/-- A unit that is no half of a pair is a character. -/
theorem meaning_unit {value : Nat} (hUpper : PartialText.isUpperSurrogate value = false)
    (hLower : PartialText.isLowerSurrogate value = false) (rest : List Piece) :
    meaning (.unit value :: rest) = (meaning rest).map (Char.ofNat value :: ·) := by
  rw [meaning.eq_def]
  simp only [hUpper, hLower, Bool.false_eq_true, if_false]

/-! ## Numbers -/

structure IsDigits (text : List Char) : Prop where
  ne_nil : text ≠ []
  isDigit : ∀ character ∈ text, character.isDigit = true

inductive IsFraction : List Char → Prop where
  | none : IsFraction []
  | digits {digits : List Char} (h : IsDigits digits) : IsFraction ('.' :: digits)

inductive IsExponent : List Char → Prop where
  | none : IsExponent []
  | unsigned {mark : Char} {digits : List Char} (hMark : mark = 'e' ∨ mark = 'E')
      (h : IsDigits digits) : IsExponent (mark :: digits)
  | signed {mark sign : Char} {digits : List Char} (hMark : mark = 'e' ∨ mark = 'E')
      (hSign : sign = '+' ∨ sign = '-') (h : IsDigits digits) : IsExponent (mark :: sign :: digits)

inductive NumberSpelledAs : Token → List Char → Prop where
  | natural (value : Nat) : NumberSpelledAs (.natural value) (Nat.toDigits 10 value)
  | negative (value : Nat) {fraction exponent : List Char} (hFraction : IsFraction fraction)
      (hExponent : IsExponent exponent) :
      NumberSpelledAs .numeral ('-' :: (Nat.toDigits 10 value ++ (fraction ++ exponent)))
  | positive (value : Nat) {fraction exponent : List Char} (hFraction : IsFraction fraction)
      (hExponent : IsExponent exponent) (hSome : fraction ++ exponent ≠ []) :
      NumberSpelledAs .numeral (Nat.toDigits 10 value ++ (fraction ++ exponent))

/-- A number can end in front of the text. -/
def Ends (text : List Char) : Prop :=
  ∀ character ∈ text.head?,
    character.isDigit = false ∧ character ≠ '.' ∧ character ≠ 'e' ∧ character ≠ 'E'

/-! ## Tokens -/

inductive Token.SpelledAs : Token → List Char → Prop where
  | openArray : SpelledAs .openArray ['[']
  | closeArray : SpelledAs .closeArray [']']
  | openObject : SpelledAs .openObject ['\x7b']
  | closeObject : SpelledAs .closeObject ['\x7d']
  | comma : SpelledAs .comma [',']
  | colon : SpelledAs .colon [':']
  | null : SpelledAs .null ['n', 'u', 'l', 'l']
  | true : SpelledAs (.bool .true) ['t', 'r', 'u', 'e']
  | false : SpelledAs (.bool .false) ['f', 'a', 'l', 's', 'e']
  | string {pieces : List Piece} {text : List Char} (h : PiecesSpelledAs pieces text) :
      SpelledAs (.string ((meaning pieces).map String.ofList)) ('\x22' :: (text ++ ['\x22']))

def isBlank (character : Char) : Bool := [' ', '\t', '\n', '\r'].contains character

/-- A text is a spelling of some tokens, with blanks before, between and after them. -/
inductive Spelled : List Token → List Char → Prop where
  | nil : Spelled [] []
  | blank {character : Char} {tokens : List Token} {text : List Char}
      (hBlank : isBlank character = true) (hRest : Spelled tokens text) :
      Spelled tokens (character :: text)
  | token {token : Token} {tokens : List Token} {spelling text : List Char}
      (hToken : token.SpelledAs spelling) (hRest : Spelled tokens text) :
      Spelled (token :: tokens) (spelling ++ text)
  | number {token : Token} {tokens : List Token} {spelling text : List Char}
      (hNumber : NumberSpelledAs token spelling) (hEnds : Ends text) (hRest : Spelled tokens text) :
      Spelled (token :: tokens) (spelling ++ text)

end ChunkFilters.Json
