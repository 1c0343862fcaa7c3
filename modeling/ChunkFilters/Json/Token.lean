/-!
# JSON tokens

A text is scanned one character at a time. `Scan` is what is known of a token that has begun,
`step` takes one character, and `scan` goes through a text; a scan can be refused at any character
and at the end. Numbers are the only tokens whose end is seen in the character after them.

Strings may contain escapes that stand for half of a surrogate pair. Such a string is a string for
the grammar, but it is no text.
-/

namespace ChunkFilters.Json

inductive Token where
  | openArray
  | closeArray
  | openObject
  | closeObject
  | comma
  | colon
  | null
  | bool (value : Bool)
  | natural (value : Nat)
  /-- A number with a sign, a fraction or an exponent. -/
  | numeral
  /-- A string, and its text if it has one. -/
  | string (text : Option String)
deriving DecidableEq, Repr

/-! ## Numbers -/

inductive NumberPart where
  | sign
  | zero (negative : Bool)
  | digits (negative : Bool) (value : Nat)
  | point
  | fraction
  | exponent
  | exponentSign
  | exponentDigits
deriving DecidableEq, Repr

def digitValue (character : Char) : Nat := character.toNat - '0'.toNat

namespace NumberPart

/-- The start of an integer part. A zero is an integer part of its own. -/
def integer? (negative : Bool) (character : Char) : Option NumberPart :=
  if character = '0' then some (zero negative)
  else if character.isDigit then some (digits negative (digitValue character))
  else none

def afterInteger? (character : Char) : Option NumberPart :=
  if character = '.' then some point
  else if character = 'e' ∨ character = 'E' then some exponent
  else none

/-- The number with one more character, if it goes on with it. -/
def next? (part : NumberPart) (character : Char) : Option NumberPart :=
  match part with
  | sign => integer? true character
  | zero _ => afterInteger? character
  | digits negative value =>
    if character.isDigit then some (digits negative (10 * value + digitValue character))
    else afterInteger? character
  | point => if character.isDigit then some fraction else none
  | fraction =>
    if character.isDigit then some fraction
    else if character = 'e' ∨ character = 'E' then some exponent
    else none
  | exponent =>
    if character = '+' ∨ character = '-' then some exponentSign
    else if character.isDigit then some exponentDigits
    else none
  | exponentSign => if character.isDigit then some exponentDigits else none
  | exponentDigits => if character.isDigit then some exponentDigits else none

/-- The token of a number that ends here, if it may. -/
def token? : NumberPart → Option Token
  | zero false => some (.natural 0)
  | digits false value => some (.natural value)
  | zero true | digits true _ | fraction | exponentDigits => some .numeral
  | sign | point | exponent | exponentSign => none

end NumberPart

/-! ## Strings -/

structure PartialText where
  /-- The characters so far, the last one first, unless there is no text. -/
  reversed : Option (List Char) := some []
  /-- The upper half of a surrogate pair whose lower half has to follow. -/
  pending : Option Nat := none
deriving DecidableEq, Repr

namespace PartialText

/-- No text, whatever follows. -/
def broken : PartialText := { reversed := none }

def push (text : PartialText) (character : Char) : PartialText :=
  match text.pending with
  | some _ => broken
  | none => { text with reversed := text.reversed.map (character :: ·) }

def isUpperSurrogate (unit : Nat) : Bool := 0xD800 ≤ unit && unit < 0xDC00

def isLowerSurrogate (unit : Nat) : Bool := 0xDC00 ≤ unit && unit < 0xE000

def surrogatePair (upper lower : Nat) : Char :=
  Char.ofNat (0x10000 + (upper - 0xD800) * 0x400 + (lower - 0xDC00))

/-- Adds a code unit that was written as an escape. -/
def pushUnit (text : PartialText) (unit : Nat) : PartialText :=
  match text.pending with
  | some upper =>
    if isLowerSurrogate unit then
      { reversed := text.reversed.map (surrogatePair upper unit :: ·), pending := none }
    else broken
  | none =>
    if isUpperSurrogate unit then { text with pending := some unit }
    else if isLowerSurrogate unit then broken
    else text.push (Char.ofNat unit)

/-- The text of a string that ends here, if it has one. -/
def finish (text : PartialText) : Option String :=
  match text.pending with
  | some _ => none
  | none => text.reversed.map fun reversed => String.ofList reversed.reverse

end PartialText

/-- The character that an escape of one letter stands for. -/
def escape? (letter : Char) : Option Char :=
  [('\x22', '\x22'), ('\x5c', '\x5c'), ('/', '/'), ('b', '\x08'), ('f', '\x0c'), ('n', '\n'),
    ('r', '\r'), ('t', '\t')].lookup letter

def hexValue? (character : Char) : Option Nat :=
  if character.isDigit then some (digitValue character)
  else if 'a' ≤ character ∧ character ≤ 'f' then some (character.toNat - 'a'.toNat + 10)
  else if 'A' ≤ character ∧ character ≤ 'F' then some (character.toNat - 'A'.toNat + 10)
  else none

/-! ## Scanning -/

/-- A token that has begun, if any. -/
inductive Scan where
  | between
  /-- A word with the given letters still to come. -/
  | word (rest : List Char) (token : Token)
  | number (part : NumberPart)
  | string (text : PartialText)
  | escape (text : PartialText)
  /-- Before the last `digits + 1` digits of a code unit, with the value of those before them. -/
  | unit (text : PartialText) (digits value : Nat)
deriving DecidableEq, Repr

namespace Scan

/-- The first character of a token, or a blank. -/
def start (character : Char) : Option (Scan × List Token) :=
  match character with
  | ' ' | '\t' | '\n' | '\r' => some (between, [])
  | '[' => some (between, [.openArray])
  | ']' => some (between, [.closeArray])
  | '\x7b' => some (between, [.openObject])
  | '\x7d' => some (between, [.closeObject])
  | ',' => some (between, [.comma])
  | ':' => some (between, [.colon])
  | '\x22' => some (string {}, [])
  | 'n' => some (word ['u', 'l', 'l'] .null, [])
  | 't' => some (word ['r', 'u', 'e'] (.bool true), [])
  | 'f' => some (word ['a', 'l', 's', 'e'] (.bool false), [])
  | '-' => some (number .sign, [])
  | _ => (NumberPart.integer? false character).map fun part => (number part, [])

def stepString (text : PartialText) (character : Char) : Option (Scan × List Token) :=
  if character = '\x22' then some (between, [.string text.finish])
  else if character = '\x5c' then some (escape text, [])
  else if character.toNat < 0x20 then none
  else some (string (text.push character), [])

/-- One more character, with the tokens that it ends or is. -/
def step (scan : Scan) (character : Char) : Option (Scan × List Token) :=
  match scan with
  | between => start character
  | word [] _ => none
  | word [last] token => if character = last then some (between, [token]) else none
  | word (letter :: rest) token => if character = letter then some (word rest token, []) else none
  | number part =>
    match part.next? character with
    | some part => some (number part, [])
    | none =>
      match part.token?, start character with
      | some token, some (scan, tokens) => some (scan, token :: tokens)
      | _, _ => none
  | string text => stepString text character
  | escape text =>
    if character = 'u' then some (unit text 3 0, [])
    else (escape? character).map fun meant => (string (text.push meant), [])
  | unit text digits value =>
    (hexValue? character).map fun digit =>
      match digits with
      | 0 => (string (text.pushUnit (16 * value + digit)), [])
      | digits + 1 => (unit text digits (16 * value + digit), [])

/-- The tokens that the end of the text ends. -/
def finish : Scan → Option (List Token)
  | between => some []
  | number part => part.token?.map ([·])
  | _ => none

/-- Scans a text; the tokens so far are in `done`. -/
def scanFrom : Scan → Array Token → List Char → Option (List Token)
  | scan, done, [] => scan.finish.map fun tokens => done.toListAppend tokens
  | scan, done, character :: rest =>
    match scan.step character with
    | none => none
    | some (scan, tokens) => scanFrom scan (done ++ tokens) rest

end Scan

/-- The tokens of a text, if it consists of tokens and blanks. -/
def tokens? (text : String) : Option (List Token) := Scan.scanFrom .between #[] text.toList

end ChunkFilters.Json
