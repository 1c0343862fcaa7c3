/-!
# Writing JSON

Compact JSON text: no blanks, and in strings only what has to be escaped is. `quoted` writes a
string, `natural` a number, `array` and `object` join the texts of their parts.
-/

namespace ChunkFilters.Json.Text

/-! ## Strings -/

/-- A digit of a hexadecimal number, in lower case. -/
def hexDigit (digit : Nat) : Char := digit.digitChar

/-- Characters with an escape of one letter, and the letter. -/
def shortEscapes : List (Char × Char) :=
  [('\x22', '\x22'), ('\x5c', '\x5c'), ('\x08', 'b'), ('\x0c', 'f'), ('\n', 'n'), ('\r', 'r'),
    ('\t', 't')]

/-- A character as it is written in a string: control characters, quotes and backslashes are
escaped, and nothing else. -/
def escaped (character : Char) : List Char :=
  match shortEscapes.lookup character with
  | some letter => ['\x5c', letter]
  | none =>
    if character.toNat < 0x20 then
      ['\x5c', 'u', '0', '0', hexDigit (character.toNat / 16), hexDigit (character.toNat % 16)]
    else [character]

def quoted (text : String) : List Char := '\x22' :: text.toList.flatMap escaped ++ ['\x22']

/-! ## Values -/

def natural (value : Nat) : List Char := Nat.toDigits 10 value

def commaSeparated : List (List Char) → List Char
  | [] => []
  | [text] => text
  | text :: rest => text ++ ',' :: commaSeparated rest

theorem commaSeparated_cons_cons (first second : List Char) (rest : List (List Char)) :
    commaSeparated (first :: second :: rest) = first ++ ',' :: commaSeparated (second :: rest) :=
  rfl

def array (items : List (List Char)) : List Char := '[' :: commaSeparated items ++ [']']

def member (key : String) (value : List Char) : List Char := quoted key ++ ':' :: value

def object (members : List (List Char)) : List Char := '\x7b' :: commaSeparated members ++ ['\x7d']

end ChunkFilters.Json.Text
