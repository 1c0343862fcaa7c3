import ChunkFilters.Json.Token

/-!
# Reading JSON

A value is read from its tokens with a stack of the arrays and objects that are still open. The
stack is explicit, so values may nest to any depth. The grammar is strict: one value, and nothing
after it.

Numbers other than naturals are all alike, since nothing here takes one. Members of an object keep
their order, and a key may occur more than once.
-/

namespace ChunkFilters

inductive Json where
  | null
  | bool (value : Bool)
  | natural (value : Nat)
  /-- A number with a sign, a fraction or an exponent. -/
  | numeral
  /-- A string, and its text if it has one. -/
  | string (text : Option String)
  | array (items : List Json)
  | object (members : List (Option String × Json))

namespace Json

/-- The members of an object that has begun, the last one first. -/
abbrev Members := List (Option String × Json)

/-- An open array or object that waits for a value, with the values before it, the last one
first. -/
inductive Frame where
  | array (items : List Json)
  | object (members : Members) (key : Option String)

inductive Expected where
  | value
  | firstItem
  | firstKey
  /-- A key, after the given members. -/
  | key (members : Members)
  | colon (members : Members) (key : Option String)
  | afterValue (value : Json)

structure Reading where
  stack : List Frame := []
  expected : Expected := .value

namespace Reading

def startValue (stack : List Frame) : Token → Option Reading
  | .null => some ⟨stack, .afterValue .null⟩
  | .bool value => some ⟨stack, .afterValue (.bool value)⟩
  | .natural value => some ⟨stack, .afterValue (.natural value)⟩
  | .numeral => some ⟨stack, .afterValue .numeral⟩
  | .string text => some ⟨stack, .afterValue (.string text)⟩
  | .openArray => some ⟨.array [] :: stack, .firstItem⟩
  | .openObject => some ⟨stack, .firstKey⟩
  | _ => none

def continueAfter (value : Json) : List Frame → Token → Option Reading
  | .array items :: stack, .comma => some ⟨.array (value :: items) :: stack, .value⟩
  | .array items :: stack, .closeArray =>
    some ⟨stack, .afterValue (.array (value :: items).reverse)⟩
  | .object members key :: stack, .comma => some ⟨stack, .key ((key, value) :: members)⟩
  | .object members key :: stack, .closeObject =>
    some ⟨stack, .afterValue (.object ((key, value) :: members).reverse)⟩
  | _, _ => none

def step (reading : Reading) (token : Token) : Option Reading :=
  match reading.expected, reading.stack, token with
  | .value, stack, token => startValue stack token
  | .firstItem, .array [] :: stack, .closeArray => some ⟨stack, .afterValue (.array [])⟩
  | .firstItem, stack, token => startValue stack token
  | .firstKey, stack, .closeObject => some ⟨stack, .afterValue (.object [])⟩
  | .firstKey, stack, .string key => some ⟨stack, .colon [] key⟩
  | .key members, stack, .string key => some ⟨stack, .colon members key⟩
  | .colon members key, stack, .colon => some ⟨.object members key :: stack, .value⟩
  | .afterValue value, stack, token => continueAfter value stack token
  | _, _, _ => none

/-- The value that has been read, if nothing is open. -/
def finish : Reading → Option Json
  | ⟨[], .afterValue value⟩ => some value
  | _ => none

def run : Reading → List Token → Option Reading
  | reading, [] => some reading
  | reading, token :: rest => (reading.step token).bind fun reading => reading.run rest

theorem run_append (reading : Reading) (first second : List Token) :
    reading.run (first ++ second) =
      (reading.run first).bind fun reading => reading.run second := by
  induction first generalizing reading with
  | nil => rfl
  | cons token rest ih =>
    simp only [List.cons_append, run]
    cases reading.step token with
    | none => rfl
    | some reading => exact ih reading

end Reading

/-- The value that some tokens are, if they are one. -/
def ofTokens? (tokens : List Token) : Option Json := (Reading.run {} tokens).bind Reading.finish

def ofText? (text : String) : Option Json := (tokens? text).bind ofTokens?

end Json

end ChunkFilters
