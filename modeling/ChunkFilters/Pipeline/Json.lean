import ChunkFilters.Json
import ChunkFilters.Json.Text
import ChunkFilters.Pipeline

/-!
# Pipelines as JSON

A pipeline is written as an array of entries. An entry is written as an object with the keys
`filter_id`, `flags`, `name` and `client_params`; the name is left out if there is none.

An entry is read from an object, with its keys in any order, or from an array of the values of the
keys in the order above. Only the identifier is required. Keys other than these are passed over,
while one of these must not be given twice. `null` is no name, and nothing else.
-/

namespace ChunkFilters

namespace Entry

/-! ## Writing -/

def toJsonText (entry : Entry) : List Char :=
  let name := match entry.name with
    | some name => [Json.Text.member "name" (Json.Text.quoted name)]
    | none => []
  let params := entry.params.map fun param => Json.Text.natural param.toNat
  Json.Text.object (
    [Json.Text.member "filter_id" (Json.Text.natural entry.filterId.value.toNat),
      Json.Text.member "flags" (Json.Text.natural entry.flags.bits.toNat)] ++
    name ++
    [Json.Text.member "client_params" (Json.Text.array params)])

/-! ## Values -/

def idOfJson? : Json → Option FilterId
  | .natural value => if value < UInt16.size then some ⟨UInt16.ofNat value⟩ else none
  | _ => none

def flagsOfJson? : Json → Option FilterFlags
  | .natural value => if value < UInt16.size then some ⟨BitVec.ofNat 16 value⟩ else none
  | _ => none

/-- A name, which may be none at all. -/
def nameOfJson? : Json → Option (Option String)
  | .string (some name) => some (some name)
  | .null => some none
  | _ => none

def paramOfJson? : Json → Option UInt32
  | .natural value => if value < UInt32.size then some (UInt32.ofNat value) else none
  | _ => none

def paramsOfJson? : Json → Option (List UInt32)
  | .array items => items.mapM paramOfJson?
  | _ => none

/-! ## Entries -/

structure Given where
  filterId : Option FilterId := none
  flags : Option FilterFlags := none
  name : Option (Option String) := none
  params : Option (List UInt32) := none

/-- The entry with the given values, and nothing where none was given. -/
def Given.entry? (given : Given) : Option Entry :=
  given.filterId.map fun filterId =>
    { filterId
      flags := given.flags.getD .none
      name := given.name.getD none
      params := given.params.getD [] }

/-- A value that is given for the first time. -/
def once {α : Type} (before now : Option α) : Option α :=
  match before with
  | some _ => none
  | none => now

/-- Takes one member of an object. A key that is no text is refused even where it would be passed
over. -/
def Given.addMember (given : Given) (key : Option String) (value : Json) : Option Given :=
  match key with
  | none => none
  | some "filter_id" =>
    (once given.filterId (idOfJson? value)).map fun id => { given with filterId := some id }
  | some "flags" =>
    (once given.flags (flagsOfJson? value)).map fun flags => { given with flags := some flags }
  | some "name" =>
    (once given.name (nameOfJson? value)).map fun name => { given with name := some name }
  | some "client_params" =>
    (once given.params (paramsOfJson? value)).map fun params => { given with params := some params }
  | some _ => some given

def Given.addMembers : Given → Json.Members → Option Given
  | given, [] => some given
  | given, (key, value) :: rest =>
    (given.addMember key value).bind fun given => given.addMembers rest

/-- The values of an array, of which all but the first may be missing from the end. -/
def Given.ofItems? : List Json → Option Given
  | [] => some {}
  | [id] => do return { filterId := some (← idOfJson? id) }
  | [id, flags] => do
    return { filterId := some (← idOfJson? id), flags := some (← flagsOfJson? flags) }
  | [id, flags, name] => do
    return {
      filterId := some (← idOfJson? id)
      flags := some (← flagsOfJson? flags)
      name := some (← nameOfJson? name) }
  | [id, flags, name, params] => do
    return {
      filterId := some (← idOfJson? id)
      flags := some (← flagsOfJson? flags)
      name := some (← nameOfJson? name)
      params := some (← paramsOfJson? params) }
  | _ => none

def ofJson? : Json → Option Entry
  | .object members => (Given.addMembers {} members).bind Given.entry?
  | .array items => (Given.ofItems? items).bind Given.entry?
  | _ => none

end Entry

namespace Pipeline

def toJsonText (pipeline : Pipeline) : String :=
  String.ofList (Json.Text.array (pipeline.entries.map Entry.toJsonText))

inductive JsonError where
  | malformed
  | tooMany (error : TooManyFilters)
deriving DecidableEq, Repr

def entriesOfJson? : Json → Option (List Entry)
  | .array items => items.mapM Entry.ofJson?
  | _ => none

/-- Reads a pipeline. A list of entries that is too long has to be well-formed to be reported as
such. -/
def ofJsonText (text : String) : Except JsonError Pipeline :=
  match (Json.ofText? text).bind entriesOfJson? with
  | none => .error .malformed
  | some entries =>
    match ofEntries entries with
    | .ok pipeline => .ok pipeline
    | .error error => .error (.tooMany error)

end Pipeline

end ChunkFilters
