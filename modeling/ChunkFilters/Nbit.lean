import ChunkFilters.Filter
import ChunkFilters.Nbit.Walk

/-!
# Packed elements of any datatype

A chunk of packed elements keeps the significant bits of each atomic part of its elements, end to
end and without regard for byte boundaries, and the whole bytes of each part that is stored as it
is. The parameters are

* the number of parameters,
* whether the chunk was stored without packing (nonzero),
* the number of elements,
* the class of their datatype and its description, which starts with its size.

The description is checked only while elements are unpacked: a chunk of no elements accepts any.
-/

namespace ChunkFilters.Nbit

def name : String := "nbit"

inductive ParameterError where
  | missing (index : Nat)
  | countMismatch (declared actual : Nat)
  /-- The datatype of the elements has no class, or is stored as it is. -/
  | invalidElementClass
  | elementSizeZero
  | description (error : DescriptionError) (count : Nat)
  /-- The description ended before the parameters did. -/
  | leftOver (used count : Nat)
deriving DecidableEq, Repr

def ParameterError.message : ParameterError → String
  | missing index => s!"missing client data value {index}"
  | countMismatch declared actual => s!"declared {declared} client data values, got {actual}"
  | invalidElementClass => "invalid datatype class"
  | elementSizeZero => "datatype size is zero"
  | description error count => error.message count
  | leftOver used count => s!"datatype description used {used} of {count} client data values"

/-! ## Parameters -/

inductive Chunk where
  | verbatim
  | packed (elements : Nat) (elementClass : DatatypeClass) (elementSize : Nat)
      (description : Description)
deriving DecidableEq, Repr

def parameter (params : List UInt32) (index : Nat) : Except ParameterError Nat :=
  match params[index]? with
  | some value => .ok value.toNat
  | none => .error (.missing index)

/-- The class of the elements; elements that are stored as they are need no packing. -/
def elementClass (params : List UInt32) : Except ParameterError DatatypeClass :=
  match params[3]?.bind DatatypeClass.ofParameter? with
  | some .noOp | none => .error .invalidElementClass
  | some elementClass => .ok elementClass

def Chunk.ofParameters (params : List UInt32) : Except ParameterError Chunk := do
  let declared ← parameter params 0
  if declared ≠ params.length then .error (.countMismatch declared params.length)
  else if (← parameter params 1) ≠ 0 then return .verbatim
  else
    let elements ← parameter params 2
    let elementClass ← elementClass params
    let elementSize ← parameter params 4
    if elementSize = 0 then .error .elementSizeZero
    else return .packed elements elementClass elementSize (params.drop 4)

/-! ## Elements -/

/-- Why the walk of a description of `count` parameters does not end where they end, if so. -/
def Walk.fault? (walk : Walk) (count : Nat) : Option ParameterError :=
  match walk.ending with
  | .error error => some (.description error count)
  | .ok [] => none
  | .ok rest => some (.leftOver (count - rest.length) count)

def unpackElement (layout : Layout) (size : Nat) (cursor : BitCursor) :
    Except Exhausted Unpacking :=
  layout.unpack 0 (Array.replicate size 0, cursor)

def invalid (error : ParameterError) : CodecError := .invalidParameters name error.message

/-- Unpacks the elements of a chunk. A description at fault is noticed in the first element, after
what precedes the fault has been unpacked. -/
def unpackElements (walk : Walk) (size count elements : Nat) (input : Bytes) :
    Except CodecError Bytes :=
  if elements = 0 then .ok []
  else match walk.fault? count with
    | some error =>
      match unpackElement walk.layout size (.start input) with
      | .error error => .error (.ofExhausted error)
      | .ok _ => .error (invalid error)
    | none =>
      match BitCursor.readMany (unpackElement walk.layout size) elements (.start input) #[] with
      | .error error => .error (.ofExhausted error)
      | .ok (unpacked, _) => .ok (unpacked.toList.flatMap Array.toList)

/-! ## The filter -/

def decode (memory : Memory) (request : DecodeRequest) : Except CodecError Decoded := do
  match Chunk.ofParameters request.params with
  | .error error => .error (invalid error)
  | .ok .verbatim => return .unchanged request.input
  | .ok (.packed elements elementClass elementSize description) =>
    memory.reserve (elements * elementSize)
    let walk := Walk.datatype maxNesting elementClass elementSize description
    return .fresh
      (← unpackElements walk elementSize request.params.length elements request.input)

def filter (memory : Memory) : Filter where
  id := .nbit
  name
  decode := Filter.decodeOnly name (decode memory)

end ChunkFilters.Nbit
