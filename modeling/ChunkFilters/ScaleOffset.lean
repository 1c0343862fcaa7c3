import ChunkFilters.Bits.Packed
import ChunkFilters.Filter
import ChunkFilters.ScaleOffset.Reconstruct

/-!
# Scaled offsets

A chunk stores how far each element lies above a minimum, in as few bits as the largest offset
needs. It starts with a header of 21 bytes: the number of bits of a packed value in four bytes, the
size of the minimum in one, and the minimum, all least significant byte first. Bytes of the header
after the minimum are not looked at.

Packed values as wide as the elements are the elements themselves, stored as they are. Narrower
ones are unpacked and reconstructed; with no bits at all, nothing is stored after the header.
-/

namespace ChunkFilters.ScaleOffset

/-! ## The header -/

def headerSize : Nat := 21

structure Header where
  /-- The number of bits of a packed value. -/
  packedBits : Nat
  minimum : Nat
deriving DecidableEq, Repr

/-- The header of an encoded chunk. A minimum that claims more than eight bytes has eight. -/
def Header.ofInput (input : Bytes) : Except CodecError Header :=
  if input.length < headerSize then
    .error (.invalidData
      s!"scaleoffset input of {input.length} bytes is shorter than its {headerSize} byte header"
      (some 0))
  else
    let minimumSize := min (Bytes.littleEndian ((input.drop 4).take 1)) Word.maxSize
    .ok {
      packedBits := Bytes.littleEndian (input.take 4)
      minimum := Word.read ((input.drop 5).take minimumSize) }

/-! ## The elements -/

/-- Packed values are unpacked into the lowest bits of an element. -/
def packedLayout (kind : ElementKind) (packedBits : Nat) : PackedAtomic :=
  { size := kind.size, order := .native, precision := packedBits, offset := 0 }

def unpackValue (kind : ElementKind) (packedBits : Nat) (cursor : BitCursor) :
    Except Exhausted (Nat × BitCursor) :=
  match (packedLayout kind packedBits).unpack 0 (Array.replicate kind.size 0) cursor with
  | .error interrupted => .error interrupted.error
  | .ok (bytes, cursor) => .ok (Word.read bytes.toList, cursor)

/-- Unpacks the values of a chunk. Values without bits are zero and take nothing from the input. -/
def unpackValues (kind : ElementKind) (packedBits elements : Nat) (payload : Bytes) :
    Except Exhausted (Array Nat) :=
  if packedBits = 0 then .ok (Array.replicate elements 0)
  else
    match BitCursor.readMany (unpackValue kind packedBits) elements (.start payload) #[] with
    | .error error => .error error
    | .ok (values, _) => .ok values

def decodeElements (parameters : Parameters) (header : Header) (payload : Bytes) :
    Except CodecError Bytes :=
  let kind := parameters.kind
  if header.packedBits = kind.bits then
    let size := parameters.elements * kind.size
    if payload.length < size then
      .error (.invalidData
        s!"scaleoffset payload of {payload.length} bytes is shorter than {size} bytes"
        (some headerSize))
    else .ok (payload.take size)
  else if kind.bits < header.packedBits then
    .error (.invalidData
      s!"scaleoffset minimum bits {header.packedBits} exceed the {kind.bits} bit element" (some 0))
  else
    match unpackValues kind header.packedBits parameters.elements payload with
    | .error error => .error (.invalidData error.message (some (headerSize + error.byteIndex)))
    | .ok values =>
      .ok (values.toList.flatMap fun packed =>
        Bytes.toLittleEndian kind.size
          (reconstruct parameters header.packedBits header.minimum packed))

/-- Brings elements from native into their stored byte order. -/
def toOrder (order : ByteOrder) (size : Nat) (bytes : Bytes) : Bytes :=
  if order = .native then bytes else Word.swapByteOrder size bytes

/-! ## The filter -/

def decode (memory : Memory) (request : DecodeRequest) : Except CodecError Decoded :=
  match Parameters.ofParams request.params with
  | .error error => .error error.toCodecError
  | .ok parameters => do
    let header ← Header.ofInput request.input
    memory.reserve (parameters.elements * parameters.kind.size)
    let elements ← decodeElements parameters header (request.input.drop headerSize)
    return .fresh (toOrder parameters.order parameters.kind.size elements)

def filter (memory : Memory) : Filter where
  id := .scaleOffset
  name
  decode := Filter.decodeOnly name (decode memory)

end ChunkFilters.ScaleOffset
