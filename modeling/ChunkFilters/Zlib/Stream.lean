import ChunkFilters.Zlib.Block

/-!
# Streams

A stream starts with a header of two bytes and ends, after its last block, with a checksum of what
it expands to. What follows the checksum is not part of it. `decode` says what a stream expands to
and, where it is malformed or cut short, what it had expanded to until then.
-/

namespace ChunkFilters.Zlib

/-! ## Checksum -/

/-- The largest prime below `2 ^ 16`. -/
def adlerModulus : Nat := 65521

/-- The checksum of a byte string: one plus the sum of the bytes, and the sum of these sums, both
modulo a prime. -/
def adler32 (bytes : Array UInt8) : Nat :=
  let (first, second) := bytes.foldl (fun (sums : Nat × Nat) byte =>
    let first := (sums.1 + byte.toNat) % adlerModulus
    (first, (sums.2 + first) % adlerModulus)) (1, 0)
  second * 65536 + first

/-! ## Framing -/

/-- Whether the header announces a deflate stream with a window of at most 32 KiB and without a
preset dictionary, and is a multiple of 31. -/
def isHeader (method flags : Nat) : Bool :=
  method % 16 == 8 && method / 16 ≤ 7 && flags / 32 % 2 == 0 && (256 * method + flags) % 31 == 0

def readHeader (stream : BitStream) : Except Fault BitStream :=
  match stream.readBits 16 with
  | .error fault => .error fault
  | .ok (header, stream) =>
    if isHeader (header % 256) (header / 256) then .ok stream else .error .malformed

/-- Reads the checksum at the end and compares it with that of the output. -/
def checkTrailer (stream : BitStream) (output : Array UInt8) : Except Fault Unit :=
  match stream.align.readBits 32 with
  | .error fault => .error fault
  | .ok (stored, _) =>
    if Bytes.bigEndian (Bytes.toLittleEndian 4 stored) = adler32 output then .ok ()
    else .error .malformed

structure Expansion where
  output : Bytes
  /-- What is wrong with the stream after that, if it does not end there. -/
  fault : Option Fault
deriving DecidableEq, Repr

def decode (input : Bytes) : Expansion :=
  match readHeader (.ofBytes input) with
  | .error fault => ⟨[], some fault⟩
  | .ok stream =>
    match readBlocks stream #[] with
    | (output, .error fault) => ⟨output.toList, some fault⟩
    | (output, .ok stream) =>
      match checkTrailer stream output with
      | .error fault => ⟨output.toList, some fault⟩
      | .ok () => ⟨output.toList, none⟩

end ChunkFilters.Zlib
