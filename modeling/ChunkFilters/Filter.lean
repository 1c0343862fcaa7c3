import ChunkFilters.Buffer
import ChunkFilters.Filter.Flags
import ChunkFilters.Options

/-!
# Filters

A filter is a reversible transform of bytes, known by its identifier. Only the reverse direction is
carried out here: a `Filter` undoes what was done to a chunk when it was stored. It keeps no state,
so all that it depends on is in the `DecodeRequest`.

A filter may leave its output where it is, as a part of its input (`Decoded.part`), or make a new
buffer for it (`Decoded.fresh`). Output that starts where the input starts (`Decoded.leading`) needs
no new buffer at all, and the size hint of the next filter stays what it was. The size hint after a
new buffer is its capacity.
-/

namespace ChunkFilters

structure DecodeRequest where
  flags : FilterFlags
  /-- The parameters that were stored with the filter. -/
  params : List UInt32
  input : Bytes
  /-- The capacity of the buffer that holds the input, for filters that cannot tell how much they
  will produce. -/
  sizeHint : Nat
  options : CodecOptions

inductive Decoded where
  /-- The `count` bytes of the input from `start` on, or as many of them as there are. -/
  | part (start count : Nat)
  | fresh (buffer : Buffer)
deriving DecidableEq, Repr

namespace Decoded

@[match_pattern]
def leading (count : Nat) : Decoded := part 0 count

/-- The bytes themselves, given the input they were made from. -/
def bytes (input : Bytes) : Decoded → Bytes
  | part start count => (input.drop start).take count
  | fresh buffer => buffer.bytes

@[simp] theorem bytes_leading (input : Bytes) (count : Nat) :
    (leading count).bytes input = input.take count :=
  rfl

def unchanged (input : Bytes) : Decoded := leading input.length

@[simp] theorem bytes_unchanged (input : Bytes) : (unchanged input).bytes input = input :=
  List.take_length

end Decoded

structure Filter where
  id : FilterId
  name : String
  version : Nat := 1
  decode : DecodeRequest → Except CodecError Decoded

namespace Filter

def run (filter : Filter) (request : DecodeRequest) : Except CodecError Bytes :=
  (filter.decode request).map (Decoded.bytes request.input)

/-- Refuses every request that does not ask for the filter to be undone. -/
def decodeOnly (name : String) (decode : DecodeRequest → Except CodecError Decoded)
    (request : DecodeRequest) : Except CodecError Decoded :=
  if request.flags.contains .reverse then decode request else .error (.encodeUnsupported name)

theorem decodeOnly_of_reverse {name : String} {request : DecodeRequest}
    (h : request.flags.contains .reverse = true)
    (decode : DecodeRequest → Except CodecError Decoded) :
    decodeOnly name decode request = decode request := by
  rw [decodeOnly, if_pos h]

end Filter

end ChunkFilters
