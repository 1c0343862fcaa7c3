import ChunkFilters.Filter

/-!
# Byte shuffling

A shuffled chunk holds byte 0 of every element, then byte 1 of every element, and so on; bytes at
the end that form no whole element stay where they are. With elements of `size` bytes, and `count`
whole elements, byte `i` of element `j` is moved between the positions `i * count + j` and
`j * size + i`. Elements of at most one byte, and chunks of fewer than two elements, are not moved.

`shuffle` and `unshuffle` read one source byte for each byte they make, by these two positions.
-/

namespace ChunkFilters.Shuffle

def elementCount (size : Nat) (bytes : Bytes) : Nat := bytes.length / size

/-- Whether shuffling leaves the bytes where they are. -/
def isTrivial (size : Nat) (bytes : Bytes) : Bool := size ≤ 1 || elementCount size bytes < 2

/-- The bytes at the positions that `source` gives, for each position in turn. A source outside the
string stands for the byte in place. -/
def gather (bytes : Bytes) (source : Nat → Nat) : Bytes :=
  let stored := bytes.toArray
  List.ofFn fun target : Fin stored.size => (stored[source target]?).getD stored[target]

/-- Where the byte at a position of an unshuffled chunk is found in the shuffled one. -/
def shuffledPosition (size count position : Nat) : Nat :=
  if position < size * count then position % size * count + position / size else position

def unshuffle (size : Nat) (bytes : Bytes) : Bytes :=
  if isTrivial size bytes then bytes
  else gather bytes (shuffledPosition size (elementCount size bytes))

def shuffle (size : Nat) (bytes : Bytes) : Bytes :=
  if isTrivial size bytes then bytes
  else gather bytes (shuffledPosition (elementCount size bytes) size)

theorem length_gather (bytes : Bytes) (source : Nat → Nat) :
    (gather bytes source).length = bytes.length := by
  simp [gather]

theorem getElem?_gather {bytes : Bytes} {source : Nat → Nat} {target : Nat}
    (h : target < bytes.length) (hSource : source target < bytes.length) :
    (gather bytes source)[target]? = bytes[source target]? := by
  simp [gather, h, hSource]

theorem length_unshuffle (size : Nat) (bytes : Bytes) :
    (unshuffle size bytes).length = bytes.length := by
  unfold unshuffle
  split
  · rfl
  · exact length_gather _ _

theorem length_shuffle (size : Nat) (bytes : Bytes) :
    (shuffle size bytes).length = bytes.length := by
  unfold shuffle
  split
  · rfl
  · exact length_gather _ _

/-- Undoes a shuffle in a new buffer. -/
def unshuffleCopy (memory : Memory) (size : Nat) (bytes : Bytes) : Except CodecError Buffer := do
  memory.reserve bytes.length
  return unshuffle size bytes

theorem unshuffleCopy_of_allows {memory : Memory} {bytes : Bytes}
    (h : memory.allows bytes.length = true) (size : Nat) :
    unshuffleCopy memory size bytes = .ok (unshuffle size bytes) := by
  rw [unshuffleCopy, Memory.reserve_of_allows h]
  rfl

theorem unshuffleCopy_of_not_allows {memory : Memory} {bytes : Bytes}
    (h : memory.allows bytes.length = false) (size : Nat) :
    unshuffleCopy memory size bytes = .error (.allocation bytes.length) := by
  rw [unshuffleCopy, Memory.reserve_of_not_allows h]
  rfl

/-! ## The filter -/

def name : String := "shuffle"

/-- Undoes the shuffle of elements whose size is the first parameter. -/
def decode (memory : Memory) (request : DecodeRequest) : Except CodecError Decoded :=
  match request.params.head? with
  | none => .error (.invalidParameters name "missing the element size")
  | some size =>
    if isTrivial size.toNat request.input then .ok (.unchanged request.input)
    else do return .fresh (← unshuffleCopy memory size.toNat request.input)

def filter (memory : Memory) : Filter where
  id := .shuffle
  name
  decode := Filter.decodeOnly name (decode memory)

end ChunkFilters.Shuffle
