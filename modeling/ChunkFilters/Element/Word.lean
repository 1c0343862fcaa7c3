import ChunkFilters.Bytes
import ChunkFilters.Element

/-!
# Words

A word is the bit pattern of an element, held as a natural number below `2 ^ 64`. Words are read
from at most eight bytes and written to at most eight bytes, least significant byte first; the
remaining functions mask a word, read it as a signed number, reverse the bytes of stored elements,
and assemble a word from filter parameters.
-/

namespace ChunkFilters.Word

def maxSize : Nat := 8

def read (bytes : Bytes) : Nat := Bytes.littleEndian (bytes.take maxSize)

/-- Overwrites the first bytes, at most eight, with the low bytes of a word. -/
def write (bytes : Bytes) (word : Nat) : Bytes :=
  Bytes.toLittleEndian (min bytes.length maxSize) word ++ bytes.drop maxSize

/-- The word whose lowest `bits` bits are set. -/
def lowMask (bits : Nat) : Nat := (1 <<< min bits 64) - 1

/-- The two's complement reading of the lowest `bits` bits of a word; a width of zero, or of more
than 64, reads the whole word. -/
def signed (word bits : Nat) : Int :=
  Int.bmod word (1 <<< if bits = 0 ∨ 64 ≤ bits then 64 else bits)

/-- Splits off elements of `size` bytes from the front and reverses each; bytes that form no whole
element stay as they are. The count says how many elements are left to reverse. -/
def swapElements (size : Nat) : Nat → Bytes → Array UInt8 → Bytes
  | 0, bytes, done => done.toListAppend bytes
  | count + 1, bytes, done =>
    swapElements size count (bytes.drop size) (done ++ (bytes.take size).reverse)

/-- Reverses the bytes of every whole element of `size` bytes. -/
def swapByteOrder (size : Nat) (bytes : Bytes) : Bytes :=
  if size ≤ 1 then bytes else swapElements size (bytes.length / size) bytes #[]

/-- The number of parameters that hold a value of `size` bytes. -/
def parameterCount (size : Nat) : Nat := (size + 3) / 4

/-- The word of `size` bytes that was copied into consecutive parameters, four bytes to each, if
there are enough of them. -/
def ofParameters? (params : List UInt32) (size : Nat) : Option Nat :=
  let count := parameterCount size
  if params.length < count then none
  else
    let bytes := (params.take count).flatMap fun param => Bytes.toLittleEndian 4 param.toNat
    some (read (bytes.take size))

theorem signed_of_width {bits : Nat} (hPos : 0 < bits) (hLt : bits < 64) (word : Nat) :
    signed word bits = Int.bmod word (1 <<< bits) := by
  rw [signed, if_neg (by omega)]

theorem length_write (bytes : Bytes) (word : Nat) : (write bytes word).length = bytes.length := by
  simp only [write, List.length_append, Bytes.length_toLittleEndian, List.length_drop]
  omega

theorem length_swapElements {size count : Nat} {bytes : Bytes} {done : Array UInt8} :
    (swapElements size count bytes done).length = done.size + bytes.length := by
  induction count generalizing bytes done with
  | zero => simp [swapElements]
  | succ count ih =>
    rw [swapElements, ih, ← Array.length_toList, Array.toList_appendList]
    simp
    omega

theorem length_swapByteOrder (size : Nat) (bytes : Bytes) :
    (swapByteOrder size bytes).length = bytes.length := by
  unfold swapByteOrder
  split
  · rfl
  · simp [length_swapElements]

end ChunkFilters.Word
