/-!
# Byte strings

A chunk travels from filter to filter as a list of bytes. This module fixes the two readings of
such a list as a number, the writing of a number as bytes, and the reading of a list as a string of
bits. The laws stated here are

* `toLittleEndian_littleEndian`: writing what was read gives the bytes again;
* `length_bits`: a byte string has eight bits for each of its bytes.

Byte order is a property of a reading, never of the bytes themselves.
-/

namespace ChunkFilters

/-- A byte string: a chunk, or a part of one. -/
abbrev Bytes := List UInt8

namespace Bytes

/-! ## Numbers -/

/-- The number whose base 256 digits are the bytes, the least significant one first. -/
def littleEndian : Bytes → Nat
  | [] => 0
  | byte :: rest => byte.toNat + 256 * littleEndian rest

/-- The number whose base 256 digits are the bytes, the most significant one first. -/
def bigEndian (bytes : Bytes) : Nat := bytes.foldl (fun value byte => 256 * value + byte.toNat) 0

/-- The `count` low base 256 digits of a number, the least significant one first. -/
def toLittleEndian : Nat → Nat → Bytes
  | 0, _ => []
  | count + 1, value => UInt8.ofNat value :: toLittleEndian count (value / 256)

theorem length_toLittleEndian (count value : Nat) :
    (toLittleEndian count value).length = count := by
  induction count generalizing value with
  | zero => rfl
  | succ count ih => simp [toLittleEndian, ih]

theorem toLittleEndian_littleEndian (bytes : Bytes) :
    toLittleEndian bytes.length (littleEndian bytes) = bytes := by
  induction bytes with
  | nil => rfl
  | cons byte rest ih =>
    have hByte := byte.toNat_lt
    have hLow : UInt8.ofNat (byte.toNat + 256 * littleEndian rest) = byte := by
      apply UInt8.toNat_inj.mp
      rw [UInt8.toNat_ofNat']
      omega
    have hHigh : (byte.toNat + 256 * littleEndian rest) / 256 = littleEndian rest := by omega
    simp [toLittleEndian, littleEndian, hLow, hHigh, ih]

/-! ## Bits -/

/-- The bits of one byte, the most significant one first. -/
def byteBits (byte : UInt8) : List Bool := (List.range 8).map fun i => byte.toNat.testBit (7 - i)

/-- The bits of a byte string, the most significant bit of each byte first. -/
def bits (bytes : Bytes) : List Bool := bytes.flatMap byteBits

theorem length_byteBits (byte : UInt8) : (byteBits byte).length = 8 := by simp [byteBits]

theorem length_bits (bytes : Bytes) : (bits bytes).length = 8 * bytes.length := by
  induction bytes with
  | nil => rfl
  | cons byte rest ih =>
    simp only [bits, List.flatMap_cons, List.length_append, List.length_cons,
      length_byteBits] at ih ⊢
    omega

end Bytes

end ChunkFilters
