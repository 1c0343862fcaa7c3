import ChunkFilters.Bytes
import Mathlib.Algebra.Group.Nat.Defs

/-!
# Bytes, numbers and bits

The two readings of a byte string as a number, bit by bit: bit `8 * k + j` of the little endian
number is bit `j` of byte `k`, and the big endian number is the little endian one of the reversed
string. `numberBits` writes the low bits of a number most significant first, which is how every
packed value is stored; `numberBits_add` cuts such a string in two. `numberOfBits` reads it again.
-/

namespace ChunkFilters

namespace Bytes

/-! ## Numbers -/

theorem littleEndian_toLittleEndian (count value : Nat) :
    littleEndian (toLittleEndian count value) = value % 256 ^ count := by
  induction count generalizing value with
  | zero => simp [toLittleEndian, littleEndian, Nat.mod_one]
  | succ count ih =>
    simp only [toLittleEndian, littleEndian, ih, UInt8.toNat_ofNat']
    have hPow : 256 ^ (count + 1) = 256 * 256 ^ count := Nat.pow_succ'
    rw [hPow, Nat.mod_mul]

theorem littleEndian_lt (bytes : Bytes) : littleEndian bytes < 256 ^ bytes.length := by
  have hSame := littleEndian_toLittleEndian bytes.length (littleEndian bytes)
  rw [toLittleEndian_littleEndian] at hSame
  rw [hSame]
  exact Nat.mod_lt _ (Nat.pow_pos (by decide))

/-- A byte of a string, zero beyond its end. -/
def byteAt (bytes : Bytes) (index : Nat) : UInt8 := bytes[index]?.getD 0

/-- A bit of a byte of a string, the lowest bit of the byte being bit 0. -/
def bitAt (bytes : Bytes) (index bit : Nat) : Bool := (bytes.byteAt index).toNat.testBit bit

theorem bitAt_eq_false {bytes : Bytes} {index bit : Nat} (h : 8 ≤ bit) :
    bytes.bitAt index bit = false := by
  have hByte := (bytes.byteAt index).toNat_lt
  have hPow : 2 ^ 8 ≤ 2 ^ bit := Nat.pow_le_pow_right Nat.two_pos h
  exact Nat.testBit_lt_two_pow (Nat.lt_of_lt_of_le hByte hPow)

theorem bitAt_of_length_le {bytes : Bytes} {index : Nat} (h : bytes.length ≤ index) (bit : Nat) :
    bytes.bitAt index bit = false := by
  rw [bitAt, byteAt, List.getElem?_eq_none h]
  exact Nat.zero_testBit bit

theorem lt_of_bitAt {bytes : Bytes} {index bit : Nat} (h : bytes.bitAt index bit = true) :
    index < bytes.length ∧ bit < 8 := by
  constructor
  · by_cases hIndex : index < bytes.length
    · exact hIndex
    · rw [bitAt_of_length_le (Nat.not_lt.mp hIndex)] at h
      cases h
  · by_cases hBit : bit < 8
    · exact hBit
    · rw [bitAt_eq_false (Nat.not_lt.mp hBit)] at h
      cases h

/-- Strings of one length are equal if all their bits are. -/
theorem ext_bitAt {first second : Bytes} (hLength : first.length = second.length)
    (hBits : ∀ index bit, bit < 8 → first.bitAt index bit = second.bitAt index bit) :
    first = second := by
  apply List.ext_getElem hLength
  intro index hFirst hSecond
  apply UInt8.toNat_inj.mp
  apply Nat.eq_of_testBit_eq
  intro bit
  have hByte : first.bitAt index bit = second.bitAt index bit := by
    by_cases hBit : bit < 8
    · exact hBits index bit hBit
    · rw [bitAt_eq_false (Nat.not_lt.mp hBit), bitAt_eq_false (Nat.not_lt.mp hBit)]
  rwa [bitAt, bitAt, byteAt, byteAt, List.getElem?_eq_getElem hFirst,
    List.getElem?_eq_getElem hSecond] at hByte

theorem testBit_littleEndian (bytes : Bytes) (position : Nat) :
    (littleEndian bytes).testBit position = bytes.bitAt (position / 8) (position % 8) := by
  induction bytes generalizing position with
  | nil => rw [littleEndian, Nat.zero_testBit, bitAt_of_length_le (Nat.zero_le _)]
  | cons byte rest ih =>
    have hByte : byte.toNat < 2 ^ 8 := byte.toNat_lt
    rw [littleEndian, Nat.add_comm, show (256 : Nat) = 2 ^ 8 from rfl,
      Nat.testBit_two_pow_mul_add _ hByte]
    by_cases hFirst : position < 8
    · rw [if_pos hFirst, Nat.div_eq_of_lt hFirst, Nat.mod_eq_of_lt hFirst]
      rfl
    · have hDiv : position / 8 = (position - 8) / 8 + 1 := by omega
      have hMod : position % 8 = (position - 8) % 8 := by omega
      rw [if_neg hFirst, ih, hDiv, hMod]
      rfl

theorem bigEndian_eq (bytes : Bytes) : bigEndian bytes = littleEndian bytes.reverse := by
  have hFold : ∀ (bytes : Bytes) (value : Nat),
      bytes.reverse.foldl (fun value byte => 256 * value + byte.toNat) value =
        littleEndian bytes + 256 ^ bytes.length * value := by
    intro bytes value
    induction bytes with
    | nil => simp [littleEndian]
    | cons byte rest ih =>
      rw [List.reverse_cons, List.foldl_append, ih, List.length_cons, Nat.pow_succ']
      simp only [List.foldl_cons, List.foldl_nil, littleEndian, Nat.mul_add, Nat.mul_assoc]
      omega
  have h := hFold bytes.reverse 0
  rwa [List.reverse_reverse, Nat.mul_zero, Nat.add_zero] at h

theorem testBit_bigEndian {bytes : Bytes} {position : Nat} (h : position / 8 < bytes.length) :
    (bigEndian bytes).testBit position =
      bytes.bitAt (bytes.length - 1 - position / 8) (position % 8) := by
  have hByte : byteAt bytes.reverse (position / 8) =
      bytes.byteAt (bytes.length - 1 - position / 8) := by
    rw [byteAt, byteAt, List.getElem?_reverse h]
  rw [bigEndian_eq, testBit_littleEndian, bitAt, bitAt, hByte]

end Bytes

theorem littleEndian_zeros (count : Nat) : Bytes.littleEndian (List.replicate count 0) = 0 := by
  induction count with
  | zero => rfl
  | succ count ih =>
    rw [List.replicate_succ, Bytes.littleEndian, ih]
    rfl

/-! ## The bits of a number -/

/-- The `count` low bits of a number, the most significant one first. -/
def numberBits (count value : Nat) : List Bool :=
  (List.range count).map fun i => value.testBit (count - 1 - i)

theorem length_numberBits (count value : Nat) : (numberBits count value).length = count := by
  rw [numberBits, List.length_map, List.length_range]

theorem getElem?_numberBits {count i : Nat} (h : i < count) (value : Nat) :
    (numberBits count value)[i]? = some (value.testBit (count - 1 - i)) := by
  rw [numberBits, List.getElem?_map, List.getElem?_range h]
  rfl

/-- Only the bits that are written count. -/
theorem numberBits_congr {count first second : Nat}
    (h : ∀ bit < count, first.testBit bit = second.testBit bit) :
    numberBits count first = numberBits count second := by
  apply List.map_congr_left
  intro i hi
  exact h _ (by have := List.mem_range.mp hi; omega)

theorem testBit_eq_of_numberBits_eq {count first second : Nat}
    (h : numberBits count first = numberBits count second) {bit : Nat} (hBit : bit < count) :
    first.testBit bit = second.testBit bit := by
  have hIndex : count - 1 - bit < count := by omega
  have hAt := congrArg (fun bits => bits[count - 1 - bit]?) h
  simp only [getElem?_numberBits hIndex, Option.some.injEq] at hAt
  have hBack : count - 1 - (count - 1 - bit) = bit := by omega
  rwa [hBack] at hAt

/-- The upper bits come first. -/
theorem numberBits_add (upper lower value : Nat) :
    numberBits (upper + lower) value =
      numberBits upper (value >>> lower) ++ numberBits lower value := by
  apply List.ext_getElem?
  intro i
  by_cases hUpper : i < upper
  · have hBit : upper + lower - 1 - i = lower + (upper - 1 - i) := by omega
    rw [List.getElem?_append_left (by rwa [length_numberBits]),
      getElem?_numberBits (by omega), getElem?_numberBits hUpper, Nat.testBit_shiftRight, hBit]
  · rw [List.getElem?_append_right (by rw [length_numberBits]; omega), length_numberBits]
    by_cases hLower : i < upper + lower
    · have hBit : upper + lower - 1 - i = lower - 1 - (i - upper) := by omega
      rw [getElem?_numberBits hLower, getElem?_numberBits (by omega), hBit]
    · rw [List.getElem?_eq_none (by rw [length_numberBits]; omega),
        List.getElem?_eq_none (by rw [length_numberBits]; omega)]

theorem numberBits_succ (count value : Nat) :
    numberBits (count + 1) value = value.testBit count :: numberBits count value := by
  have hFirst : numberBits 1 (value >>> count) = [value.testBit count] := by
    rw [numberBits, List.range_one, List.map_singleton, Nat.testBit_shiftRight, Nat.add_zero]
  rw [Nat.add_comm count 1, numberBits_add, hFirst, List.singleton_append]

/-! ## The number of some bits -/

/-- The number that bits spell, the most significant one first. -/
def numberOfBits : List Bool → Nat
  | [] => 0
  | bit :: rest => 2 ^ rest.length * bit.toNat + numberOfBits rest

theorem numberOfBits_lt (bits : List Bool) : numberOfBits bits < 2 ^ bits.length := by
  induction bits with
  | nil => exact Nat.one_pos
  | cons bit rest ih =>
    have hBit : 2 ^ rest.length * bit.toNat ≤ 2 ^ rest.length * 1 :=
      Nat.mul_le_mul_left _ (Bool.toNat_le bit)
    rw [numberOfBits, List.length_cons, Nat.pow_succ]
    omega

theorem numberOfBits_append (first second : List Bool) :
    numberOfBits (first ++ second) =
      numberOfBits first * 2 ^ second.length + numberOfBits second := by
  induction first with
  | nil => rw [List.nil_append, numberOfBits, Nat.zero_mul, Nat.zero_add]
  | cons bit rest ih =>
    rw [List.cons_append, numberOfBits, ih, numberOfBits, List.length_append, Nat.pow_add,
      Nat.add_mul, Nat.mul_right_comm, Nat.add_assoc]

/-- The number that is read is the one that was written. -/
theorem numberOfBits_numberBits {count value : Nat} (h : value < 2 ^ count) :
    numberOfBits (numberBits count value) = value := by
  have hLow : ∀ count, numberOfBits (numberBits count value) = value % 2 ^ count := by
    intro count
    induction count with
    | zero => rw [Nat.pow_zero, Nat.mod_one]; rfl
    | succ count ih =>
      rw [numberBits_succ, numberOfBits, ih, length_numberBits, Nat.mod_pow_succ,
        Nat.toNat_testBit, Nat.add_comm]
  rw [hLow, Nat.mod_eq_of_lt h]

/-- Bits that are left out at the end are divided away. -/
theorem numberOfBits_take (bits : List Bool) (count : Nat) :
    numberOfBits (bits.take (bits.length - count)) = numberOfBits bits / 2 ^ count := by
  by_cases hCount : count ≤ bits.length
  · have hLength : (bits.drop (bits.length - count)).length = count := by
      rw [List.length_drop]
      omega
    have hLow := numberOfBits_lt (bits.drop (bits.length - count))
    have hWhole := numberOfBits_append (bits.take (bits.length - count))
      (bits.drop (bits.length - count))
    rw [hLength] at hLow
    rw [List.take_append_drop, hLength] at hWhole
    rw [hWhole, Nat.mul_comm, Nat.mul_add_div (Nat.two_pow_pos count), Nat.div_eq_of_lt hLow,
      Nat.add_zero]
  · have hNone : bits.length - count = 0 := by omega
    have hLt : numberOfBits bits < 2 ^ count :=
      Nat.lt_of_lt_of_le (numberOfBits_lt bits)
        (Nat.pow_le_pow_right Nat.two_pos (Nat.le_of_not_le hCount))
    rw [hNone, Nat.div_eq_of_lt hLt]
    rfl

theorem numberBits_numberOfBits (bits : List Bool) :
    numberBits bits.length (numberOfBits bits) = bits := by
  induction bits with
  | nil => rfl
  | cons bit rest ih =>
    have hRest := numberOfBits_lt rest
    have hFirst : (2 ^ rest.length * bit.toNat + numberOfBits rest).testBit rest.length = bit := by
      rw [Nat.testBit_two_pow_mul_add _ hRest, if_neg (Nat.lt_irrefl _), Nat.sub_self]
      cases bit <;> rfl
    have hOthers : numberBits rest.length (2 ^ rest.length * bit.toNat + numberOfBits rest) =
        numberBits rest.length (numberOfBits rest) := by
      apply numberBits_congr
      intro place hPlace
      rw [Nat.testBit_two_pow_mul_add _ hRest, if_pos hPlace]
    rw [List.length_cons, numberOfBits, numberBits_succ, hFirst, hOthers, ih]

end ChunkFilters
