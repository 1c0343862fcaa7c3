import ChunkFilters.Proofs.Bits.Unpacking
import Mathlib.Control.Monad.Basic

/-!
# Unpacking in machine words

The bytes of an element that are filled, and the bits that go into each, can be found from the first
and the last of these bytes, in 64-bit words and without speaking of significances. Here this is
done in checked steps: where a sum or a product does not fit into a word, a difference is below
zero, a byte is shifted by eight bits or more or loses a bit that is set, a read asks for no bit or
for more than eight, or a write is outside the element, there is no result.

* `BitCursor.readBits?_eq`: a read of one to eight bits passes all checks;
* `PackedAtomic.slice?_eq`: what is found for a byte is its slice;
* `PackedAtomic.unpack_checked`: unpacking passes all checks, and is `PackedAtomic.unpack`.
-/

namespace ChunkFilters

/-! ## Checked steps -/

namespace Checked

def add? (first second : Nat) : Option Nat :=
  if first + second < UInt64.size then some (first + second) else none

def mul? (first second : Nat) : Option Nat :=
  if first * second < UInt64.size then some (first * second) else none

def sub? (first second : Nat) : Option Nat :=
  if second ≤ first then some (first - second) else none

def shiftLeft? (byte : UInt8) (count : Nat) : Option UInt8 :=
  if count < 8 then some (byte <<< UInt8.ofNat count) else none

def shiftRight? (byte : UInt8) (count : Nat) : Option UInt8 :=
  if count < 8 then some (byte >>> UInt8.ofNat count) else none

/-- Loses no bit that is set. -/
def shiftLeftExact? (byte : UInt8) (count : Nat) : Option UInt8 := do
  let shifted ← shiftLeft? byte count
  if shifted.toNat = byte.toNat * 2 ^ count then some shifted else none

/-- The byte whose lowest `width` bits are set. -/
def mask? (width : Nat) : Option UInt8 :=
  if 8 ≤ width then some 255
  else do
    let power ← shiftLeft? 1 width
    if 1 ≤ power then some (power - 1) else none

def write? (buffer : Array UInt8) (index : Nat) (byte : UInt8) : Option (Array UInt8) :=
  if index < buffer.size then some (buffer.setIfInBounds index byte) else none

theorem add?_of_lt {first second : Nat} (h : first + second < UInt64.size) :
    add? first second = some (first + second) := if_pos h

theorem mul?_of_lt {first second : Nat} (h : first * second < UInt64.size) :
    mul? first second = some (first * second) := if_pos h

theorem sub?_of_le {first second : Nat} (h : second ≤ first) :
    sub? first second = some (first - second) := if_pos h

theorem shiftLeft?_of_lt {count : Nat} (h : count < 8) (byte : UInt8) :
    shiftLeft? byte count = some (byte <<< UInt8.ofNat count) := if_pos h

theorem shiftRight?_of_lt {count : Nat} (h : count < 8) (byte : UInt8) :
    shiftRight? byte count = some (byte >>> UInt8.ofNat count) := if_pos h

theorem write?_of_lt {buffer : Array UInt8} {index : Nat} (h : index < buffer.size)
    (byte : UInt8) : write? buffer index byte = some (buffer.setIfInBounds index byte) := if_pos h

theorem mask?_eq (width : Nat) : mask? width = some (BitSpan.mask width) := by
  by_cases hWide : 8 ≤ width
  · rw [mask?, BitSpan.mask, if_pos hWide, if_pos hWide]
  · have hPower : ∀ width < 8, (1 : UInt8) ≤ 1 <<< UInt8.ofNat width := by decide
    rw [mask?, BitSpan.mask, if_neg hWide, if_neg hWide, shiftLeft?_of_lt (by omega)]
    exact if_pos (hPower width (by omega))

/-- A slice takes up the bits that are read for it. -/
theorem shiftLeftExact?_eq {slice : PackedAtomic.Slice} (hProper : slice.Proper) {value : UInt8}
    (hValue : value.toNat < 2 ^ slice.width) :
    shiftLeftExact? value slice.shift = some (value <<< UInt8.ofNat slice.shift) := by
  have hPos := hProper.width_pos
  have hLe := hProper.shift_add_width_le
  rw [shiftLeftExact?, shiftLeft?_of_lt (by omega)]
  exact if_pos (PackedAtomic.toNat_shiftLeft hProper hValue)

end Checked

open Checked

/-! ## Reads -/

theorem BitSpan.extract_within (bitsLeft count : Nat) (byte : UInt8) :
    (BitSpan.within bitsLeft count).extract byte =
      byte >>> UInt8.ofNat (bitsLeft - count) &&& BitSpan.mask count :=
  UInt8.shiftLeft_zero

theorem BitSpan.extract_upper (bitsLeft count : Nat) (byte : UInt8) :
    (BitSpan.upper bitsLeft count).extract byte =
      (byte &&& BitSpan.mask bitsLeft) <<< UInt8.ofNat (count - bitsLeft) := by
  rw [BitSpan.upper, BitSpan.extract]
  exact congrArg (fun byte => (byte &&& BitSpan.mask bitsLeft) <<< UInt8.ofNat (count - bitsLeft))
    UInt8.shiftRight_zero

theorem BitSpan.extract_lower (bitsLeft count : Nat) (byte : UInt8) :
    (BitSpan.lower bitsLeft count).extract byte =
      byte >>> UInt8.ofNat (8 - (count - bitsLeft)) &&& BitSpan.mask (count - bitsLeft) :=
  UInt8.shiftLeft_zero

namespace BitCursor

/-- Reads the next `count` bits, one to eight. -/
def readBits? (count : Nat) (cursor : BitCursor) : Option (Except Exhausted (UInt8 × BitCursor)) :=
  if 1 ≤ count ∧ count ≤ 8 then
    match cursor.rest with
    | [] => some (.error ⟨cursor.byteIndex, cursor⟩)
    | byte :: rest =>
      if count < cursor.bitsLeft then do
        let left ← sub? cursor.bitsLeft count
        let shifted ← shiftRight? byte left
        let mask ← mask? count
        return .ok (shifted &&& mask, { cursor with bitsLeft := left })
      else do
        let missing ← sub? count cursor.bitsLeft
        let mask ← mask? cursor.bitsLeft
        let upper ← shiftLeft? (byte &&& mask) missing
        let next := cursor.nextByte rest
        if missing = 0 then return .ok (upper, next)
        else match rest with
          | [] => return .error ⟨next.byteIndex, next⟩
          | following :: _ =>
            let left ← sub? next.bitsLeft missing
            let shifted ← shiftRight? following left
            let mask ← mask? missing
            return .ok (upper ||| (shifted &&& mask), { next with bitsLeft := left })
  else none

theorem readBits?_eq {count : Nat} {cursor : BitCursor} (h : cursor.WellFormed)
    (hPos : 0 < count) (hMax : count ≤ 8) :
    cursor.readBits? count = some (cursor.readBits count) := by
  have hOne := h.1
  have hEight := h.2
  rw [readBits?, readBits, if_pos ⟨hPos, hMax⟩]
  cases hRest : cursor.rest with
  | nil => rfl
  | cons byte rest =>
    dsimp only
    by_cases hWithin : count < cursor.bitsLeft
    · have hLeft : cursor.bitsLeft - count < 8 := by omega
      rw [if_pos hWithin, if_pos hWithin, sub?_of_le (Nat.le_of_lt hWithin)]
      simp only [Option.bind_eq_bind, Option.bind_some, shiftRight?_of_lt hLeft, mask?_eq,
        Option.pure_def, BitSpan.extract_within]
    · have hMissing : count - cursor.bitsLeft < 8 := by omega
      rw [if_neg hWithin, if_neg hWithin, sub?_of_le (Nat.le_of_not_lt hWithin)]
      simp only [Option.bind_eq_bind, Option.bind_some, shiftLeft?_of_lt hMissing, mask?_eq,
        Option.pure_def, BitSpan.extract_upper]
      by_cases hWhole : count = cursor.bitsLeft
      · rw [if_pos hWhole, if_pos (by omega)]
      · have hLower : 8 - (count - cursor.bitsLeft) < 8 := by omega
        rw [if_neg hWhole, if_neg (by omega)]
        cases rest with
        | nil => rfl
        | cons following rest =>
          simp only [nextByte, sub?_of_le (Nat.le_of_lt hMissing), shiftRight?_of_lt hLower,
            Option.bind_some, BitSpan.extract_lower]

end BitCursor

/-! ## Elements -/

theorem ByteOrder.index_eq_index_iff {size first second : Nat} (hFirst : first < size)
    (hSecond : second < size) (order : ByteOrder) :
    order.index size first = order.index size second ↔ first = second :=
  ⟨ByteOrder.index_inj hFirst hSecond, fun h => h ▸ rfl⟩

namespace PackedAtomic

/-- The bytes of an element that are visited. -/
structure Visit where
  /-- The number of bits of the element. -/
  bits : Nat
  first : Nat
  last : Nat
  /-- From the first one to the last one. -/
  indices : List Nat

/-- The numbers from `low` to `high`, both included. -/
def upTo (low high : Nat) : List Nat := List.range' low (high + 1 - low)

/-- The byte with the most significant bits is the first. -/
def visit? (layout : PackedAtomic) : Option Visit := do
  let bits ← mul? layout.size 8
  let significant ← add? layout.precision layout.offset
  match layout.order with
  | .little =>
    let top ← sub? significant 1
    let first := top / 8
    let last := layout.offset / 8
    return { bits, first, last, indices := (upTo last first).reverse }
  | .big =>
    let above ← sub? bits significant
    let below ← sub? bits layout.offset
    let bottom ← sub? below 1
    let first := above / 8
    let last := bottom / 8
    return { bits, first, last, indices := upTo first last }

/-- The bits of a byte that is visited: those of the first byte are its lowest ones, those of the
last byte its highest ones. -/
def slice? (layout : PackedAtomic) (visit : Visit) (index : Nat) : Option Slice :=
  if visit.first = visit.last then some ⟨index, layout.precision, layout.offset % 8⟩
  else if index = visit.first then do
    let above ← sub? visit.bits layout.precision
    let above ← sub? above layout.offset
    let width ← sub? 8 (above % 8)
    return ⟨index, width, 0⟩
  else if index = visit.last then do
    let width ← sub? 8 (layout.offset % 8)
    let shift ← sub? 8 width
    return ⟨index, width, shift⟩
  else some ⟨index, 8, 0⟩

/-- Fills the bytes with the given indices. -/
def unpackEach? (layout : PackedAtomic) (visit : Visit) :
    List Nat → Array UInt8 → BitCursor → Option (Except Interrupted (Array UInt8 × BitCursor))
  | [], buffer, cursor => some (.ok (buffer, cursor))
  | index :: rest, buffer, cursor => do
    let slice ← layout.slice? visit index
    match ← cursor.readBits? slice.width with
    | .error error => return .error ⟨error, buffer⟩
    | .ok (value, cursor) =>
      let byte ← shiftLeftExact? value slice.shift
      let buffer ← write? buffer index byte
      unpackEach? layout visit rest buffer cursor

/-- Unpacks an element that has the whole buffer. -/
def unpack? (layout : PackedAtomic) (buffer : Array UInt8) (cursor : BitCursor) :
    Option (Except Interrupted (Array UInt8 × BitCursor)) := do
  let visit ← layout.visit?
  layout.unpackEach? visit visit.indices buffer cursor

/-- What is found for all bytes that are visited. -/
def slices? (layout : PackedAtomic) : Option (List Slice) := do
  let visit ← layout.visit?
  visit.indices.mapM (layout.slice? visit)

/-- The byte of the highest significance that is visited. -/
def highestByte (layout : PackedAtomic) : Nat := (layout.precision + layout.offset - 1) / 8

/-- The bytes visited are those with significant bits, from the most to the least significant. -/
structure Visits (layout : PackedAtomic) (visit : Visit) : Prop where
  bits_eq : visit.bits = 8 * layout.size
  first_eq : visit.first = layout.order.index layout.size layout.highestByte
  last_eq : visit.last = layout.order.index layout.size layout.lowestByte
  indices_eq : visit.indices = (layout.slices 0).map Slice.index

theorem index_slicesBelow_little {layout : PackedAtomic} (hOrder : layout.order = .little)
    (count : Nat) :
    (layout.slicesBelow 0 count).map Slice.index =
      (List.range' layout.lowestByte count).reverse := by
  induction count with
  | zero => rfl
  | succ count ih =>
    have hIndex : ((layout.slice (layout.lowestByte + count)).moved 0).index =
        layout.lowestByte + count := by
      rw [Slice.moved, slice, hOrder, Nat.zero_add]
    rw [slicesBelow, List.map_cons, ih, hIndex, List.range'_1_concat, List.reverse_append]
    rfl

theorem index_slicesBelow_big {layout : PackedAtomic} (hOrder : layout.order = .big)
    {count : Nat} (hCount : layout.lowestByte + count ≤ layout.size) :
    (layout.slicesBelow 0 count).map Slice.index =
      List.range' (layout.size - layout.lowestByte - count) count := by
  induction count with
  | zero => rfl
  | succ count ih =>
    have hIndex : ((layout.slice (layout.lowestByte + count)).moved 0).index =
        layout.size - layout.lowestByte - (count + 1) := by
      rw [Slice.moved, slice, hOrder, Nat.zero_add]
      dsimp only
      omega
    have hNext : layout.size - layout.lowestByte - (count + 1) + 1 =
        layout.size - layout.lowestByte - count := by omega
    rw [slicesBelow, List.map_cons, ih (by omega), hIndex, List.range'_succ, hNext]

section
variable {layout : PackedAtomic} (hValid : layout.Valid)
include hValid

theorem lowestByte_add_byteCount :
    layout.lowestByte + layout.byteCount = layout.highestByte + 1 := by
  have hPos := hValid.precision_pos
  rw [byteCount, lowestByte, highestByte]
  omega

theorem lowestByte_le_highestByte : layout.lowestByte ≤ layout.highestByte := by
  have hPos := hValid.precision_pos
  rw [lowestByte, highestByte]
  omega

theorem highestByte_lt : layout.highestByte < layout.size := by
  have hPos := hValid.precision_pos
  have hLe := hValid.precision_add_offset_le
  rw [highestByte]
  omega

theorem exists_visits (hMax : 8 * layout.size < UInt64.size) :
    ∃ visit, layout.visit? = some visit ∧ Visits layout visit := by
  have hPos := hValid.precision_pos
  have hLe := hValid.precision_add_offset_le
  have hCount := lowestByte_add_byteCount hValid
  have hBits : mul? layout.size 8 = some (8 * layout.size) := by
    rw [mul?_of_lt (by omega), Nat.mul_comm]
  have hSum : add? layout.precision layout.offset = some (layout.precision + layout.offset) :=
    add?_of_lt (by omega)
  cases hOrder : layout.order with
  | little =>
    have hTop : sub? (layout.precision + layout.offset) 1 =
        some (layout.precision + layout.offset - 1) := sub?_of_le (by omega)
    refine ⟨⟨8 * layout.size, layout.highestByte, layout.lowestByte,
      (upTo layout.lowestByte layout.highestByte).reverse⟩, ?_, rfl, ?_, ?_, ?_⟩
    · simp only [visit?, hBits, hSum, hOrder, hTop, Option.bind_eq_bind, Option.bind_some]
      rfl
    · rw [hOrder, ByteOrder.index]
    · rw [hOrder, ByteOrder.index]
    · rw [slices, index_slicesBelow_little hOrder, upTo, ← hCount, Nat.add_sub_cancel_left]
  | big =>
    have hAbove : sub? (8 * layout.size) (layout.precision + layout.offset) =
        some (8 * layout.size - (layout.precision + layout.offset)) := sub?_of_le hLe
    have hBelow : sub? (8 * layout.size) layout.offset =
        some (8 * layout.size - layout.offset) := sub?_of_le (by omega)
    have hBottom : sub? (8 * layout.size - layout.offset) 1 =
        some (8 * layout.size - layout.offset - 1) := sub?_of_le (by omega)
    have hFirst : (8 * layout.size - (layout.precision + layout.offset)) / 8 =
        layout.size - 1 - layout.highestByte := by
      rw [highestByte]
      omega
    have hLast : (8 * layout.size - layout.offset - 1) / 8 =
        layout.size - 1 - layout.lowestByte := by
      rw [lowestByte]
      omega
    refine ⟨⟨8 * layout.size, layout.size - 1 - layout.highestByte,
      layout.size - 1 - layout.lowestByte,
      upTo (layout.size - 1 - layout.highestByte) (layout.size - 1 - layout.lowestByte)⟩,
      ?_, rfl, ?_, ?_, ?_⟩
    · simp only [visit?, hBits, hSum, hOrder, hAbove, hBelow, hBottom, hFirst, hLast,
        Option.bind_eq_bind, Option.bind_some, Option.pure_def]
    · rw [hOrder, ByteOrder.index]
    · rw [hOrder, ByteOrder.index]
    · have hHighest := highestByte_lt hValid
      have hLowest := lowestByte_le_highestByte hValid
      have hStart : layout.size - layout.lowestByte - layout.byteCount =
          layout.size - 1 - layout.highestByte := by omega
      have hLength : layout.size - 1 - layout.lowestByte + 1 -
          (layout.size - 1 - layout.highestByte) = layout.byteCount := by omega
      rw [slices, index_slicesBelow_big hOrder (by omega), upTo, hStart, hLength]

/-! ### What is found for a byte -/

section
variable {visit : Visit} (h : Visits layout visit)
include h

theorem first_eq_last_iff :
    visit.first = visit.last ↔ layout.highestByte = layout.lowestByte := by
  have hHighest := highestByte_lt hValid
  have hLowest := lowestByte_le_highestByte hValid
  rw [h.first_eq, h.last_eq]
  exact ByteOrder.index_eq_index_iff hHighest (by omega) layout.order

theorem index_eq_first_iff {significance : Nat} (hSize : significance < layout.size) :
    (layout.slice significance).index = visit.first ↔ significance = layout.highestByte := by
  rw [h.first_eq]
  exact ByteOrder.index_eq_index_iff hSize (highestByte_lt hValid) layout.order

theorem index_eq_last_iff {significance : Nat} (hSize : significance < layout.size) :
    (layout.slice significance).index = visit.last ↔ significance = layout.lowestByte := by
  have hHighest := highestByte_lt hValid
  have hLowest := lowestByte_le_highestByte hValid
  rw [h.last_eq]
  exact ByteOrder.index_eq_index_iff hSize (by omega) layout.order

theorem slice?_eq {significance : Nat} (hLowest : layout.lowestByte ≤ significance)
    (hHighest : significance ≤ layout.highestByte) :
    layout.slice? visit (layout.slice significance).index = some (layout.slice significance) := by
  have hPos := hValid.precision_pos
  have hLe := hValid.precision_add_offset_le
  have hSize := Nat.lt_of_le_of_lt hHighest (highestByte_lt hValid)
  have hSlice : ∀ {width shift : Nat},
      width = min (layout.precision + layout.offset) (8 * significance + 8) -
        max layout.offset (8 * significance) →
      shift = max layout.offset (8 * significance) - 8 * significance →
        some ⟨(layout.slice significance).index, width, shift⟩ =
          some (layout.slice significance) := by
    rintro width shift rfl rfl
    rfl
  have hOneIff := first_eq_last_iff hValid h
  have hFirstIff := index_eq_first_iff hValid h hSize
  have hLastIff := index_eq_last_iff hValid h hSize
  rw [highestByte] at hHighest hOneIff hFirstIff
  rw [lowestByte] at hLowest hOneIff hLastIff
  rw [slice?, h.bits_eq]
  by_cases hOne : visit.first = visit.last
  · have hSame := hOneIff.mp hOne
    rw [if_pos hOne]
    exact hSlice (by omega) (by omega)
  · have hMore := mt hOneIff.mpr hOne
    rw [if_neg hOne]
    by_cases hFirst : (layout.slice significance).index = visit.first
    · have hAt := hFirstIff.mp hFirst
      rw [if_pos hFirst, sub?_of_le (by omega), Option.bind_eq_bind, Option.bind_some,
        sub?_of_le (by omega)]
      show (sub? 8 _).bind _ = _
      rw [sub?_of_le (by omega)]
      exact hSlice (by omega) (by omega)
    · have hNotFirst := mt hFirstIff.mpr hFirst
      rw [if_neg hFirst]
      by_cases hLast : (layout.slice significance).index = visit.last
      · have hAt := hLastIff.mp hLast
        rw [if_pos hLast, sub?_of_le (by omega), Option.bind_eq_bind, Option.bind_some,
          sub?_of_le (by omega)]
        exact hSlice (by omega) (by omega)
      · have hNotLast := mt hLastIff.mpr hLast
        rw [if_neg hLast]
        exact hSlice (by omega) (by omega)

/-! ### Unpacking -/

theorem unpackEach?_eq {count : Nat} (hCount : count ≤ layout.byteCount) {buffer : Array UInt8}
    (hBuffer : buffer.size = layout.size) {cursor : BitCursor} (hCursor : cursor.WellFormed) :
    layout.unpackEach? visit ((layout.slicesBelow 0 count).map Slice.index) buffer cursor =
      some (layout.unpackBytes 0 count buffer cursor) := by
  induction count generalizing buffer cursor with
  | zero => rfl
  | succ count ih =>
    have hBytes := lowestByte_add_byteCount hValid
    have hProper := proper_slice hValid hCount
    have hIndex : (layout.slice (layout.lowestByte + count)).index < buffer.size :=
      hBuffer ▸ ByteOrder.index_lt (significance_lt hValid hCount) layout.order
    have hFound := slice?_eq hValid h (Nat.le_add_right layout.lowestByte count) (by omega)
    rw [slicesBelow, List.map_cons, unpackBytes]
    dsimp only [Slice.moved]
    rw [Nat.zero_add, unpackEach?, hFound]
    generalize layout.slice (layout.lowestByte + count) = slice at hProper hIndex
    have hPos := hProper.width_pos
    have hLe := hProper.shift_add_width_le
    rw [Option.bind_eq_bind, Option.bind_some, BitCursor.readBits?_eq hCursor hPos (by omega)]
    rcases BitCursor.readBits_cases hCursor hPos (by omega) with
      ⟨value, after, hRead, hValue⟩ | ⟨⟨error, hRead⟩, -⟩
    · have hWritten : (buffer.setIfInBounds slice.index (value <<< UInt8.ofNat slice.shift)).size =
          layout.size := by
        rw [Array.size_setIfInBounds, hBuffer]
      rw [hRead]
      simp only [Option.bind_eq_bind, Option.bind_some, shiftLeftExact?_eq hProper hValue.toNat_lt,
        write?_of_lt hIndex]
      exact ih (Nat.le_of_succ_le hCount) hWritten hValue.wellFormed
    · rw [hRead]
      rfl

theorem mapM_slice?_eq {count : Nat} (hCount : count ≤ layout.byteCount) :
    ((layout.slicesBelow 0 count).map Slice.index).mapM (layout.slice? visit) =
      some (layout.slicesBelow 0 count) := by
  induction count with
  | zero => rfl
  | succ count ih =>
    have hBytes := lowestByte_add_byteCount hValid
    have hMoved : (layout.slice (layout.lowestByte + count)).moved 0 =
        layout.slice (layout.lowestByte + count) := by
      rw [Slice.moved, Nat.zero_add]
    rw [slicesBelow, List.map_cons, hMoved, List.mapM_cons,
      slice?_eq hValid h (by omega) (by omega), ih (Nat.le_of_succ_le hCount)]
    rfl

end

end

/-- Unpacking an element passes all checks. Each byte that is visited is inside the element and
visited once, one to eight bits are read for it that keep their place in it, and together these are
the significant bits. No read of one to eight bits shifts by more than seven. -/
theorem unpack_checked {layout : PackedAtomic} (hLayout : layout.fault? = none)
    (hSize : layout.size < 2 ^ 61) {input : Bytes} {cursor : BitCursor}
    (hCursor : BitCursor.Reachable input cursor) {buffer : Array UInt8}
    (hBuffer : buffer.size = layout.size) :
    layout.unpack? buffer cursor = some (layout.unpack 0 buffer cursor) ∧
    layout.slices? = some (layout.slices 0) ∧
    (∀ slice ∈ layout.slices 0, slice.index < layout.size ∧ 1 ≤ slice.width ∧ slice.width ≤ 8 ∧
      slice.width + slice.shift ≤ 8) ∧
    ((layout.slices 0).map Slice.index).Nodup ∧
    Slice.totalWidth (layout.slices 0) = layout.precision ∧
    ∀ count, 0 < count → count ≤ 8 → cursor.readBits? count = some (cursor.readBits count) := by
  have hValid := valid_of_fault? hLayout
  have hWord : 8 * 2 ^ 61 = UInt64.size := rfl
  have hWell : cursor.WellFormed := by
    obtain ⟨position, -, rfl⟩ := BitCursor.reachable_iff.mp hCursor
    exact BitCursor.wellFormed_ofPosition input position
  obtain ⟨visit, hVisit, hVisits⟩ := exists_visits hValid (by omega)
  refine ⟨?_, ?_, ?_, nodup_index_slices hValid 0, totalWidth_slices hValid 0, ?_⟩
  · rw [unpack?, hVisit, Option.bind_eq_bind, Option.bind_some, hVisits.indices_eq]
    exact unpackEach?_eq hValid hVisits (Nat.le_refl _) hBuffer hWell
  · rw [slices?, hVisit, Option.bind_eq_bind, Option.bind_some, hVisits.indices_eq]
    exact mapM_slice?_eq hValid hVisits (Nat.le_refl _)
  · intro slice hMem
    have hProper := proper_of_mem_slices hValid 0 hMem
    have hIndex := index_of_mem_slices hValid 0 hMem
    have hPos := hProper.width_pos
    have hLe := hProper.shift_add_width_le
    exact ⟨by omega, by omega, by omega, by omega⟩
  · intro count hPos hMax
    exact BitCursor.readBits?_eq hWell hPos hMax

/-- Eleven bits of three bytes, that end inside the lowest byte and are read from the middle of a
byte. -/
theorem unpack_checked_straddling :
    (⟨3, .big, 11, 6⟩ : PackedAtomic).fault? = none ∧ 3 < 2 ^ 61 ∧
    BitCursor.Reachable [0xb5, 0x2c] (.ofPosition [0xb5, 0x2c] 3) ∧
    PackedAtomic.unpack? ⟨3, .big, 11, 6⟩ #[0, 0, 0] (.ofPosition [0xb5, 0x2c] 3) =
      some (.ok (#[1, 0x52, 0xc0], .ofPosition [0xb5, 0x2c] 14)) ∧
    PackedAtomic.slices? ⟨3, .big, 11, 6⟩ = some [⟨0, 1, 0⟩, ⟨1, 8, 0⟩, ⟨2, 2, 6⟩] := by
  have hLayout : (⟨3, .big, 11, 6⟩ : PackedAtomic).fault? = none := by decide
  have hSize : (⟨3, .big, 11, 6⟩ : PackedAtomic).size < 2 ^ 61 := by decide
  have hCursor : BitCursor.Reachable [0xb5, 0x2c] (.ofPosition [0xb5, 0x2c] 3) :=
    BitCursor.reachable_ofPosition (by decide)
  obtain ⟨hUnpack, hSlices, -⟩ := unpack_checked hLayout hSize hCursor
    (rfl : (#[0, 0, 0] : Array UInt8).size = 3)
  refine ⟨hLayout, hSize, hCursor, hUnpack.trans ?_, hSlices.trans ?_⟩
  · decide +kernel
  · decide +kernel

end PackedAtomic

end ChunkFilters
