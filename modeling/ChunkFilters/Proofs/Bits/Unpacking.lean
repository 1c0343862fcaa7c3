import ChunkFilters.Proofs.Bits.Mirrored
import ChunkFilters.Proofs.Bits.Position

/-!
# Unpacking is exact

A valid layout is unpacked from any bit of a string. The bytes with significant bits are filled from
the highest to the lowest, so what has been filled is always the number of the bits read so far, at
the place where these bits end in the element (`Partial`). With all bits read this place is the
offset of the layout. Where the string ends before that, the bytes whose bits are complete have been
filled, and those below them are still zero.

* `Partial.step`: one byte is filled;
* `unpack_ofPosition`, `unpack_ofPosition_end`: with enough bits, and with too few;
* `unpack_big`: the two byte orders go on and stop together, with the bytes in reverse;
* `unpack_exact`: all of this, for every cursor that reads can reach.
-/

namespace ChunkFilters

open BitCursor (ofPosition exhaustedAt)

/-! ## A byte that is written -/

theorem Bytes.littleEndian_set {bytes : Bytes} {index : Nat} (hIndex : index < bytes.length)
    (hZero : bytes.byteAt index = 0) (byte : UInt8) :
    littleEndian (bytes.set index byte) = littleEndian bytes + 256 ^ index * byte.toNat := by
  induction bytes generalizing index with
  | nil => exact absurd hIndex (Nat.not_lt_zero index)
  | cons first rest ih =>
    cases index with
    | zero =>
      have hFirst : first = 0 := hZero
      rw [List.set_cons_zero, littleEndian, littleEndian, hFirst, Nat.pow_zero, Nat.one_mul,
        UInt8.toNat_zero, Nat.zero_add, Nat.add_comm]
    | succ index =>
      rw [List.set_cons_succ, littleEndian, littleEndian,
        ih (Nat.lt_of_succ_lt_succ hIndex) hZero, Nat.pow_succ', Nat.mul_add, Nat.mul_assoc,
        Nat.add_assoc]

namespace ByteOrder

theorem value_set {order : ByteOrder} {bytes : Bytes} {significance : Nat}
    (hSignificance : significance < bytes.length)
    (hZero : bytes.byteAt (order.index bytes.length significance) = 0) (byte : UInt8) :
    order.value (bytes.set (order.index bytes.length significance) byte) =
      order.value bytes + 256 ^ significance * byte.toNat := by
  cases order with
  | little => exact Bytes.littleEndian_set hSignificance hZero byte
  | big =>
    have hIndex := index_lt hSignificance .big
    have hBack : bytes.length - 1 - ByteOrder.big.index bytes.length significance =
        significance := by
      rw [index]
      omega
    have hReversed : Bytes.byteAt bytes.reverse significance = 0 := by
      rw [Bytes.byteAt, List.getElem?_reverse hSignificance]
      exact hZero
    rw [value, Bytes.bigEndian_eq, reverse_set hIndex, hBack,
      Bytes.littleEndian_set (by rwa [List.length_reverse]) hReversed, value, Bytes.bigEndian_eq]

/-- A string in one byte order is the reversed string in the other. -/
theorem eq_reverse_of_value_eq {first second : Bytes} (hLength : first.length = second.length)
    (hValue : ByteOrder.big.value first = ByteOrder.little.value second) :
    first = second.reverse := by
  have hNumber : Bytes.littleEndian first.reverse = Bytes.littleEndian second := by
    rw [← Bytes.bigEndian_eq]
    exact hValue
  rw [← List.reverse_eq_iff, ← Bytes.toLittleEndian_littleEndian first.reverse, hNumber,
    List.length_reverse, hLength, Bytes.toLittleEndian_littleEndian]

end ByteOrder

/-- The value of a read is the number of the bits that it takes. -/
theorem BitCursor.Read.toNat_lt {count : Nat} {before after : BitCursor} {value : UInt8}
    (h : Read count before value after) : value.toNat < 2 ^ count :=
  Nat.lt_pow_two_of_testBit _ h.testBit_eq_false

/-- The bits of a read come after those that have been read since `start`. -/
theorem BitCursor.Read.take_add {input : Bytes} {start read count : Nat} {next : BitCursor}
    {value : UInt8} (h : Read count (ofPosition input (start + read)) value next) :
    (ofPosition input start).unread.take (read + count) =
      (ofPosition input start).unread.take read ++ numberBits count value.toNat := by
  have hRest : (ofPosition input start).unread.drop read =
      (ofPosition input (start + read)).unread := by
    rw [unread_ofPosition, unread_ofPosition, List.drop_drop]
  rw [List.take_add, hRest, h.unread_eq, List.take_left' (length_numberBits _ _)]

namespace PackedAtomic

theorem toNat_shiftLeft {slice : Slice} (hProper : slice.Proper) {value : UInt8}
    (hValue : value.toNat < 2 ^ slice.width) :
    (value <<< UInt8.ofNat slice.shift).toNat = value.toNat * 2 ^ slice.shift := by
  have hPos := hProper.width_pos
  have hLe := hProper.shift_add_width_le
  have hShift : (UInt8.ofNat slice.shift).toNat % 8 = slice.shift := by
    rw [UInt8.toNat_ofNat']
    omega
  have hFits : value.toNat * 2 ^ slice.shift < 2 ^ 8 :=
    calc value.toNat * 2 ^ slice.shift
        < 2 ^ slice.width * 2 ^ slice.shift :=
          Nat.mul_lt_mul_of_pos_right hValue (Nat.two_pow_pos _)
      _ = 2 ^ (slice.width + slice.shift) := (Nat.pow_add 2 _ _).symm
      _ ≤ 2 ^ 8 := Nat.pow_le_pow_right Nat.two_pos (by omega)
  rw [UInt8.toNat_shiftLeft, hShift, Nat.shiftLeft_eq, Nat.mod_eq_of_lt hFits]

/-! ## Elements in the making -/

/-- The buffer holds the bits read so far, and the `count` lowest bytes with significant bits have
not been filled. -/
structure Partial (layout : PackedAtomic) (count : Nat) (bits : List Bool)
    (buffer : Array UInt8) : Prop where
  size_eq : buffer.size = layout.size
  value_eq : layout.order.value buffer.toList =
    numberOfBits bits * 2 ^ (layout.offset + layout.bitsBelow count)
  byteAt_eq_zero : ∀ significance < layout.lowestByte + count,
    Bytes.byteAt buffer.toList (layout.order.index layout.size significance) = 0

/-- The number that an element has become where only some of its significant bits are there. Those
that are missing count as zero, and so do the others of a byte that has some of them. -/
def valueOfPrefix (layout : PackedAtomic) (bits : List Bool) : Nat :=
  let missing := layout.precision + layout.offset - bits.length
  numberOfBits bits * 2 ^ missing / 256 ^ ((missing + 7) / 8) * 256 ^ ((missing + 7) / 8)

theorem partial_zeros (layout : PackedAtomic) :
    layout.Partial layout.byteCount [] (Array.replicate layout.size 0) where
  size_eq := Array.size_replicate
  value_eq := by
    rw [numberOfBits, Nat.zero_mul, Array.toList_replicate]
    cases layout.order with
    | little => exact littleEndian_zeros layout.size
    | big =>
      rw [ByteOrder.value, Bytes.bigEndian_eq, List.reverse_replicate, littleEndian_zeros]
  byteAt_eq_zero := by
    intro significance _
    rw [Array.toList_replicate, Bytes.byteAt, List.getElem?_replicate]
    split <;> rfl

section
variable {layout : PackedAtomic} (hValid : layout.Valid)
include hValid

/-- The byte with the next bits is filled. -/
theorem Partial.step {count : Nat} (hCount : count < layout.byteCount) {bits : List Bool}
    {buffer : Array UInt8} (h : layout.Partial (count + 1) bits buffer) {value : UInt8}
    (hValue : value.toNat < 2 ^ (layout.slice (layout.lowestByte + count)).width) :
    layout.Partial count
      (bits ++ numberBits (layout.slice (layout.lowestByte + count)).width value.toNat)
      (buffer.setIfInBounds (0 + (layout.slice (layout.lowestByte + count)).index)
        (value <<< UInt8.ofNat (layout.slice (layout.lowestByte + count)).shift)) := by
  have hSignificance := significance_lt hValid hCount
  have hLength : buffer.toList.length = layout.size := h.size_eq
  have hIndex : (layout.slice (layout.lowestByte + count)).index =
      layout.order.index layout.size (layout.lowestByte + count) := rfl
  rw [Nat.zero_add, hIndex]
  refine ⟨?_, ?_, ?_⟩
  · rw [Array.size_setIfInBounds, h.size_eq]
  · have hProper := proper_slice hValid hCount
    have hZero := h.byteAt_eq_zero _ (Nat.lt_succ_self _)
    have hByte : (value <<< UInt8.ofNat (layout.slice (layout.lowestByte + count)).shift).toNat =
        value.toNat * 2 ^ (layout.slice (layout.lowestByte + count)).shift :=
      toNat_shiftLeft hProper hValue
    have hPlace : 256 ^ (layout.lowestByte + count) *
        2 ^ (layout.slice (layout.lowestByte + count)).shift =
          2 ^ (layout.offset + layout.bitsBelow count) := by
      rw [← lowest_slice hValid hCount, Nat.pow_add 2 (8 * _), Nat.pow_mul 2 8]
    have hBefore : layout.offset + layout.bitsBelow (count + 1) =
        (layout.slice (layout.lowestByte + count)).width +
          (layout.offset + layout.bitsBelow count) := by
      rw [bitsBelow_succ hValid, Nat.add_left_comm]
    rw [Array.toList_setIfInBounds, ← hLength,
      ByteOrder.value_set (hLength ▸ hSignificance) (hLength ▸ hZero), h.value_eq, hByte, hBefore,
      Nat.mul_left_comm, hPlace, numberOfBits_append, length_numberBits,
      numberOfBits_numberBits hValue, Nat.add_mul, Nat.pow_add, Nat.mul_assoc]
  · intro significance hBelow
    have hOther : layout.order.index layout.size (layout.lowestByte + count) ≠
        layout.order.index layout.size significance := by
      intro hSame
      have hEq := ByteOrder.index_inj hSignificance (Nat.lt_trans hBelow hSignificance) hSame
      omega
    rw [Array.toList_setIfInBounds, Bytes.byteAt_set_of_ne hOther]
    exact h.byteAt_eq_zero significance (Nat.lt_succ_of_lt hBelow)

/-! ## Runs -/

section
variable {input : Bytes} {start : Nat}

/-- The next byte is filled if the string has its bits. -/
theorem unpackBytes_step {count read : Nat} (hCount : count < layout.byteCount)
    (hEnough : start + read + (layout.slice (layout.lowestByte + count)).width ≤ 8 * input.length)
    {buffer : Array UInt8}
    (hBuffer : layout.Partial (count + 1) ((ofPosition input start).unread.take read) buffer) :
    ∃ filled, layout.unpackBytes 0 (count + 1) buffer (ofPosition input (start + read)) =
        layout.unpackBytes 0 count filled (ofPosition input
          (start + (read + (layout.slice (layout.lowestByte + count)).width))) ∧
      layout.Partial count ((ofPosition input start).unread.take
        (read + (layout.slice (layout.lowestByte + count)).width)) filled := by
  have hProper := proper_slice hValid hCount
  have hMax := hProper.shift_add_width_le
  obtain ⟨value, hOk, hBits⟩ :=
    BitCursor.readBits_ofPosition hProper.width_pos (by omega) hEnough
  have hFilled := hBuffer.step hValid hCount hBits.toNat_lt
  rw [← hBits.take_add] at hFilled
  refine ⟨_, ?_, hFilled⟩
  rw [unpackBytes, hOk, Nat.add_assoc]

/-- The bits that are still to be read are read if there are that many. The induction is on the
bytes that have not been filled, `read` bits having gone into the others. -/
theorem unpackBytes_ofPosition {count read : Nat} (hCount : count ≤ layout.byteCount)
    (hRead : read + layout.bitsBelow count = layout.precision)
    (hEnough : start + layout.precision ≤ 8 * input.length) {buffer : Array UInt8}
    (hBuffer : layout.Partial count ((ofPosition input start).unread.take read) buffer) :
    ∃ element, layout.unpackBytes 0 count buffer (ofPosition input (start + read)) =
        .ok (element, ofPosition input (start + layout.precision)) ∧
      layout.Partial 0 ((ofPosition input start).unread.take layout.precision) element := by
  induction count generalizing read buffer with
  | zero =>
    rw [bitsBelow_zero, Nat.add_zero] at hRead
    rw [← hRead]
    exact ⟨buffer, rfl, hBuffer⟩
  | succ count ih =>
    rw [bitsBelow_succ hValid, ← Nat.add_assoc] at hRead
    obtain ⟨filled, hStep, hFilled⟩ := unpackBytes_step hValid hCount (by omega) hBuffer
    rw [hStep]
    exact ih (Nat.le_of_succ_le hCount) hRead hFilled

/-- Without enough bits, the last byte to be filled is the last one whose bits are complete. -/
theorem unpackBytes_ofPosition_end {count read : Nat} (hCount : count ≤ layout.byteCount)
    (hRead : read + layout.bitsBelow count = layout.precision)
    (hPosition : start + read ≤ 8 * input.length)
    (hShort : 8 * input.length < start + layout.precision) {buffer : Array UInt8}
    (hBuffer : layout.Partial count ((ofPosition input start).unread.take read) buffer) :
    ∃ written rest, layout.unpackBytes 0 count buffer (ofPosition input (start + read)) =
        .error ⟨exhaustedAt input, written⟩ ∧
      layout.Partial (rest + 1) ((ofPosition input start).unread.take
        (layout.precision - layout.bitsBelow (rest + 1))) written ∧
      start + layout.precision ≤ 8 * input.length + layout.bitsBelow (rest + 1) ∧
      8 * input.length + layout.bitsBelow rest < start + layout.precision := by
  induction count generalizing read buffer with
  | zero =>
    rw [bitsBelow_zero] at hRead
    omega
  | succ count ih =>
    have hSucc := bitsBelow_succ hValid count
    by_cases hNext :
        start + read + (layout.slice (layout.lowestByte + count)).width ≤ 8 * input.length
    · obtain ⟨filled, hStep, hFilled⟩ := unpackBytes_step hValid hCount hNext hBuffer
      rw [hStep]
      exact ih (Nat.le_of_succ_le hCount) (by omega) (by omega) hFilled
    · have hProper := proper_slice hValid hCount
      have hMax := hProper.shift_add_width_le
      have hError : (ofPosition input (start + read)).readBits
          (layout.slice (layout.lowestByte + count)).width = .error (exhaustedAt input) :=
        BitCursor.readBits_ofPosition_end hProper.width_pos (by omega) hPosition
          (Nat.lt_of_not_le hNext)
      have hBits : layout.precision - layout.bitsBelow (count + 1) = read := by omega
      refine ⟨buffer, count, ?_, hBits ▸ hBuffer, by omega, by omega⟩
      rw [unpackBytes, hError]

theorem unpack_ofPosition (hEnough : start + layout.precision ≤ 8 * input.length) :
    ∃ element, layout.unpack 0 (Array.replicate layout.size 0) (ofPosition input start) =
        .ok (element, ofPosition input (start + layout.precision)) ∧
      element.size = layout.size ∧
      layout.order.value element.toList =
        numberOfBits ((ofPosition input start).unread.take layout.precision) *
          2 ^ layout.offset := by
  have hBits : 0 + layout.bitsBelow layout.byteCount = layout.precision := by
    rw [Nat.zero_add, bitsBelow_byteCount hValid]
  obtain ⟨element, hOk, hElement⟩ := unpackBytes_ofPosition hValid (Nat.le_refl _) hBits hEnough
    layout.partial_zeros
  refine ⟨element, hOk, hElement.size_eq, ?_⟩
  rw [hElement.value_eq, bitsBelow_zero, Nat.add_zero]

/-- Where the byte above the `rest` lowest is the first one whose bits are not complete, it and
those below it are the bytes that lack bits. -/
theorem value_of_partial {rest : Nat} {unread : List Bool}
    (hEnough : layout.precision ≤ unread.length + layout.bitsBelow (rest + 1))
    (hShort : unread.length + layout.bitsBelow rest < layout.precision) {written : Array UInt8}
    (h : layout.Partial (rest + 1)
      (unread.take (layout.precision - layout.bitsBelow (rest + 1))) written) :
    layout.order.value written.toList = layout.valueOfPrefix unread := by
  have hPos := hValid.precision_pos
  have hAbove : layout.bitsBelow rest = min (layout.precision + layout.offset)
    (8 * (layout.lowestByte + rest)) - layout.offset := rfl
  have hBelow : layout.bitsBelow (rest + 1) = min (layout.precision + layout.offset)
    (8 * (layout.lowestByte + (rest + 1))) - layout.offset := rfl
  have hLowest : layout.lowestByte = layout.offset / 8 := rfl
  obtain ⟨missing, hMissing⟩ :
      ∃ missing, layout.precision + layout.offset - unread.length = missing := ⟨_, rfl⟩
  obtain ⟨bytes, hBytes⟩ : ∃ bytes, (missing + 7) / 8 = bytes := ⟨_, rfl⟩
  have hCount : bytes = layout.lowestByte + (rest + 1) := by omega
  -- The bits that are there of a byte that lacks some.
  obtain ⟨cut, hCut⟩ : ∃ cut, 8 * bytes = missing + cut := ⟨8 * bytes - missing, by omega⟩
  have hPower : 256 ^ bytes = 2 ^ cut * 2 ^ missing := by
    rw [← Nat.pow_add, Nat.add_comm, ← hCut, Nat.pow_mul]
  have hPrefix : layout.valueOfPrefix unread =
      numberOfBits (unread.take (unread.length - cut)) * 2 ^ (8 * bytes) := by
    rw [valueOfPrefix, hMissing, hBytes, hPower,
      Nat.mul_div_mul_right _ _ (Nat.two_pow_pos missing), numberOfBits_take, ← Nat.pow_add,
      Nat.add_comm, hCut]
  rw [h.value_eq, hPrefix]
  -- If the highest byte with significant bits lacks some, there are none in the bytes above.
  by_cases hTop : 8 * bytes ≤ layout.precision + layout.offset
  · have hTaken : layout.precision - layout.bitsBelow (rest + 1) = unread.length - cut := by omega
    have hPlace : layout.offset + layout.bitsBelow (rest + 1) = 8 * bytes := by omega
    rw [hTaken, hPlace]
  · have hTaken : layout.precision - layout.bitsBelow (rest + 1) = 0 := by omega
    have hLeft : unread.length - cut = 0 := by omega
    rw [hTaken, hLeft, List.take_zero, numberOfBits, Nat.zero_mul, Nat.zero_mul]

/-- The lowest bytes, those with bits that are missing, have not been written. -/
theorem unpack_ofPosition_end (hStart : start ≤ 8 * input.length)
    (hShort : 8 * input.length < start + layout.precision) :
    ∃ written, layout.unpack 0 (Array.replicate layout.size 0) (ofPosition input start) =
        .error ⟨exhaustedAt input, written⟩ ∧
      written.size = layout.size ∧
      layout.order.value written.toList = layout.valueOfPrefix (ofPosition input start).unread := by
  have hBits : 0 + layout.bitsBelow layout.byteCount = layout.precision := by
    rw [Nat.zero_add, bitsBelow_byteCount hValid]
  obtain ⟨written, rest, hError, hWritten, hFilled, hMissing⟩ :=
    unpackBytes_ofPosition_end hValid (Nat.le_refl _) hBits hStart hShort layout.partial_zeros
  have hLength := BitCursor.length_unread_ofPosition input start
  exact ⟨written, hError, hWritten.size_eq,
    value_of_partial hValid (by omega) (by omega) hWritten⟩

end

end

/-! ## The other byte order -/

/-- What unpacking gives, with the bytes of the element in reverse. -/
def mirrored : Except Interrupted (Array UInt8 × BitCursor) →
    Except Interrupted (Array UInt8 × BitCursor)
  | .ok (element, next) => .ok (element.reverse, next)
  | .error interrupted => .error { interrupted with written := interrupted.written.reverse }

theorem eq_reverse_of_value {first second : Array UInt8} (hSize : first.size = second.size)
    (hValue : ByteOrder.big.value first.toList = ByteOrder.little.value second.toList) :
    first = second.reverse := by
  apply Array.toList_inj.mp
  rw [Array.toList_reverse]
  exact ByteOrder.eq_reverse_of_value_eq hSize hValue

theorem unpack_big {layout : PackedAtomic} (hValid : layout.Valid) {input : Bytes} {start : Nat}
    (hStart : start ≤ 8 * input.length) :
    unpack { layout with order := .big } 0 (Array.replicate layout.size 0)
        (ofPosition input start) =
      mirrored (unpack { layout with order := .little } 0 (Array.replicate layout.size 0)
        (ofPosition input start)) := by
  have hBig : Valid { layout with order := .big } :=
    ⟨hValid.size_pos, hValid.precision_pos, hValid.precision_add_offset_le⟩
  have hLittle : Valid { layout with order := .little } :=
    ⟨hValid.size_pos, hValid.precision_pos, hValid.precision_add_offset_le⟩
  by_cases hEnough : start + layout.precision ≤ 8 * input.length
  · obtain ⟨first, hFirst, hFirstSize, hFirstValue⟩ := unpack_ofPosition hBig hEnough
    obtain ⟨second, hSecond, hSecondSize, hSecondValue⟩ := unpack_ofPosition hLittle hEnough
    rw [hFirst, hSecond, mirrored, eq_reverse_of_value (hFirstSize.trans hSecondSize.symm)
      (hFirstValue.trans hSecondValue.symm)]
  · have hShort := Nat.lt_of_not_le hEnough
    obtain ⟨first, hFirst, hFirstSize, hFirstValue⟩ := unpack_ofPosition_end hBig hStart hShort
    obtain ⟨second, hSecond, hSecondSize, hSecondValue⟩ :=
      unpack_ofPosition_end hLittle hStart hShort
    rw [hFirst, hSecond, mirrored, eq_reverse_of_value (hFirstSize.trans hSecondSize.symm)
      (hFirstValue.trans hSecondValue.symm)]

/-! ## Main statement -/

/-- Unpacking succeeds exactly if the bits are there, at every bit that reads can reach. It takes
them and no others, and they become the significant bits of the element. Where there are too few, it
stops at the end of the string, and the element has only those bytes whose bits are all there. In
the two byte orders it does the same, with the bytes in reverse. -/
theorem unpack_exact {layout : PackedAtomic} (hLayout : layout.fault? = none) {input : Bytes}
    {cursor : BitCursor} (hCursor : BitCursor.Reachable input cursor) :
    (layout.precision ≤ cursor.unread.length →
      ∃ element, layout.unpack 0 (Array.replicate layout.size 0) cursor =
          .ok (element, ofPosition input (cursor.position + layout.precision)) ∧
        element.size = layout.size ∧
        layout.order.value element.toList =
          numberOfBits (cursor.unread.take layout.precision) * 2 ^ layout.offset) ∧
    (cursor.unread.length < layout.precision →
      ∃ written, layout.unpack 0 (Array.replicate layout.size 0) cursor =
          .error ⟨exhaustedAt input, written⟩ ∧
        written.size = layout.size ∧
        layout.order.value written.toList = layout.valueOfPrefix cursor.unread) ∧
    unpack { layout with order := .big } 0 (Array.replicate layout.size 0) cursor =
      mirrored
        (unpack { layout with order := .little } 0 (Array.replicate layout.size 0) cursor) := by
  have hValid := valid_of_fault? hLayout
  obtain ⟨start, hStart, rfl⟩ := BitCursor.reachable_iff.mp hCursor
  rw [BitCursor.length_unread_ofPosition, BitCursor.position_ofPosition]
  refine ⟨?_, ?_, unpack_big hValid hStart⟩
  · intro hEnough
    exact unpack_ofPosition hValid (by omega)
  · intro hShort
    exact unpack_ofPosition_end hValid hStart (by omega)

/-- The second of two numbers of twelve bits, from its first bit and from the one after. From there
one bit is missing, so the lower byte is not written. -/
theorem unpack_exact_second :
    let layout : PackedAtomic := ⟨2, .little, 12, 2⟩
    let input : Bytes := [0xab, 0xc1, 0x23]
    layout.fault? = none ∧
      BitCursor.Reachable input (ofPosition input 12) ∧
      BitCursor.Reachable input (ofPosition input 13) ∧
      (∃ element, layout.unpack 0 (Array.replicate 2 0) (ofPosition input 12) =
          .ok (element, ofPosition input 24) ∧
        element.size = 2 ∧ ByteOrder.little.value element.toList = 0x48c) ∧
      ∃ written, layout.unpack 0 (Array.replicate 2 0) (ofPosition input 13) =
          .error ⟨⟨3, 3, 8, []⟩, written⟩ ∧
        written.size = 2 ∧ ByteOrder.little.value written.toList = 0x900 := by
  intro layout input
  have hLayout : layout.fault? = none := by decide
  have hFirst : BitCursor.Reachable input (ofPosition input 12) :=
    BitCursor.reachable_ofPosition (by decide)
  have hSecond : BitCursor.Reachable input (ofPosition input 13) :=
    BitCursor.reachable_ofPosition (by decide)
  refine ⟨hLayout, hFirst, hSecond, ?_, ?_⟩
  · obtain ⟨element, hOk, hSize, hValue⟩ := (unpack_exact hLayout hFirst).1 (by decide)
    exact ⟨element, hOk, hSize, hValue.trans (by decide)⟩
  · obtain ⟨written, hError, hSize, hValue⟩ := (unpack_exact hLayout hSecond).2.1 (by decide)
    have hEnd : exhaustedAt input = ⟨3, 3, 8, []⟩ := by decide
    exact ⟨written, hEnd ▸ hError, hSize, hValue.trans (by decide)⟩

end PackedAtomic

end ChunkFilters
