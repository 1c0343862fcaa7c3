import ChunkFilters.Bits.Packed
import ChunkFilters.Proofs.Bits.Reading

/-!
# Slices filled from a bit string

Unpacking takes the bits of one slice after the other off the front of what is unread and writes
each of them into its byte. `fill` is that loop over a list of slices. Both ways of unpacking are
instances of it, with the slices of an atomic part and with whole bytes.

* `fill_cases`: there is enough to read or there is not, and nothing else decides.
* `filled_of_fill`: with distinct bytes to fill, the unread bits were those that the slices now
  hold. A byte that is filled has no other bits set, and the other bytes are as they were.
* `eq_of_bits_eq`: no two strings without other bits hold the same bits.
-/

namespace ChunkFilters

namespace Bytes

theorem byteAt_set_self {bytes : Bytes} {index : Nat} (h : index < bytes.length) (value : UInt8) :
    byteAt (bytes.set index value) index = value := by
  rw [byteAt, List.getElem?_set_self h]
  rfl

theorem byteAt_set_of_ne {bytes : Bytes} {index other : Nat} (h : index ≠ other) (value : UInt8) :
    byteAt (bytes.set index value) other = bytes.byteAt other := by
  rw [byteAt, byteAt, List.getElem?_set_ne h]

theorem testBit_shiftLeft {shift : Nat} (h : shift < 8) (value : UInt8) (bit : Nat) :
    (value <<< UInt8.ofNat shift).toNat.testBit bit =
      (decide (bit < 8) && (decide (shift ≤ bit) && value.toNat.testBit (bit - shift))) := by
  have hShift : (UInt8.ofNat shift).toNat % 8 = shift := by
    rw [UInt8.toNat_ofNat']
    omega
  rw [UInt8.toNat_shiftLeft, hShift, Nat.testBit_mod_two_pow, Nat.testBit_shiftLeft]

end Bytes

namespace PackedAtomic.Slice

/-! ## Slices of a byte string -/

/-- A slice of one to eight bits of a byte. -/
structure Proper (slice : Slice) : Prop where
  width_pos : 0 < slice.width
  shift_add_width_le : slice.shift + slice.width ≤ 8

/-- The bits of a slice, as they are packed. -/
def bits (bytes : Bytes) (slice : Slice) : List Bool :=
  numberBits slice.width ((bytes.byteAt slice.index).toNat >>> slice.shift)

/-- A bit of a byte lies in the slice. -/
def Holds (slice : Slice) (index bit : Nat) : Prop :=
  index = slice.index ∧ slice.shift ≤ bit ∧ bit < slice.shift + slice.width

theorem length_bits (bytes : Bytes) (slice : Slice) : (slice.bits bytes).length = slice.width :=
  length_numberBits _ _

/-- The number of bits of all slices together. -/
def totalWidth : List Slice → Nat
  | [] => 0
  | slice :: rest => slice.width + totalWidth rest

theorem totalWidth_append (first second : List Slice) :
    totalWidth (first ++ second) = totalWidth first + totalWidth second := by
  induction first with
  | nil => exact (Nat.zero_add _).symm
  | cons slice rest ih => rw [List.cons_append, totalWidth, totalWidth, ih, Nat.add_assoc]

theorem length_flatMap_bits (bytes : Bytes) (slices : List Slice) :
    (slices.flatMap (bits bytes)).length = totalWidth slices := by
  induction slices with
  | nil => rfl
  | cons slice rest ih =>
    rw [List.flatMap_cons, List.length_append, length_bits, ih, totalWidth]

/-- The bits of a byte that holds a value at the place of the slice. -/
theorem bits_of_byteAt {slice : Slice} (hProper : slice.Proper) {bytes : Bytes} {value : UInt8}
    (h : bytes.byteAt slice.index = value <<< UInt8.ofNat slice.shift) :
    slice.bits bytes = numberBits slice.width value.toNat := by
  have hPos := hProper.width_pos
  have hLe := hProper.shift_add_width_le
  rw [bits, h]
  apply numberBits_congr
  intro bit hBit
  have hIn : slice.shift + bit < 8 := by omega
  rw [Nat.testBit_shiftRight, Bytes.testBit_shiftLeft (by omega), decide_eq_true hIn,
    decide_eq_true (Nat.le_add_right _ _), Nat.add_sub_cancel_left, Bool.true_and, Bool.true_and]

/-- Such a byte has no bits outside the slice. -/
theorem holds_of_byteAt {slice : Slice} (hProper : slice.Proper) {bytes : Bytes} {value : UInt8}
    (hValue : ∀ bit, slice.width ≤ bit → value.toNat.testBit bit = false)
    (h : bytes.byteAt slice.index = value <<< UInt8.ofNat slice.shift) {bit : Nat}
    (hBit : bytes.bitAt slice.index bit = true) : slice.Holds slice.index bit := by
  have hPos := hProper.width_pos
  have hLe := hProper.shift_add_width_le
  rw [Bytes.bitAt, h, Bytes.testBit_shiftLeft (by omega), Bool.and_eq_true, Bool.and_eq_true,
    decide_eq_true_iff, decide_eq_true_iff] at hBit
  obtain ⟨-, hLow, hSet⟩ := hBit
  refine ⟨rfl, hLow, ?_⟩
  by_cases hHigh : bit < slice.shift + slice.width
  · exact hHigh
  · rw [hValue (bit - slice.shift) (by omega)] at hSet
    cases hSet

/-- Equal bits in a slice are equal bits of the bytes. -/
theorem bitAt_eq_of_bits_eq {slice : Slice} {first second : Bytes}
    (h : slice.bits first = slice.bits second) {index bit : Nat} (hHolds : slice.Holds index bit) :
    first.bitAt index bit = second.bitAt index bit := by
  obtain ⟨rfl, hLow, hHigh⟩ := hHolds
  have hBit : bit - slice.shift < slice.width := by omega
  have hEq := testBit_eq_of_numberBits_eq h hBit
  rw [Nat.testBit_shiftRight, Nat.testBit_shiftRight, Nat.add_sub_cancel' hLow] at hEq
  exact hEq

/-- Every bit that is set lies in one of the slices. -/
def Within (slices : List Slice) (bytes : Bytes) : Prop :=
  ∀ index bit, bytes.bitAt index bit = true → ∃ slice ∈ slices, slice.Holds index bit

theorem bits_eq_of_flatMap_eq {first second : Bytes} {slices : List Slice}
    (h : slices.flatMap (bits first) = slices.flatMap (bits second)) :
    ∀ slice ∈ slices, slice.bits first = slice.bits second := by
  induction slices with
  | nil =>
    intro slice hMem
    cases hMem
  | cons slice rest ih =>
    have hLength : (slice.bits first).length = (slice.bits second).length := by
      rw [length_bits, length_bits]
    rw [List.flatMap_cons, List.flatMap_cons] at h
    obtain ⟨hFirst, hRest⟩ := List.append_inj h hLength
    intro other hMem
    rcases List.mem_cons.mp hMem with rfl | hMem
    · exact hFirst
    · exact ih hRest other hMem

/-- The bits in the slices determine the bytes. -/
theorem eq_of_bits_eq {first second : Bytes} {slices : List Slice}
    (hLength : first.length = second.length) (hFirst : Within slices first)
    (hSecond : Within slices second)
    (h : slices.flatMap (bits first) = slices.flatMap (bits second)) : first = second := by
  have hEach := bits_eq_of_flatMap_eq h
  apply Bytes.ext_bitAt hLength
  intro index bit _
  by_cases hHeld : ∃ slice ∈ slices, slice.Holds index bit
  · obtain ⟨slice, hMem, hHolds⟩ := hHeld
    exact bitAt_eq_of_bits_eq (hEach slice hMem) hHolds
  · have hClear : ∀ {bytes : Bytes}, Within slices bytes → bytes.bitAt index bit = false := by
      intro bytes hWithin
      rw [Bool.eq_false_iff]
      intro hSet
      exact hHeld (hWithin index bit hSet)
    rw [hClear hFirst, hClear hSecond]

end PackedAtomic.Slice

/-! ## Filling -/

open PackedAtomic

/-- Reads the bits of each slice into its byte. -/
def fill : List Slice → Array UInt8 × BitCursor → Except Exhausted (Array UInt8 × BitCursor)
  | [], state => .ok state
  | slice :: rest, (buffer, cursor) =>
    match cursor.readBits slice.width with
    | .error error => .error error
    | .ok (value, cursor) =>
      fill rest (buffer.setIfInBounds slice.index (value <<< UInt8.ofNat slice.shift), cursor)

theorem fill_append (first second : List Slice) (state : Array UInt8 × BitCursor) :
    fill (first ++ second) state =
      match fill first state with
      | .error error => .error error
      | .ok state => fill second state := by
  induction first generalizing state with
  | nil => rfl
  | cons slice rest ih =>
    obtain ⟨buffer, cursor⟩ := state
    simp only [List.cons_append, fill]
    cases cursor.readBits slice.width with
    | error error => rfl
    | ok result => exact ih _

/-- Filling succeeds exactly if there are enough bits. -/
theorem fill_cases {slices : List Slice} (hProper : ∀ slice ∈ slices, slice.Proper)
    (before : Array UInt8 × BitCursor) (hWell : before.2.WellFormed) :
    (∃ after, fill slices before = .ok after ∧ after.2.WellFormed ∧
        before.2.unread.length = Slice.totalWidth slices + after.2.unread.length) ∨
      (∃ error, fill slices before = .error error) ∧
        before.2.unread.length < Slice.totalWidth slices := by
  induction slices generalizing before with
  | nil => exact Or.inl ⟨before, rfl, hWell, (Nat.zero_add _).symm⟩
  | cons slice rest ih =>
    obtain ⟨buffer, cursor⟩ := before
    have hSlice := hProper slice List.mem_cons_self
    have hLe := hSlice.shift_add_width_le
    simp only [fill, Slice.totalWidth]
    rcases BitCursor.readBits_cases hWell hSlice.width_pos (by omega) with
      ⟨value, next, hOk, hRead⟩ | ⟨⟨error, hError⟩, hShort⟩
    · rw [hOk]
      have hLength : cursor.unread.length = slice.width + next.unread.length :=
        hRead.length_unread
      rcases ih (fun other hMem => hProper other (List.mem_cons_of_mem slice hMem))
          (buffer.setIfInBounds slice.index (value <<< UInt8.ofNat slice.shift), next)
          hRead.wellFormed with ⟨after, hFill, hAfter, hRest⟩ | ⟨hFill, hRest⟩
      · exact Or.inl ⟨after, hFill, hAfter, by simp only at hRest ⊢; omega⟩
      · exact Or.inr ⟨hFill, by simp only at hRest ⊢; omega⟩
    · rw [hError]
      exact Or.inr ⟨⟨error, rfl⟩, by simp only at hShort ⊢; omega⟩

/-- What filling makes of a buffer and a cursor. -/
structure Filled (slices : List Slice) (before after : Array UInt8 × BitCursor) : Prop where
  wellFormed : after.2.WellFormed
  size_eq : after.1.size = before.1.size
  unread_eq : before.2.unread =
    slices.flatMap (Slice.bits after.1.toList) ++ after.2.unread
  byteAt_eq : ∀ index ∉ slices.map Slice.index,
    Bytes.byteAt after.1.toList index = Bytes.byteAt before.1.toList index
  holds : ∀ index ∈ slices.map Slice.index, ∀ bit, Bytes.bitAt after.1.toList index bit = true →
    ∃ slice ∈ slices, slice.Holds index bit

/-- Slices of distinct bytes of the buffer are filled with the bits that were to be read. -/
theorem filled_of_fill {slices : List Slice} (hProper : ∀ slice ∈ slices, slice.Proper)
    (hDistinct : (slices.map Slice.index).Nodup) {before after : Array UInt8 × BitCursor}
    (hInside : ∀ slice ∈ slices, slice.index < before.1.size) (hWell : before.2.WellFormed)
    (h : fill slices before = .ok after) : Filled slices before after := by
  induction slices generalizing before with
  | nil =>
    rw [fill, Except.ok.injEq] at h
    subst h
    exact ⟨hWell, rfl, rfl, fun _ _ => rfl, fun _ hMem => nomatch hMem⟩
  | cons slice rest ih =>
    obtain ⟨buffer, cursor⟩ := before
    have hSlice := hProper slice List.mem_cons_self
    have hLe := hSlice.shift_add_width_le
    obtain ⟨hNew, hRestDistinct⟩ := List.nodup_cons.mp hDistinct
    rw [fill] at h
    rcases BitCursor.readBits_cases hWell hSlice.width_pos (by omega) with
      ⟨value, next, hOk, hRead⟩ | ⟨⟨error, hError⟩, -⟩
    · rw [hOk] at h
      have hRest := ih (fun other hMem => hProper other (List.mem_cons_of_mem slice hMem))
        hRestDistinct
        (fun other hMem => by
          rw [Array.size_setIfInBounds]
          exact hInside other (List.mem_cons_of_mem slice hMem))
        hRead.wellFormed h
      -- The byte of this slice is not written again.
      have hByte : Bytes.byteAt after.1.toList slice.index =
          value <<< UInt8.ofNat slice.shift := by
        have hIndex : slice.index < buffer.toList.length := hInside slice List.mem_cons_self
        rw [hRest.byteAt_eq slice.index hNew, Array.toList_setIfInBounds,
          Bytes.byteAt_set_self hIndex]
      have hUnread : cursor.unread = numberBits slice.width value.toNat ++ next.unread :=
        hRead.unread_eq
      refine ⟨hRest.wellFormed, ?_, ?_, ?_, ?_⟩
      · rw [hRest.size_eq, Array.size_setIfInBounds]
      · rw [List.flatMap_cons, Slice.bits_of_byteAt hSlice hByte, List.append_assoc,
          ← hRest.unread_eq, hUnread]
      · intro index hIndex
        rw [List.map_cons, List.mem_cons, not_or] at hIndex
        rw [hRest.byteAt_eq index hIndex.2, Array.toList_setIfInBounds,
          Bytes.byteAt_set_of_ne (Ne.symm hIndex.1)]
      · intro index hIndex bit hBit
        rcases List.mem_cons.mp hIndex with rfl | hIndex
        · exact ⟨slice, List.mem_cons_self,
            Slice.holds_of_byteAt hSlice hRead.testBit_eq_false hByte hBit⟩
        · obtain ⟨other, hMem, hHolds⟩ := hRest.holds index hIndex bit hBit
          exact ⟨other, List.mem_cons_of_mem slice hMem, hHolds⟩
    · rw [hError] at h
      cases h

end ChunkFilters
