import ChunkFilters.Bits.Cursor
import ChunkFilters.Proofs.Bytes

/-!
# A read takes bits off the front

`unread` is the bit string that a cursor has still to read. A read of `count` bits, one to eight,
takes the first `count` of them as the low bits of a byte and leaves the others, or fails where
there are fewer (`readBits_cases`). The three ways in which a read can lie in its bytes are the
three cases of the proof; in each of them the bits are found by `BitSpan.testBit_extract`.
-/

namespace ChunkFilters

/-! ## Spans -/

namespace BitSpan

theorem toNat_mask {width : Nat} (h : width ≤ 8) : (mask width).toNat = 2 ^ width - 1 := by
  have hAll : ∀ width ≤ 8, (mask width).toNat = 2 ^ width - 1 := by decide
  exact hAll width h

/-- The bits of a span come from `down` bits above the bottom and land `up` bits above it. -/
theorem testBit_extract {down width up : Nat} (hDown : down < 8) (hUp : up < 8)
    (hWidth : up + width ≤ 8) (byte : UInt8) (bit : Nat) :
    (extract ⟨down, width, up⟩ byte).toNat.testBit bit =
      (decide (up ≤ bit ∧ bit < up + width) && byte.toNat.testBit (down + (bit - up))) := by
  have hDownNat : (UInt8.ofNat down).toNat % 8 = down := by
    rw [UInt8.toNat_ofNat']
    omega
  have hUpNat : (UInt8.ofNat up).toNat % 8 = up := by
    rw [UInt8.toNat_ofNat']
    omega
  rw [extract, UInt8.toNat_shiftLeft, UInt8.toNat_and, UInt8.toNat_shiftRight, hDownNat, hUpNat,
    toNat_mask (Nat.le_of_add_left_le hWidth), Nat.testBit_mod_two_pow, Nat.testBit_shiftLeft,
    Nat.testBit_and, Nat.testBit_shiftRight, Nat.testBit_two_pow_sub_one]
  by_cases hLow : up ≤ bit
  · by_cases hHigh : bit < up + width
    · have hIn : bit - up < width := by omega
      have hByte : bit < 8 := by omega
      simp [hLow, hHigh, hIn, hByte]
    · have hOut : ¬ bit - up < width := by omega
      simp [hHigh, hOut]
  · simp [hLow]

end BitSpan

namespace BitCursor

/-! ## The bits ahead -/

/-- At least one bit of the current byte is unread, and no more than there are. -/
def WellFormed (cursor : BitCursor) : Prop := 1 ≤ cursor.bitsLeft ∧ cursor.bitsLeft ≤ 8

theorem wellFormed_start (input : Bytes) : (start input).WellFormed :=
  ⟨Nat.le_add_left 1 7, Nat.le_refl 8⟩

theorem bits_cons (byte : UInt8) (rest : Bytes) :
    Bytes.bits (byte :: rest) = numberBits 8 byte.toNat ++ Bytes.bits rest := rfl

/-- The unread bits of the current byte come first. -/
theorem unread_cons {cursor : BitCursor} (h : cursor.WellFormed) {byte : UInt8} {rest : Bytes}
    (hRest : cursor.rest = byte :: rest) :
    cursor.unread = numberBits cursor.bitsLeft byte.toNat ++ Bytes.bits rest := by
  have hSplit : numberBits 8 byte.toNat =
      numberBits (8 - cursor.bitsLeft) (byte.toNat >>> cursor.bitsLeft) ++
        numberBits cursor.bitsLeft byte.toNat := by
    rw [← numberBits_add, Nat.sub_add_cancel h.2]
  rw [unread, hRest, bits_cons, hSplit, List.append_assoc]
  exact List.drop_left' (length_numberBits _ _)

theorem unread_nextByte (cursor : BitCursor) (rest : Bytes) :
    (cursor.nextByte rest).unread = Bytes.bits rest := rfl

/-! ## One read -/

/-- What a read of `count` bits makes of a cursor. -/
structure Read (count : Nat) (before : BitCursor) (value : UInt8) (after : BitCursor) : Prop where
  wellFormed : after.WellFormed
  unread_eq : before.unread = numberBits count value.toNat ++ after.unread
  testBit_eq_false : ∀ bit, count ≤ bit → value.toNat.testBit bit = false

/-- A read of fewer bits than the current byte has left. -/
theorem read_within {count : Nat} {cursor : BitCursor} (h : cursor.WellFormed) (hPos : 0 < count)
    {byte : UInt8} {rest : Bytes} (hRest : cursor.rest = byte :: rest)
    (hCount : count < cursor.bitsLeft) :
    Read count cursor ((BitSpan.within cursor.bitsLeft count).extract byte)
      { cursor with bitsLeft := cursor.bitsLeft - count } := by
  have hLeft := h.2
  have hBit : ∀ bit, ((BitSpan.within cursor.bitsLeft count).extract byte).toNat.testBit bit =
      (decide (bit < count) && byte.toNat.testBit (cursor.bitsLeft - count + bit)) := by
    intro bit
    rw [BitSpan.within, BitSpan.testBit_extract (by omega) (by decide) (by omega)]
    simp
  have hAfter : WellFormed { cursor with bitsLeft := cursor.bitsLeft - count } :=
    ⟨by simp only; omega, by simp only; omega⟩
  refine ⟨hAfter, ?_, ?_⟩
  · have hSplit : numberBits cursor.bitsLeft byte.toNat =
        numberBits count (byte.toNat >>> (cursor.bitsLeft - count)) ++
          numberBits (cursor.bitsLeft - count) byte.toNat := by
      rw [← numberBits_add, Nat.add_sub_cancel' (Nat.le_of_lt hCount)]
    have hValue : numberBits count ((BitSpan.within cursor.bitsLeft count).extract byte).toNat =
        numberBits count (byte.toNat >>> (cursor.bitsLeft - count)) := by
      apply numberBits_congr
      intro bit hLt
      rw [hBit, Nat.testBit_shiftRight, decide_eq_true hLt, Bool.true_and]
    rw [unread_cons h hRest, unread_cons hAfter hRest, hValue, hSplit, List.append_assoc]
  · intro bit hGe
    rw [hBit, decide_eq_false (Nat.not_lt.mpr hGe), Bool.false_and]

/-- All unread bits of the current byte, as the upper bits of a longer read. -/
theorem testBit_upper {count bitsLeft : Nat} (hLeft : 1 ≤ bitsLeft) (hCount : bitsLeft ≤ count)
    (hMax : count ≤ 8) (byte : UInt8) (bit : Nat) :
    ((BitSpan.upper bitsLeft count).extract byte).toNat.testBit bit =
      (decide (count - bitsLeft ≤ bit ∧ bit < count) &&
        byte.toNat.testBit (bit - (count - bitsLeft))) := by
  have hTop : count - bitsLeft + bitsLeft = count := Nat.sub_add_cancel hCount
  rw [BitSpan.upper, BitSpan.testBit_extract (by decide) (by omega) (by omega), hTop,
    Nat.zero_add]

/-- A read of all the bits that the current byte has left. -/
theorem read_whole {cursor : BitCursor} (h : cursor.WellFormed) {byte : UInt8} {rest : Bytes}
    (hRest : cursor.rest = byte :: rest) :
    Read cursor.bitsLeft cursor ((BitSpan.upper cursor.bitsLeft cursor.bitsLeft).extract byte)
      (cursor.nextByte rest) := by
  have hBit := testBit_upper h.1 (Nat.le_refl cursor.bitsLeft) h.2 byte
  refine ⟨wellFormed_start rest, ?_, ?_⟩
  · have hValue : numberBits cursor.bitsLeft
        ((BitSpan.upper cursor.bitsLeft cursor.bitsLeft).extract byte).toNat =
          numberBits cursor.bitsLeft byte.toNat := by
      apply numberBits_congr
      intro bit hLt
      rw [hBit, Nat.sub_self, decide_eq_true ⟨Nat.zero_le bit, hLt⟩, Bool.true_and, Nat.sub_zero]
    rw [unread_cons h hRest, unread_nextByte, hValue]
  · intro bit hGe
    have hOut : ¬ (cursor.bitsLeft - cursor.bitsLeft ≤ bit ∧ bit < cursor.bitsLeft) := by omega
    rw [hBit, decide_eq_false hOut, Bool.false_and]

/-- A read that goes on in the next byte. -/
theorem read_straddling {count : Nat} {cursor : BitCursor} (h : cursor.WellFormed)
    (hCount : cursor.bitsLeft < count) (hMax : count ≤ 8) {byte following : UInt8} {rest : Bytes}
    (hRest : cursor.rest = byte :: following :: rest) :
    Read count cursor
      ((BitSpan.upper cursor.bitsLeft count).extract byte |||
        (BitSpan.lower cursor.bitsLeft count).extract following)
      { cursor.nextByte (following :: rest) with bitsLeft := 8 - (count - cursor.bitsLeft) } := by
  have hLeft := h.1
  have hLower : ∀ bit,
      ((BitSpan.lower cursor.bitsLeft count).extract following).toNat.testBit bit =
        (decide (bit < count - cursor.bitsLeft) &&
          following.toNat.testBit (8 - (count - cursor.bitsLeft) + bit)) := by
    intro bit
    rw [BitSpan.lower, BitSpan.testBit_extract (by omega) (by decide) (by omega)]
    simp
  have hBit : ∀ bit, ((BitSpan.upper cursor.bitsLeft count).extract byte |||
      (BitSpan.lower cursor.bitsLeft count).extract following).toNat.testBit bit =
        ((decide (count - cursor.bitsLeft ≤ bit ∧ bit < count) &&
            byte.toNat.testBit (bit - (count - cursor.bitsLeft))) ||
          (decide (bit < count - cursor.bitsLeft) &&
            following.toNat.testBit (8 - (count - cursor.bitsLeft) + bit))) := by
    intro bit
    rw [UInt8.toNat_or, Nat.testBit_or, testBit_upper h.1 (Nat.le_of_lt hCount) hMax, hLower]
  have hAfter : WellFormed { cursor.nextByte (following :: rest) with
      bitsLeft := 8 - (count - cursor.bitsLeft) } :=
    ⟨by simp only; omega, by simp only; omega⟩
  refine ⟨hAfter, ?_, ?_⟩
  · have hSplit : numberBits 8 following.toNat =
        numberBits (count - cursor.bitsLeft)
            (following.toNat >>> (8 - (count - cursor.bitsLeft))) ++
          numberBits (8 - (count - cursor.bitsLeft)) following.toNat := by
      rw [← numberBits_add, Nat.add_sub_cancel' (by omega)]
    have hUpperValue : numberBits cursor.bitsLeft
        (((BitSpan.upper cursor.bitsLeft count).extract byte |||
          (BitSpan.lower cursor.bitsLeft count).extract following).toNat >>>
            (count - cursor.bitsLeft)) = numberBits cursor.bitsLeft byte.toNat := by
      apply numberBits_congr
      intro bit hLt
      have hIn : count - cursor.bitsLeft ≤ count - cursor.bitsLeft + bit ∧
          count - cursor.bitsLeft + bit < count := by omega
      have hOut : ¬ count - cursor.bitsLeft + bit < count - cursor.bitsLeft := by omega
      rw [Nat.testBit_shiftRight, hBit, decide_eq_true hIn, decide_eq_false hOut,
        Nat.add_sub_cancel_left, Bool.true_and, Bool.false_and, Bool.or_false]
    have hLowerValue : numberBits (count - cursor.bitsLeft)
        ((BitSpan.upper cursor.bitsLeft count).extract byte |||
          (BitSpan.lower cursor.bitsLeft count).extract following).toNat =
            numberBits (count - cursor.bitsLeft)
              (following.toNat >>> (8 - (count - cursor.bitsLeft))) := by
      apply numberBits_congr
      intro bit hLt
      have hOut : ¬ (count - cursor.bitsLeft ≤ bit ∧ bit < count) := by omega
      rw [hBit, decide_eq_false hOut, decide_eq_true hLt, Nat.testBit_shiftRight, Bool.false_and,
        Bool.true_and, Bool.false_or]
    have hCountSplit := numberBits_add cursor.bitsLeft (count - cursor.bitsLeft)
      ((BitSpan.upper cursor.bitsLeft count).extract byte |||
        (BitSpan.lower cursor.bitsLeft count).extract following).toNat
    rw [Nat.add_sub_cancel' (Nat.le_of_lt hCount), hUpperValue, hLowerValue] at hCountSplit
    rw [unread_cons h hRest, unread_cons hAfter rfl, hCountSplit, bits_cons, hSplit,
      List.append_assoc, List.append_assoc]
  · intro bit hGe
    have hUpperOut : ¬ (count - cursor.bitsLeft ≤ bit ∧ bit < count) := by omega
    have hLowerOut : ¬ bit < count - cursor.bitsLeft := by omega
    rw [hBit, decide_eq_false hUpperOut, decide_eq_false hLowerOut]
    rfl

/-- A read of one to eight bits succeeds exactly if there are that many. -/
theorem readBits_cases {count : Nat} {cursor : BitCursor} (h : cursor.WellFormed)
    (hPos : 0 < count) (hMax : count ≤ 8) :
    (∃ value after, cursor.readBits count = .ok (value, after) ∧ Read count cursor value after) ∨
      (∃ error, cursor.readBits count = .error error) ∧ cursor.unread.length < count := by
  unfold readBits
  cases hRest : cursor.rest with
  | nil =>
    refine Or.inr ⟨⟨_, rfl⟩, ?_⟩
    rw [unread, hRest, Bytes.bits, List.flatMap_nil, List.drop_nil, List.length_nil]
    exact hPos
  | cons byte rest =>
    dsimp only
    by_cases hWithin : count < cursor.bitsLeft
    · rw [if_pos hWithin]
      exact Or.inl ⟨_, _, rfl, hRest ▸ read_within h hPos hRest hWithin⟩
    · rw [if_neg hWithin]
      by_cases hWhole : count = cursor.bitsLeft
      · rw [if_pos hWhole, hWhole]
        exact Or.inl ⟨_, _, rfl, read_whole h hRest⟩
      · rw [if_neg hWhole]
        cases rest with
        | nil =>
          refine Or.inr ⟨⟨_, rfl⟩, ?_⟩
          rw [unread_cons h hRest, Bytes.bits, List.flatMap_nil, List.append_nil,
            length_numberBits]
          omega
        | cons following rest =>
          exact Or.inl ⟨_, _, rfl, read_straddling h (by omega) hMax hRest⟩

theorem Read.length_unread {count : Nat} {before after : BitCursor} {value : UInt8}
    (h : Read count before value after) :
    before.unread.length = count + after.unread.length := by
  rw [h.unread_eq, List.length_append, length_numberBits]

end BitCursor

end ChunkFilters
