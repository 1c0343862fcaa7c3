import ChunkFilters.Proofs.Bits.Reading

/-!
# Positions in a byte string

A cursor that has been moved by reads alone is at some bit of its byte string, and that bit is all
there is to it: `ofPosition` is the cursor at a given bit. A read of `count` bits moves it by
`count`, or fails at the end of the string and leaves it there.

* `unread_ofPosition`: what is unread are the bits from the position on;
* `readBits_ofPosition`, `readBits_ofPosition_end`: one read, with enough bits or too few;
* `error_of_readBits`: where a read that fails leaves the cursor;
* `reachable_iff`: the cursors that reads can reach are those at the bits of the string.
-/

namespace ChunkFilters

namespace Bytes

theorem bits_drop (bytes : Bytes) (count : Nat) :
    bits (bytes.drop count) = (bits bytes).drop (8 * count) := by
  induction bytes generalizing count with
  | nil => simp [bits]
  | cons byte rest ih =>
    cases count with
    | zero => rfl
    | succ count =>
      have hCount : 8 * (count + 1) = (byteBits byte).length + 8 * count := by
        rw [length_byteBits]
        omega
      rw [List.drop_succ_cons, ih, bits, bits, List.flatMap_cons, hCount, ← List.drop_drop,
        List.drop_left]

end Bytes

namespace BitCursor

/-- The cursor at the given bit of a byte string. -/
def ofPosition (input : Bytes) (position : Nat) : BitCursor :=
  ⟨position / 8, 8 - position % 8, input.drop (position / 8)⟩

theorem ofPosition_zero (input : Bytes) : ofPosition input 0 = start input := rfl

theorem position_ofPosition (input : Bytes) (position : Nat) :
    (ofPosition input position).position = position := by
  simp only [BitCursor.position, ofPosition]
  omega

theorem wellFormed_ofPosition (input : Bytes) (position : Nat) :
    (ofPosition input position).WellFormed := by
  simp only [WellFormed, ofPosition]
  omega

theorem unread_ofPosition (input : Bytes) (position : Nat) :
    (ofPosition input position).unread = (Bytes.bits input).drop position := by
  have hLeft : 8 - (8 - position % 8) = position % 8 := by omega
  have hSum : 8 * (position / 8) + position % 8 = position := Nat.div_add_mod position 8
  rw [unread, ofPosition, hLeft, Bytes.bits_drop, List.drop_drop, hSum]

theorem length_unread_ofPosition (input : Bytes) (position : Nat) :
    (ofPosition input position).unread.length = 8 * input.length - position := by
  rw [unread_ofPosition, List.length_drop, Bytes.length_bits]

/-- What a read that goes past the end of a byte string fails with: its cursor is at the end, and
no byte has been begun. -/
def exhaustedAt (input : Bytes) : Exhausted := ⟨input.length, ofPosition input (8 * input.length)⟩

theorem ofPosition_end (input : Bytes) :
    ofPosition input (8 * input.length) = ⟨input.length, 8, []⟩ := by
  have hDiv : 8 * input.length / 8 = input.length := by omega
  have hMod : 8 * input.length % 8 = 0 := by omega
  rw [ofPosition, hDiv, hMod, List.drop_length]

/-! ## One read -/

theorem drop_succ_of_drop {input rest : Bytes} {index : Nat} {byte : UInt8}
    (h : input.drop index = byte :: rest) : input.drop (index + 1) = rest := by
  rw [← List.drop_drop, h]
  rfl

theorem lt_length_of_drop {input rest : Bytes} {index : Nat} {byte : UInt8}
    (h : input.drop index = byte :: rest) : index < input.length := by
  have hLength := congrArg List.length h
  rw [List.length_drop, List.length_cons] at hLength
  omega

/-- A read moves the cursor by the bits that it takes. -/
theorem eq_ofPosition_of_readBits {input : Bytes} {position count : Nat} (hMax : count ≤ 8)
    {value : UInt8} {next : BitCursor}
    (h : (ofPosition input position).readBits count = .ok (value, next)) :
    next = ofPosition input (position + count) := by
  cases hRest : input.drop (position / 8) with
  | nil =>
    rw [ofPosition, hRest, readBits_end] at h
    cases h
  | cons byte rest =>
    have hNext := drop_succ_of_drop hRest
    simp only [readBits, ofPosition, hRest, nextByte] at h
    by_cases hWithin : count < 8 - position % 8
    · rw [if_pos hWithin] at h
      have hDiv : (position + count) / 8 = position / 8 := by omega
      have hMod : 8 - (position + count) % 8 = 8 - position % 8 - count := by omega
      rw [ofPosition, hDiv, hMod, hRest]
      exact (Prod.mk.inj (Except.ok.inj h)).2.symm
    · rw [if_neg hWithin] at h
      have hDiv : (position + count) / 8 = position / 8 + 1 := by omega
      by_cases hWhole : count = 8 - position % 8
      · rw [if_pos hWhole] at h
        have hMod : 8 - (position + count) % 8 = 8 := by omega
        rw [ofPosition, hDiv, hMod, hNext]
        exact (Prod.mk.inj (Except.ok.inj h)).2.symm
      · rw [if_neg hWhole] at h
        have hMod : 8 - (position + count) % 8 = 8 - (count - (8 - position % 8)) := by omega
        cases rest with
        | nil => cases h
        | cons following rest =>
          rw [ofPosition, hDiv, hMod, hNext]
          exact (Prod.mk.inj (Except.ok.inj h)).2.symm

/-- A read that fails leaves the cursor at the end of the string: it was there before, or has got
there by the first of its two steps. -/
theorem error_of_readBits {input : Bytes} {position count : Nat}
    (hPosition : position ≤ 8 * input.length) {error : Exhausted}
    (h : (ofPosition input position).readBits count = .error error) :
    error = exhaustedAt input := by
  cases hRest : input.drop (position / 8) with
  | nil =>
    have hLe := List.drop_eq_nil_iff.mp hRest
    have hEnd : position / 8 = input.length := by omega
    have hLeft : 8 - position % 8 = 8 := by omega
    rw [ofPosition, hRest, readBits_end, hEnd, hLeft, ← ofPosition_end] at h
    exact (Except.error.inj h).symm
  | cons byte rest =>
    have hLt := lt_length_of_drop hRest
    have hNext := drop_succ_of_drop hRest
    simp only [readBits, ofPosition, hRest, nextByte] at h
    split at h
    · cases h
    · split at h
      · cases h
      · cases rest with
        | nil =>
          have hLe := List.drop_eq_nil_iff.mp hNext
          have hEnd : position / 8 + 1 = input.length := by omega
          rw [hEnd, ← ofPosition_end] at h
          exact (Except.error.inj h).symm
        | cons following rest => cases h

section
variable {input : Bytes} {position count : Nat} (hPos : 0 < count) (hMax : count ≤ 8)
include hPos hMax

theorem readBits_ofPosition (hEnough : position + count ≤ 8 * input.length) :
    ∃ value, (ofPosition input position).readBits count =
        .ok (value, ofPosition input (position + count)) ∧
      Read count (ofPosition input position) value (ofPosition input (position + count)) := by
  rcases readBits_cases (wellFormed_ofPosition input position) hPos hMax with
    ⟨value, next, hOk, hRead⟩ | ⟨-, hShort⟩
  · have hNext := eq_ofPosition_of_readBits hMax hOk
    exact ⟨value, hNext ▸ hOk, hNext ▸ hRead⟩
  · rw [length_unread_ofPosition] at hShort
    omega

theorem readBits_ofPosition_end (hPosition : position ≤ 8 * input.length)
    (hShort : 8 * input.length < position + count) :
    (ofPosition input position).readBits count = .error (exhaustedAt input) := by
  rcases readBits_cases (wellFormed_ofPosition input position) hPos hMax with
    ⟨value, next, -, hRead⟩ | ⟨⟨error, hError⟩, -⟩
  · have hLength := hRead.length_unread
    rw [length_unread_ofPosition] at hLength
    omega
  · rw [hError, error_of_readBits hPosition hError]

end

/-! ## Reachable cursors -/

/-- The cursor results from reads, of which the last ones may have failed. -/
inductive Reachable (input : Bytes) : BitCursor → Prop
  | start : Reachable input (.start input)
  | read {count : Nat} {cursor next : BitCursor} {value : UInt8} (hPos : 0 < count)
      (hMax : count ≤ 8) (hCursor : Reachable input cursor)
      (hRead : cursor.readBits count = .ok (value, next)) : Reachable input next
  | exhausted {count : Nat} {cursor : BitCursor} {error : Exhausted} (hPos : 0 < count)
      (hMax : count ≤ 8) (hCursor : Reachable input cursor)
      (hRead : cursor.readBits count = .error error) : Reachable input error.cursor

theorem reachable_ofPosition {input : Bytes} {position : Nat}
    (h : position ≤ 8 * input.length) : Reachable input (ofPosition input position) := by
  induction position with
  | zero => exact .start
  | succ position ih =>
    obtain ⟨value, hRead, -⟩ := readBits_ofPosition Nat.one_pos (by decide) h
    exact .read Nat.one_pos (by decide) (ih (Nat.le_of_succ_le h)) hRead

theorem reachable_iff {input : Bytes} {cursor : BitCursor} :
    Reachable input cursor ↔
      ∃ position ≤ 8 * input.length, cursor = ofPosition input position := by
  constructor
  · intro h
    induction h with
    | start => exact ⟨0, Nat.zero_le _, rfl⟩
    | @read count cursor next value hPos hMax _ hRead ih =>
      obtain ⟨position, hPosition, rfl⟩ := ih
      refine ⟨position + count, ?_, eq_ofPosition_of_readBits hMax hRead⟩
      apply Nat.le_of_not_lt
      intro hShort
      rw [readBits_ofPosition_end hPos hMax hPosition hShort] at hRead
      cases hRead
    | exhausted hPos hMax _ hRead ih =>
      obtain ⟨position, hPosition, rfl⟩ := ih
      rw [error_of_readBits hPosition hRead]
      exact ⟨8 * input.length, Nat.le_refl _, rfl⟩
  · rintro ⟨position, hPosition, rfl⟩
    exact reachable_ofPosition hPosition

end BitCursor

end ChunkFilters
