import ChunkFilters.Deflate

/-!
# Streams that expand

`Expands memory decoder stored bytes` says that the filter expands `stored` to `bytes`, whatever the
size of the buffer that it starts with, as long as a buffer of that size can be reserved.

* `allows_of_inflate`: the buffer that an expansion comes in is one that could be reserved, and has
  not grown since.
-/

namespace ChunkFilters

/-- A last block ends the stream. -/
theorem Zlib.readBlocks_of_last {stream body rest : BitStream} {header : Nat}
    {output expanded : Array UInt8} (hHeader : stream.readBits 3 = .ok (header, body))
    (hBody : readBody (header / 2) body output = (expanded, .ok rest))
    (hLast : header % 2 = 1) : readBlocks stream output = (expanded, .ok rest) := by
  rw [readBlocks]
  split
  · next hFault =>
    rw [hHeader] at hFault
    cases hFault
  · next hFound =>
    rw [hHeader] at hFound
    cases hFound
    split
    · next hFault =>
      rw [hBody] at hFault
      cases hFault
    · next hFound =>
      rw [hBody] at hFound
      cases hFound
      rw [if_pos hLast]

namespace Deflate

/-- The filter expands `stored` to `bytes`, from any buffer that can be reserved. -/
def Expands (memory : Memory) (decoder : Zlib.StreamDecoder) (stored bytes : Bytes) : Prop :=
  ∀ sizeHint, memory.allows (max sizeHint 1) = true →
    (inflate memory decoder stored sizeHint).map Buffer.bytes = .ok bytes

section
variable {memory : Memory} {decoder : Zlib.StreamDecoder} {input : Bytes} {state : decoder.State}
  {filling : Filling memory} {buffer : Buffer}

theorem allows_of_turn (h : turn decoder input state filling = .stop (.ok buffer)) :
    memory.allows buffer.capacity = true ∧ 0 < buffer.capacity := by
  have hCases := turn_cases decoder input state filling
  rw [h] at hCases
  cases hCases with
  | finished hStatus =>
    rw [Buffer.capacity_append (decoder.length_le state _ _)]
    exact ⟨filling.allows_capacity, Nat.lt_of_lt_of_le filling.spare_pos (Nat.le_add_left _ _)⟩

theorem allows_of_collect (h : collect decoder input state filling = .ok buffer) :
    memory.allows buffer.capacity = true ∧ 0 < buffer.capacity := by
  fun_induction collect decoder input state filling with
  | case1 state filling result hTurn =>
    subst h
    exact allows_of_turn hTurn
  | case2 state filling next more hTurn hLess ih => exact ih h

theorem allows_of_inflate {sizeHint : Nat}
    (h : inflate memory decoder input sizeHint = .ok buffer) :
    memory.allows buffer.capacity = true ∧ 0 < buffer.capacity := by
  unfold inflate at h
  cases hNew : Filling.new memory sizeHint with
  | error error =>
    rw [hNew] at h
    cases h
  | ok filling =>
    rw [hNew] at h
    exact allows_of_collect h

end

theorem Expands.exists_buffer {memory : Memory} {decoder : Zlib.StreamDecoder}
    {stored bytes : Bytes} (h : Expands memory decoder stored bytes) {sizeHint : Nat}
    (hHint : memory.allows (max sizeHint 1) = true) :
    ∃ buffer : Buffer, inflate memory decoder stored sizeHint = .ok buffer ∧
      buffer.bytes = bytes ∧ memory.allows (max buffer.capacity 1) = true := by
  have hBytes := h sizeHint hHint
  cases hInflate : inflate memory decoder stored sizeHint with
  | error error =>
    rw [hInflate] at hBytes
    cases hBytes
  | ok buffer =>
    rw [hInflate] at hBytes
    obtain ⟨hAllows, hPositive⟩ := allows_of_inflate hInflate
    refine ⟨buffer, rfl, Except.ok.inj hBytes, ?_⟩
    rwa [Nat.max_eq_left hPositive]

end Deflate

end ChunkFilters
