import ChunkFilters.Filter
import ChunkFilters.Zlib.Delivery

/-!
# Compressed chunks

A compressed chunk is a stream that expands to the bytes of the chunk. How much that will be is not
stored with it. The capacity of the buffer that holds the chunk is the first guess, and the output
is collected in a buffer of that size, which is doubled whenever it is full before the end of the
stream.

Any decoder of the stream will do (`Zlib.StreamDecoder`). `turn` is one call of it and what follows
from the call; `collect` makes calls until one of them is the last. That there is a last one needs
no promise of the decoder. A turn that is not the last has delivered bytes or taken input, and both
have a bound: no buffer is larger than any memory, and a position in the input fits into 64 bits.
-/

namespace ChunkFilters.Deflate

open Zlib (StreamDecoder)

def name : String := "deflate"

/-! ## Buffers that are being filled -/

/-- A buffer that could be reserved and is not full. -/
structure Filling (memory : Memory) where
  buffer : Buffer
  spare_pos : 0 < buffer.spare
  allows_capacity : memory.allows buffer.capacity = true

namespace Filling

variable {memory : Memory}

/-- An empty buffer of the given capacity, but at least one byte. -/
def new (memory : Memory) (capacity : Nat) : Except CodecError (Filling memory) :=
  if h : memory.allows (max capacity 1) = true then
    .ok {
      buffer := ⟨[], max capacity 1⟩
      spare_pos := Nat.lt_of_lt_of_le Nat.one_pos (Nat.le_max_right capacity 1)
      allows_capacity := by rwa [Buffer.capacity, List.length_nil, Nat.zero_add] }
  else .error (.allocation (max capacity 1))

/-- A full buffer with as much room again behind its bytes. -/
def doubled (memory : Memory) (full : Buffer) (hPos : 0 < full.bytes.length) :
    Except CodecError (Filling memory) :=
  let buffer : Buffer := ⟨full.bytes, full.bytes.length⟩
  if h : memory.allows buffer.capacity = true then .ok ⟨buffer, hPos, h⟩
  else .error (.allocation buffer.capacity)

theorem new_of_allows {capacity : Nat} (h : memory.allows (max capacity 1) = true) :
    ∃ filling, new memory capacity = .ok filling ∧ filling.buffer = ⟨[], max capacity 1⟩ :=
  ⟨_, dif_pos h, rfl⟩

theorem bytes_of_doubled {full : Buffer} {hPos : 0 < full.bytes.length} {filling : Filling memory}
    (h : doubled memory full hPos = .ok filling) : filling.buffer.bytes = full.bytes := by
  unfold doubled at h
  dsimp only at h
  split at h
  · cases h
    rfl
  · cases h

theorem doubled_eq_error {full : Buffer} {hPos : 0 < full.bytes.length} {error : CodecError}
    (h : doubled memory full hPos = .error error) :
    error = .allocation (2 * full.bytes.length) ∧
      memory.allows (2 * full.bytes.length) = false := by
  unfold doubled at h
  dsimp only at h
  split at h
  · cases h
  · next hRefused =>
    cases h
    rw [Buffer.capacity, ← Nat.two_mul] at hRefused ⊢
    exact ⟨rfl, Bool.eq_false_iff.mpr hRefused⟩

theorem length_lt (filling : Filling memory) : filling.buffer.bytes.length < Memory.ceiling :=
  Nat.lt_of_le_of_lt filling.buffer.length_le_capacity (memory.lt_of_allows filling.allows_capacity)

theorem length_append_pos {filling : Filling memory} {more : Bytes}
    (h : (filling.buffer.append more).spare = 0) :
    0 < (filling.buffer.append more).bytes.length := by
  have hSpare := filling.spare_pos
  simp only [Buffer.append, List.length_append] at h ⊢
  omega

/-- The buffer with more bytes in it, if they leave some room. -/
def filledWith (filling : Filling memory) {more : Bytes}
    (hMore : more.length ≤ filling.buffer.spare)
    (hSpare : (filling.buffer.append more).spare ≠ 0) : Filling memory where
  buffer := filling.buffer.append more
  spare_pos := Nat.pos_of_ne_zero hSpare
  allows_capacity := by
    rw [Buffer.capacity_append hMore]
    exact filling.allows_capacity

end Filling

/-! ## Turns -/

/-- What follows from a call: the end, or another call. -/
inductive Turn (memory : Memory) (σ : Type) where
  | stop (result : Except CodecError Buffer)
  | again (state : σ) (filling : Filling memory)

def premature (consumed length : Nat) : CodecError :=
  .inflate s!"premature end of the deflate stream after {consumed} of {length} bytes"

section

variable {memory : Memory} (decoder : StreamDecoder) (input : Bytes) (state : decoder.State)
  (filling : Filling memory)

/-- What follows from a call that is not the last of the stream. A full buffer is doubled. With room
left, there has to have been some progress. -/
def proceed (delivery : Zlib.Delivery decoder.State)
    (hFits : delivery.bytes.length ≤ filling.buffer.spare) : Turn memory decoder.State :=
  let filled := filling.buffer.append delivery.bytes
  if hFull : filled.spare = 0 then
    match Filling.doubled memory filled (Filling.length_append_pos hFull) with
    | .ok doubled => .again delivery.next doubled
    | .error error => .stop (.error error)
  else if delivery.status = .blocked ∨
      (delivery.bytes = [] ∧ decoder.consumed delivery.next = decoder.consumed state) then
    .stop (.error (premature (decoder.consumed delivery.next) input.length))
  else .again delivery.next (filling.filledWith hFits hFull)

/-- One call, with the input from where the decoder has got to. -/
def turn : Turn memory decoder.State :=
  let consumed := decoder.consumed state
  if consumed < UInt64.size then
    let room := filling.buffer.spare
    let delivery := decoder.call state (input.drop consumed) room
    match delivery.status with
    | .finished => .stop (.ok (filling.buffer.append delivery.bytes))
    | .malformed reason => .stop (.error (.inflate reason))
    | .running | .blocked =>
      proceed decoder input state filling delivery (decoder.length_le state _ room)
  else .stop (.error (.inflate "input position overflow"))

/-- All that can come of a turn, by what the call has delivered. -/
inductive Turns (delivery : Zlib.Delivery decoder.State) : Turn memory decoder.State → Prop where
  | overflow (hPosition : UInt64.size ≤ decoder.consumed state) :
      Turns delivery (.stop (.error (.inflate "input position overflow")))
  | finished (hStatus : delivery.status = .finished) :
      Turns delivery (.stop (.ok (filling.buffer.append delivery.bytes)))
  | malformed {reason : String} (hStatus : delivery.status = .malformed reason) :
      Turns delivery (.stop (.error (.inflate reason)))
  | refused {size : Nat} (hUnfinished : delivery.status.Unfinished)
      (hSize : size = 2 * (filling.buffer.bytes ++ delivery.bytes).length)
      (hMemory : memory.allows size = false) :
      Turns delivery (.stop (.error (.allocation size)))
  | premature (hUnfinished : delivery.status.Unfinished)
      (hShort : delivery.bytes.length ≠ filling.buffer.spare) :
      Turns delivery (.stop (.error (premature (decoder.consumed delivery.next) input.length)))
  /-- Before there is another turn, the call has delivered bytes or taken input. -/
  | again {more : Filling memory} (hPosition : decoder.consumed state < UInt64.size)
      (hUnfinished : delivery.status.Unfinished)
      (hBytes : more.buffer.bytes = filling.buffer.bytes ++ delivery.bytes)
      (hProgress : delivery.bytes ≠ [] ∨
        decoder.consumed delivery.next ≠ decoder.consumed state) :
      Turns delivery (.again delivery.next more)

theorem turns_proceed {delivery : Zlib.Delivery decoder.State}
    (hFits : delivery.bytes.length ≤ filling.buffer.spare)
    (hPosition : decoder.consumed state < UInt64.size)
    (hUnfinished : delivery.status.Unfinished) :
    Turns decoder input state filling delivery
      (proceed decoder input state filling delivery hFits) := by
  have hSpare := filling.spare_pos
  have hLeft : (filling.buffer.append delivery.bytes).spare =
      filling.buffer.spare - delivery.bytes.length := rfl
  unfold proceed
  dsimp only
  split
  · next hFull =>
    -- What fills the room is not nothing, because there was some.
    have hMore : delivery.bytes ≠ [] := by
      intro hNone
      rw [hLeft, hNone, List.length_nil] at hFull
      omega
    split
    · next doubled hDoubled =>
      exact .again hPosition hUnfinished (Filling.bytes_of_doubled hDoubled) (.inl hMore)
    · next error hRefused =>
      obtain ⟨rfl, hMemory⟩ := Filling.doubled_eq_error hRefused
      exact .refused hUnfinished rfl hMemory
  · next hRoom =>
    split
    · exact .premature hUnfinished (by omega)
    · next hProgress =>
      exact .again hPosition hUnfinished rfl
        (Decidable.not_and_iff_or_not.mp (not_or.mp hProgress).2)

theorem turn_cases :
    Turns decoder input state filling
      (decoder.call state (input.drop (decoder.consumed state)) filling.buffer.spare)
      (turn decoder input state filling) := by
  unfold turn
  dsimp only
  split
  · next hPosition =>
    split
    · next hStatus => exact .finished hStatus
    · next hStatus => exact .malformed hStatus
    · next hStatus => exact turns_proceed decoder input state filling _ hPosition (.inl hStatus)
    · next hStatus => exact turns_proceed decoder input state filling _ hPosition (.inr hStatus)
  · next hPosition => exact .overflow (Nat.le_of_not_lt hPosition)

end

/-- What can still be taken and what can still be delivered. -/
def remaining {memory : Memory} (decoder : StreamDecoder) (state : decoder.State)
    (filling : Filling memory) : Nat :=
  (UInt64.size - decoder.consumed state) + (Memory.ceiling - filling.buffer.bytes.length)

theorem remaining_lt_of_turn {memory : Memory} {decoder : StreamDecoder} {input : Bytes}
    {state next : decoder.State} {filling more : Filling memory}
    (h : turn decoder input state filling = .again next more) :
    remaining decoder next more < remaining decoder state filling := by
  have hCases := turn_cases decoder input state filling
  rw [h] at hCases
  cases hCases with
  | again hPosition _ hBytes hProgress =>
    have hTaken := decoder.le_consumed state (input.drop (decoder.consumed state))
      filling.buffer.spare
    have hLength := filling.length_lt
    unfold remaining
    rw [hBytes, List.length_append]
    rcases hProgress with hMore | hMoved
    · have hPositive := List.length_pos_iff.mpr hMore
      omega
    · omega

/-! ## The loop -/

/-- Goes on filling a buffer until the decoder has done what it can. -/
def collect {memory : Memory} (decoder : StreamDecoder) (input : Bytes) (state : decoder.State)
    (filling : Filling memory) : Except CodecError Buffer :=
  match h : turn decoder input state filling with
  | .stop result => result
  | .again next more =>
    have := remaining_lt_of_turn h
    collect decoder input next more
termination_by remaining decoder state filling

/-- The expansion of a chunk. -/
def inflate (memory : Memory) (decoder : StreamDecoder) (input : Bytes) (sizeHint : Nat) :
    Except CodecError Buffer := do
  collect decoder input decoder.start (← Filling.new memory sizeHint)

/-! ## The filter -/

/-- Expands the input; the compression level in the parameters plays no part. -/
def decode (memory : Memory) (decoder : StreamDecoder) (request : DecodeRequest) :
    Except CodecError Decoded := do
  return .fresh (← inflate memory decoder request.input request.sizeHint)

def filter (memory : Memory) (decoder : StreamDecoder) : Filter where
  id := .deflate
  name
  decode := Filter.decodeOnly name (decode memory decoder)

end ChunkFilters.Deflate
