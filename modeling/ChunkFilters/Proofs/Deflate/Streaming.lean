import ChunkFilters.Proofs.Deflate.Expansion
import Mathlib.Data.List.Infix

/-!
# Any decoder, any size to start with

What a stream expands to does not depend on the buffer that it is expanded into. Of the decoder
nothing is assumed but that it is one of streams (`Streaming`). That is a matter of the decoder and
the input alone: whenever each call is given what is left of the input and some room, what has been
delivered is the front of one and the same output, the end and what is wrong are reported where they
are, and a call stops short of its room only if there is no more input. Nothing is said of where
calls stop in the input, nor of whether the end is reported with the last bytes or after them.

The loop makes finitely many calls, because each of them but two fills the buffer: one may only find
out that the input has ended, and the last one ends the loop. `Ends` counts the calls.

* `streaming_expander`: the decoder that comes with the library is one of these;
* `afterTurn_streaming`: what one turn of the loop does;
* `exists_ends`: what the whole loop does, and in how many calls;
* `inflate_streaming`: hence the expansion does not depend on the size to start with;
* `expands_of_decode`: a complete stream expands to its output.
-/

namespace ChunkFilters

namespace Zlib

/-! ## Decoders of streams -/

/-- How a stream ends. -/
inductive Ending where
  | complete
  | malformed (reason : String)
  /-- The input ends before the stream does. -/
  | exhausted
deriving DecidableEq, Repr

/-- What a stream expands to, and how it ends. -/
structure Course where
  output : Bytes
  ending : Ending
deriving DecidableEq, Repr

namespace StreamDecoder

variable (decoder : StreamDecoder) (input : Bytes)

/-- A call that is given what is left of the input. -/
def callOn (state : decoder.State) (room : Nat) : Delivery decoder.State :=
  decoder.call state (input.drop (decoder.consumed state)) room

/-- The decoder can be in that state after it has delivered these bytes: every call so far was given
what was left of the input, with some room, and none was the last. -/
inductive Reaches : decoder.State → Bytes → Prop where
  | start : Reaches decoder.start []
  | call {state : decoder.State} {delivered : Bytes} {room : Nat}
      (hReaches : Reaches state delivered)
      (hRoom : 0 < room) (hUnfinished : (decoder.callOn input state room).status.Unfinished) :
      Reaches (decoder.callOn input state room).next
        (delivered ++ (decoder.callOn input state room).bytes)

/-- What is assumed of a decoder of streams, for an input that takes a given course. -/
structure Streaming (course : Course) : Prop where
  consumed_start : decoder.consumed decoder.start = 0
  /-- The end is reported where it is. -/
  of_finished : ∀ {state delivered room}, decoder.Reaches input state delivered → 0 < room →
    (decoder.callOn input state room).status = .finished →
      course.ending = .complete ∧
        delivered ++ (decoder.callOn input state room).bytes = course.output
  of_malformed : ∀ {state delivered room reason}, decoder.Reaches input state delivered →
    0 < room → (decoder.callOn input state room).status = .malformed reason →
      course.ending = .malformed reason
  /-- No more is taken than there is, and what is delivered comes next in the output. -/
  consumed_le : ∀ {state delivered room}, decoder.Reaches input state delivered → 0 < room →
    decoder.consumed (decoder.callOn input state room).next ≤ input.length
  delivered_prefix : ∀ {state delivered room}, decoder.Reaches input state delivered → 0 < room →
    (decoder.callOn input state room).status.Unfinished →
      delivered ++ (decoder.callOn input state room).bytes <+: course.output
  /-- A call goes as far as it can: until there is no room, or no input that could tell more. -/
  of_unfinished : ∀ {state delivered room}, decoder.Reaches input state delivered → 0 < room →
    (decoder.callOn input state room).status.Unfinished →
      (decoder.callOn input state room).bytes.length = room ∨
        course.ending = .exhausted ∧
          delivered ++ (decoder.callOn input state room).bytes = course.output ∧
          decoder.consumed (decoder.callOn input state room).next = input.length

section
variable {decoder input} {course : Course} {state : decoder.State} {delivered : Bytes}

theorem Reaches.consumed_le (h : decoder.Reaches input state delivered)
    (hStreaming : decoder.Streaming input course) : decoder.consumed state ≤ input.length := by
  cases h with
  | start =>
    rw [hStreaming.consumed_start]
    exact Nat.zero_le _
  | call hReaches hRoom hUnfinished => exact hStreaming.consumed_le hReaches hRoom

theorem Reaches.length_le (h : decoder.Reaches input state delivered)
    (hStreaming : decoder.Streaming input course) :
    delivered.length ≤ course.output.length := by
  cases h with
  | start => exact Nat.zero_le _
  | call hReaches hRoom hUnfinished =>
    exact (hStreaming.delivered_prefix hReaches hRoom hUnfinished).length_le

end

end StreamDecoder

/-! ## The decoder that comes with the library -/

/-- The course that a stream takes whose expansion is known beforehand. -/
def Expansion.course (expansion : Expansion) : Course where
  output := expansion.output
  ending :=
    match expansion.fault with
    | none => .complete
    | some .malformed => .malformed "deflate decompression error"
    | some .exhausted => .exhausted

namespace Undelivered

theorem ending_of_endStatus {left : Undelivered} {input : Bytes} :
    (left.endStatus input = .finished → left.fault = none) ∧
      (∀ reason, left.endStatus input = .malformed reason →
        left.fault = some .malformed ∧ reason = "deflate decompression error") ∧
      ((left.endStatus input).Unfinished → left.fault = some .exhausted) := by
  obtain ⟨bytes, fault, consumed⟩ := left
  match fault with
  | none => simp [endStatus, CallStatus.Unfinished]
  | some .malformed => simp +contextual [endStatus, CallStatus.Unfinished]
  | some .exhausted =>
    unfold endStatus
    dsimp only
    split <;> simp

/-- All that is left is delivered, or what there is room for. -/
theorem deliver_cases (left : Undelivered) (input : Bytes) (room : Nat) :
    left.bytes.length ≤ room ∧
        left.deliver input room = ⟨left.bytes, left.endStatus input,
          some { left with bytes := [], consumed := left.consumed + input.length }⟩ ∨
      room < left.bytes.length ∧
        left.deliver input room = ⟨left.bytes.take room, .running,
          some { left with bytes := left.bytes.drop room }⟩ := by
  unfold deliver
  split
  · next hFits => exact .inl ⟨hFits, rfl⟩
  · next hLong => exact .inr ⟨Nat.lt_of_not_le hLong, rfl⟩

end Undelivered

/-- What was delivered and what is left make up the output of the stream. -/
structure Between (input : Bytes) (state : Option Undelivered) (delivered : Bytes)
    (left : Undelivered) : Prop where
  resume_eq : Undelivered.resume (input.drop (taken state)) state = left
  output_eq : delivered ++ left.bytes = (decode input).output
  fault_eq : left.fault = (decode input).fault
  consumed_eq : left.consumed = taken state
  consumed_le : left.consumed ≤ input.length

section
variable {input : Bytes} {state : expander.State} {delivered : Bytes} {left : Undelivered}

theorem Between.callOn_cases (h : Between input state delivered left) (room : Nat) :
    left.bytes.length ≤ room ∧
        expander.callOn input state room = ⟨left.bytes,
          left.endStatus (input.drop left.consumed),
          some { left with bytes := [], consumed := input.length }⟩ ∨
      room < left.bytes.length ∧
        expander.callOn input state room = ⟨left.bytes.take room, .running,
          some { left with bytes := left.bytes.drop room }⟩ := by
  have hCall : expander.callOn input state room =
      left.deliver (input.drop left.consumed) room := by
    rw [h.consumed_eq, ← h.resume_eq]
    rfl
  have hAll : left.consumed + (input.drop left.consumed).length = input.length := by
    rw [List.length_drop]
    exact Nat.add_sub_cancel' h.consumed_le
  rw [hCall]
  rcases left.deliver_cases (input.drop left.consumed) room with ⟨hFits, hDeliver⟩ | hDeliver
  · rw [hAll] at hDeliver
    exact .inl ⟨hFits, hDeliver⟩
  · exact .inr hDeliver

theorem exists_between_of_reaches (h : expander.Reaches input state delivered) :
    ∃ left, Between input state delivered left := by
  induction h with
  | start =>
    refine ⟨⟨(decode input).output, (decode input).fault, 0⟩, ?_, ?_, rfl, rfl, Nat.zero_le _⟩
    · exact congrArg (fun rest : Bytes => Undelivered.mk (decode rest).output (decode rest).fault 0)
        List.drop_zero
    · exact List.nil_append _
  | @call state delivered room hReaches hRoom hUnfinished ih =>
    obtain ⟨left, hLeft⟩ := ih
    rcases hLeft.callOn_cases room with ⟨hFits, hCall⟩ | ⟨hLong, hCall⟩
    · rw [hCall]
      refine ⟨{ left with bytes := [], consumed := input.length }, rfl, ?_, hLeft.fault_eq, rfl,
        Nat.le_refl _⟩
      rw [List.append_nil]
      exact hLeft.output_eq
    · rw [hCall]
      refine ⟨{ left with bytes := left.bytes.drop room }, rfl, ?_, hLeft.fault_eq, rfl,
        hLeft.consumed_le⟩
      rw [List.append_assoc, List.take_append_drop]
      exact hLeft.output_eq

end

/-- The decoder that knows the whole expansion is a decoder of streams. -/
theorem streaming_expander (input : Bytes) :
    expander.Streaming input (decode input).course where
  consumed_start := rfl
  of_finished := by
    intro state delivered room hReaches hRoom hStatus
    obtain ⟨left, hLeft⟩ := exists_between_of_reaches hReaches
    rcases hLeft.callOn_cases room with ⟨-, hCall⟩ | ⟨-, hCall⟩
    · rw [hCall] at hStatus ⊢
      refine ⟨?_, hLeft.output_eq⟩
      rw [Expansion.course, ← hLeft.fault_eq, Undelivered.ending_of_endStatus.1 hStatus]
    · rw [hCall] at hStatus
      cases hStatus
  of_malformed := by
    intro state delivered room reason hReaches hRoom hStatus
    obtain ⟨left, hLeft⟩ := exists_between_of_reaches hReaches
    rcases hLeft.callOn_cases room with ⟨-, hCall⟩ | ⟨-, hCall⟩
    · rw [hCall] at hStatus
      obtain ⟨hFault, rfl⟩ := Undelivered.ending_of_endStatus.2.1 reason hStatus
      rw [Expansion.course, ← hLeft.fault_eq, hFault]
    · rw [hCall] at hStatus
      cases hStatus
  consumed_le := by
    intro state delivered room hReaches hRoom
    obtain ⟨left, hLeft⟩ := exists_between_of_reaches hReaches
    rcases hLeft.callOn_cases room with ⟨-, hCall⟩ | ⟨-, hCall⟩
    · rw [hCall]
      exact Nat.le_refl _
    · rw [hCall]
      exact hLeft.consumed_le
  delivered_prefix := by
    intro state delivered room hReaches hRoom hUnfinished
    obtain ⟨left, hLeft⟩ := exists_between_of_reaches (hReaches.call hRoom hUnfinished)
    exact ⟨left.bytes, hLeft.output_eq⟩
  of_unfinished := by
    intro state delivered room hReaches hRoom hUnfinished
    obtain ⟨left, hLeft⟩ := exists_between_of_reaches hReaches
    rcases hLeft.callOn_cases room with ⟨-, hCall⟩ | ⟨hLong, hCall⟩
    · rw [hCall] at hUnfinished ⊢
      refine .inr ⟨?_, hLeft.output_eq, rfl⟩
      rw [Expansion.course, ← hLeft.fault_eq, Undelivered.ending_of_endStatus.2.2 hUnfinished]
    · rw [hCall]
      exact .inl (List.length_take_of_le (Nat.le_of_lt hLong))

end Zlib

namespace Deflate

open Zlib (StreamDecoder Course)

/-! ## One turn -/

/-- What the filter makes of a stream. An input that is cut short has been taken to its end. -/
def reported (course : Course) (inputLength : Nat) : Except CodecError Bytes :=
  match course.ending with
  | .complete => .ok course.output
  | .malformed reason => .error (.inflate reason)
  | .exhausted =>
    .error (.inflate
      s!"premature end of the deflate stream after {inputLength} of {inputLength} bytes")

/-- A bound for the calls that can still follow, but one: one for each byte that has not been
delivered, and one that finds out that the input has ended. -/
def outstanding (decoder : StreamDecoder) (input : Bytes) (course : Course)
    (state : decoder.State) (delivered : Bytes) : Nat :=
  (course.output.length - delivered.length) + min 1 (input.length - decoder.consumed state)

/-- What a turn of the loop can do, where the decoder is one of streams. -/
inductive AfterTurn {memory : Memory} (decoder : StreamDecoder) (input : Bytes) (course : Course)
    (state : decoder.State) (delivered : Bytes) : Turn memory decoder.State → Prop where
  /-- It ends as the stream does. -/
  | ended {result : Except CodecError Buffer}
      (hResult : result.map Buffer.bytes = reported course input.length) :
      AfterTurn decoder input course state delivered (.stop result)
  | refused {size : Nat} (hMemory : memory.allows size = false)
      (hSize : size ≤ 2 * course.output.length) :
      AfterTurn decoder input course state delivered (.stop (.error (.allocation size)))
  | again {next : decoder.State} {more : Filling memory}
      (hReaches : decoder.Reaches input next more.buffer.bytes)
      (hLess : outstanding decoder input course next more.buffer.bytes <
        outstanding decoder input course state delivered) :
      AfterTurn decoder input course state delivered (.again next more)

section
variable {memory : Memory} {decoder : StreamDecoder} {input : Bytes} {course : Course}
  (hStreaming : decoder.Streaming input course)
include hStreaming

/-- A call that leads to another one brings the end of the loop nearer. -/
theorem outstanding_lt {state : decoder.State} {delivered : Bytes} {room : Nat}
    (hReaches : decoder.Reaches input state delivered) (hRoom : 0 < room)
    (hUnfinished : (decoder.callOn input state room).status.Unfinished)
    (hProgress : (decoder.callOn input state room).bytes ≠ [] ∨
      decoder.consumed (decoder.callOn input state room).next ≠ decoder.consumed state) :
    outstanding decoder input course (decoder.callOn input state room).next
        (delivered ++ (decoder.callOn input state room).bytes) <
      outstanding decoder input course state delivered := by
  have hTaken : decoder.consumed state ≤ decoder.consumed (decoder.callOn input state room).next :=
    decoder.le_consumed state _ room
  have hLength := (hReaches.call hRoom hUnfinished).length_le hStreaming
  rw [List.length_append] at hLength
  unfold outstanding
  rw [List.length_append]
  by_cases hMore : (decoder.callOn input state room).bytes = []
  · -- Nothing was delivered, so the call has found out that the input has ended.
    have hMoved := hProgress.resolve_left (not_not_intro hMore)
    have hNone := List.length_eq_zero_iff.mpr hMore
    rcases hStreaming.of_unfinished hReaches hRoom hUnfinished with hFull | ⟨-, -, hEnd⟩
    · omega
    · omega
  · have hPositive := List.length_pos_iff.mpr hMore
    omega

theorem afterTurn_streaming (hInput : input.length < UInt64.size) {state : decoder.State}
    {filling : Filling memory} (h : decoder.Reaches input state filling.buffer.bytes) :
    AfterTurn decoder input course state filling.buffer.bytes
      (turn decoder input state filling) := by
  have hRoom := filling.spare_pos
  have hTaken := h.consumed_le hStreaming
  have hCases := turn_cases decoder input state filling
  generalize turn decoder input state filling = result at hCases
  cases hCases with
  | overflow hPosition => omega
  | finished hStatus =>
    obtain ⟨hEnding, hOutput⟩ := hStreaming.of_finished h hRoom hStatus
    refine .ended ?_
    rw [reported, hEnding, ← hOutput]
    rfl
  | malformed hStatus =>
    refine .ended ?_
    rw [reported, hStreaming.of_malformed h hRoom hStatus]
    rfl
  | refused hUnfinished hSize hMemory =>
    refine .refused hMemory ?_
    rw [hSize]
    exact Nat.mul_le_mul_left 2 ((h.call hRoom hUnfinished).length_le hStreaming)
  | premature hUnfinished hShort =>
    obtain ⟨hEnding, -, hEnd⟩ :=
      (hStreaming.of_unfinished h hRoom hUnfinished).resolve_left hShort
    have hEnd : decoder.consumed (decoder.call state (input.drop (decoder.consumed state))
        filling.buffer.spare).next = input.length := hEnd
    refine .ended ?_
    rw [reported, hEnding, premature, hEnd]
    rfl
  | @again more hPosition hUnfinished hBytes hProgress =>
    have hNext := h.call hRoom hUnfinished
    have hLess := outstanding_lt hStreaming h hRoom hUnfinished hProgress
    rw [StreamDecoder.callOn, ← hBytes] at hNext hLess
    exact .again hNext hLess

end

/-! ## The whole loop -/

/-- The loop ends after that many calls, with that result. -/
inductive Ends {memory : Memory} (decoder : StreamDecoder) (input : Bytes) :
    Nat → decoder.State → Filling memory → Except CodecError Buffer → Prop where
  | stop {state : decoder.State} {filling : Filling memory} {result : Except CodecError Buffer}
      (h : turn decoder input state filling = .stop result) :
      Ends decoder input 1 state filling result
  | again {calls : Nat} {state next : decoder.State} {filling more : Filling memory}
      {result : Except CodecError Buffer} (h : turn decoder input state filling = .again next more)
      (rest : Ends decoder input calls next more result) :
      Ends decoder input (calls + 1) state filling result

theorem Ends.collect_eq {memory : Memory} {decoder : StreamDecoder} {input : Bytes} {calls : Nat}
    {state : decoder.State} {filling : Filling memory} {result : Except CodecError Buffer}
    (h : Ends decoder input calls state filling result) :
    collect decoder input state filling = result := by
  induction h with
  | stop hTurn =>
    rw [collect]
    split
    · next hSame =>
      rw [hTurn] at hSame
      exact (Turn.stop.inj hSame).symm
    · next hSame =>
      rw [hTurn] at hSame
      cases hSame
  | again hTurn rest ih =>
    rw [collect]
    split
    · next hSame =>
      rw [hTurn] at hSame
      cases hSame
    · next hSame =>
      rw [hTurn] at hSame
      cases hSame
      exact ih

section
variable {memory : Memory} {decoder : StreamDecoder} {input : Bytes} {course : Course}
  (hStreaming : decoder.Streaming input course) (hInput : input.length < UInt64.size)
include hStreaming hInput

/-- The induction is on the bound for the calls, which every turn lowers that is not the last. -/
theorem exists_ends {state : decoder.State} {filling : Filling memory}
    (h : decoder.Reaches input state filling.buffer.bytes) :
    ∃ calls ≤ outstanding decoder input course state filling.buffer.bytes + 1,
      ∃ result, Ends decoder input calls state filling result ∧
        (result.map Buffer.bytes = reported course input.length ∨
          ∃ size, memory.allows size = false ∧ size ≤ 2 * course.output.length ∧
            result = .error (.allocation size)) := by
  induction hBound : outstanding decoder input course state filling.buffer.bytes
      using Nat.strongRecOn generalizing state filling with
  | ind bound ih =>
    have hAfter := afterTurn_streaming hStreaming hInput h
    generalize hTurn : turn decoder input state filling = result at hAfter
    cases hAfter with
    | ended hResult => exact ⟨1, Nat.le_add_left 1 _, _, .stop hTurn, .inl hResult⟩
    | refused hMemory hSize =>
      exact ⟨1, Nat.le_add_left 1 _, _, .stop hTurn, .inr ⟨_, hMemory, hSize, rfl⟩⟩
    | again hReaches hLess =>
      rw [hBound] at hLess
      obtain ⟨calls, hCalls, result, hEnds, hResult⟩ := ih _ hLess hReaches rfl
      exact ⟨calls + 1, by omega, result, .again hTurn hEnds, hResult⟩

theorem inflate_ends {sizeHint : Nat} (hHint : memory.allows (max sizeHint 1) = true) :
    ∃ filling, Filling.new memory sizeHint = .ok filling ∧
      filling.buffer = ⟨[], max sizeHint 1⟩ ∧
      ∃ calls ≤ course.output.length + 2, ∃ result,
        Ends decoder input calls decoder.start filling result ∧
        inflate memory decoder input sizeHint = result ∧
        (result.map Buffer.bytes = reported course input.length ∨
          ∃ size, memory.allows size = false ∧ size ≤ 2 * course.output.length ∧
            result = .error (.allocation size)) := by
  obtain ⟨filling, hNew, hBuffer⟩ := Filling.new_of_allows hHint
  have hStart : decoder.Reaches input decoder.start filling.buffer.bytes := by
    rw [hBuffer]
    exact .start
  obtain ⟨calls, hCalls, result, hEnds, hResult⟩ :=
    exists_ends hStreaming hInput hStart
  refine ⟨filling, hNew, hBuffer, calls, ?_, result, hEnds, ?_, hResult⟩
  · unfold outstanding at hCalls
    omega
  · rw [inflate, hNew]
    exact hEnds.collect_eq

/-! ## Main statement -/

/-- Whatever decoder of streams the filter has, and whatever size it starts with, it ends after
finitely many calls, with what the stream makes of it, unless a buffer of at most twice the size of
the output cannot be reserved. -/
theorem inflate_streaming (memory : Memory) (sizeHint : Nat)
    (hHint : memory.allows (max sizeHint 1) = true) :
    (∃ filling, Filling.new memory sizeHint = .ok filling ∧
      ∃ calls ≤ course.output.length + 2,
        Ends decoder input calls decoder.start filling (inflate memory decoder input sizeHint)) ∧
    ((inflate memory decoder input sizeHint).map Buffer.bytes = reported course input.length ∨
      ∃ size, memory.allows size = false ∧ size ≤ 2 * course.output.length ∧
        inflate memory decoder input sizeHint = .error (.allocation size)) := by
  obtain ⟨filling, hNew, -, calls, hCalls, result, hEnds, rfl, hResult⟩ :=
    inflate_ends hStreaming hInput hHint
  exact ⟨⟨filling, hNew, calls, hCalls, hEnds⟩, hResult⟩

end

/-- A stream of one stored block, with a byte after it, into a buffer of one byte; and a stream that
is cut short, into none. -/
theorem inflate_streaming_four_bytes :
    let stream : Bytes := [0x78, 0x01, 0x01, 4, 0, 0xfb, 0xff, 1, 3, 2, 4, 0, 25, 0, 11, 0xff]
    let course : Zlib.Course := ⟨[1, 3, 2, 4], .complete⟩
    let short : Zlib.Course := ⟨[], .exhausted⟩
    Zlib.expander.Streaming stream course ∧ Zlib.expander.Streaming [0x78] short ∧
    (∃ filling, Filling.new .standard 1 = .ok filling ∧ ∃ calls ≤ 6,
      Ends Zlib.expander stream calls Zlib.expander.start filling
        (inflate .standard Zlib.expander stream 1)) ∧
    (inflate .standard Zlib.expander stream 1).map Buffer.bytes = .ok [1, 3, 2, 4] ∧
    (inflate .standard Zlib.expander [0x78] 0).map Buffer.bytes =
      .error (.inflate "premature end of the deflate stream after 1 of 1 bytes") := by
  intro stream course short
  have hHeader : Zlib.readHeader (.ofBytes stream) = .ok ⟨0, 0, stream.drop 2⟩ := rfl
  have hBlocks : Zlib.readBlocks ⟨0, 0, stream.drop 2⟩ #[] =
      (#[1, 3, 2, 4], .ok (.ofBytes [0, 25, 0, 11, 0xff])) :=
    Zlib.readBlocks_of_last (by rfl) (by rfl) (by rfl)
  have hDecode : Zlib.decode stream = ⟨[1, 3, 2, 4], none⟩ := by
    rw [Zlib.decode, hHeader]
    simp only [hBlocks]
    rfl
  have hStream : Zlib.expander.Streaming stream course := by
    have hStreaming := Zlib.streaming_expander stream
    rwa [hDecode] at hStreaming
  have hShort : Zlib.expander.Streaming [0x78] short := Zlib.streaming_expander [0x78]
  obtain ⟨hCalls, hWhole⟩ := inflate_streaming hStream (by decide) .standard 1 (by decide)
  obtain ⟨-, hCut⟩ := inflate_streaming hShort (by decide) .standard 0 (by decide)
  refine ⟨hStream, hShort, hCalls, ?_, ?_⟩
  · rcases hWhole with hReported | ⟨size, hRefused, hSize, -⟩
    · exact hReported
    · rw [Memory.standard.allows_of_le hSize (by decide)] at hRefused
      cases hRefused
  · rcases hCut with hReported | ⟨size, hRefused, hSize, -⟩
    · exact hReported
    · rw [Memory.standard.allows_of_le hSize (by decide)] at hRefused
      cases hRefused

/-- A complete stream expands to its output. No doubling of the buffer fails, because a buffer is
doubled only when it is full. -/
theorem expands_of_decode {stored bytes : Bytes} (h : Zlib.decode stored = ⟨bytes, none⟩)
    (hStored : stored.length < UInt64.size) {memory : Memory}
    (hMemory : memory.allows (2 * bytes.length) = true) :
    Expands memory Zlib.expander stored bytes := by
  intro sizeHint hHint
  have hStreaming := Zlib.streaming_expander stored
  rw [h] at hStreaming
  obtain ⟨-, -, -, -, -, result, -, rfl, hReported | ⟨size, hRefused, hSize, -⟩⟩ :=
    inflate_ends hStreaming hStored hHint
  · exact hReported
  · rw [memory.allows_of_le hSize hMemory] at hRefused
    cases hRefused

end Deflate

end ChunkFilters
