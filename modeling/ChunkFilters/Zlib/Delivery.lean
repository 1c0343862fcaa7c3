import ChunkFilters.Zlib.Stream

/-!
# Delivery in pieces

A decoder is called again and again. Each call gets what is left of the input and some room for
output, takes as much of the input as it can use, and delivers no more bytes than there is room for.
`StreamDecoder` is what a caller sees of this. It promises little: that the room is kept to, and
that input which has been taken is not given back.

`expander` is a decoder of this kind. It expands all of its input when it is first called, and hands
out what it has in pieces after that.
-/

namespace ChunkFilters.Zlib

inductive CallStatus where
  | running
  /-- Nothing could be done. -/
  | blocked
  | finished
  | malformed (reason : String)
deriving DecidableEq, Repr

/-- The call has found neither the end of the stream nor anything wrong with it. -/
def CallStatus.Unfinished (status : CallStatus) : Prop := status = .running ∨ status = .blocked

/-- What a call delivers, and the state after it. -/
structure Delivery (σ : Type) where
  bytes : Bytes
  status : CallStatus
  next : σ

structure StreamDecoder where
  State : Type
  start : State
  /-- The number of input bytes that have been taken. -/
  consumed : State → Nat
  /-- A call with the input that has not been taken, and with room for that many bytes. -/
  call : State → Bytes → Nat → Delivery State
  length_le : ∀ state input room, (call state input room).bytes.length ≤ room
  le_consumed : ∀ state input room, consumed state ≤ consumed (call state input room).next

/-! ## Delivering an expansion -/

/-- The part of an expansion that has not been delivered. -/
structure Undelivered where
  bytes : Bytes
  /-- What is wrong with the stream after these bytes, if it does not end there. -/
  fault : Option Fault
  /-- The number of input bytes that have been taken. -/
  consumed : Nat

namespace Undelivered

/-- What is left after the input of a stream has been seen for the first time, or again. -/
def resume (input : Bytes) : Option Undelivered → Undelivered
  | none => ⟨(decode input).output, (decode input).fault, 0⟩
  | some left => left

/-- The status of a call that delivers all that was left: the end of the stream, or what is wrong
with it. The call was of no use if there was nothing to deliver and no input to take. -/
def endStatus (left : Undelivered) (input : Bytes) : CallStatus :=
  match left.fault with
  | none => .finished
  | some .malformed => .malformed "deflate decompression error"
  | some .exhausted => if left.bytes.isEmpty && input.isEmpty then .blocked else .running

/-- Delivers what there is room for. The input counts as taken once nothing is left to deliver. -/
def deliver (left : Undelivered) (input : Bytes) (room : Nat) : Delivery (Option Undelivered) :=
  if left.bytes.length ≤ room then
    { bytes := left.bytes
      status := left.endStatus input
      next := some { left with bytes := [], consumed := left.consumed + input.length } }
  else
    { bytes := left.bytes.take room
      status := .running
      next := some { left with bytes := left.bytes.drop room } }

theorem length_bytes_deliver (left : Undelivered) (input : Bytes) (room : Nat) :
    (left.deliver input room).bytes.length ≤ room := by
  unfold deliver
  split
  · assumption
  · exact List.length_take_le room left.bytes

end Undelivered

/-- The number of input bytes that have been taken, none before the first call. -/
def taken : Option Undelivered → Nat
  | none => 0
  | some left => left.consumed

theorem Undelivered.consumed_le_deliver (left : Undelivered) (input : Bytes) (room : Nat) :
    left.consumed ≤ taken (left.deliver input room).next := by
  unfold deliver
  split
  · exact Nat.le_add_right left.consumed input.length
  · exact Nat.le_refl left.consumed

/-- The decoder that comes with the library. -/
def expander : StreamDecoder where
  State := Option Undelivered
  start := none
  consumed := taken
  call state input room := (Undelivered.resume input state).deliver input room
  length_le _ input room := Undelivered.length_bytes_deliver _ input room
  le_consumed
    | none, _, _ => Nat.zero_le _
    | some left, input, room => left.consumed_le_deliver input room

end ChunkFilters.Zlib
