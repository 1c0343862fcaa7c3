import ChunkFilters.Bytes

/-!
# Bit streams

A compressed stream is read least significant bit first. `remaining` counts the bits that are still
to be read; every read takes it down by exactly as many bits as it returns, which is what makes the
loops over a stream end.
-/

namespace ChunkFilters.Zlib

inductive Fault where
  /-- It breaks the rules of its format. -/
  | malformed
  /-- It ends too early. -/
  | exhausted
deriving DecidableEq, Repr

structure BitStream where
  /-- The unread bits of the current byte, the next one lowest. -/
  window : Nat
  bitsLeft : Nat
  rest : Bytes
deriving DecidableEq, Repr

namespace BitStream

def ofBytes (bytes : Bytes) : BitStream := ⟨0, 0, bytes⟩

def remaining (stream : BitStream) : Nat := stream.bitsLeft + 8 * stream.rest.length

def nextBit (stream : BitStream) : Except Fault (Bool × BitStream) :=
  match stream.bitsLeft, stream.rest with
  | bitsLeft + 1, rest => .ok (stream.window % 2 == 1, ⟨stream.window / 2, bitsLeft, rest⟩)
  | 0, byte :: rest => .ok (byte.toNat % 2 == 1, ⟨byte.toNat / 2, 7, rest⟩)
  | 0, [] => .error .exhausted

/-- Reads a number of `count` bits, the lowest bit first. -/
def readBits : Nat → BitStream → Except Fault (Nat × BitStream)
  | 0, stream => .ok (0, stream)
  | count + 1, stream => do
    let (bit, stream) ← stream.nextBit
    let (value, stream) ← readBits count stream
    return (bit.toNat + 2 * value, stream)

/-- Drops the unread bits of the current byte. -/
def align (stream : BitStream) : BitStream := { stream with window := 0, bitsLeft := 0 }

/-! ## Progress -/

theorem remaining_nextBit {stream after : BitStream} {bit : Bool}
    (h : stream.nextBit = .ok (bit, after)) : after.remaining + 1 = stream.remaining := by
  unfold nextBit at h
  split at h
  · next hBits =>
    simp only [Except.ok.injEq, Prod.mk.injEq] at h
    obtain ⟨-, rfl⟩ := h
    simp only [remaining, hBits]
    omega
  · next hBits hRest =>
    simp only [Except.ok.injEq, Prod.mk.injEq] at h
    obtain ⟨-, rfl⟩ := h
    simp only [remaining, hBits, hRest, List.length_cons]
    omega
  · cases h

theorem remaining_readBits {count value : Nat} {stream after : BitStream}
    (h : stream.readBits count = .ok (value, after)) :
    after.remaining + count = stream.remaining := by
  induction count generalizing stream value with
  | zero =>
    simp only [readBits, Except.ok.injEq, Prod.mk.injEq] at h
    obtain ⟨-, rfl⟩ := h
    rfl
  | succ count ih =>
    simp only [readBits, bind, Except.bind, pure, Except.pure] at h
    split at h
    · cases h
    · next first hFirst =>
      split at h
      · cases h
      · next rest hRest =>
        simp only [Except.ok.injEq, Prod.mk.injEq] at h
        obtain ⟨-, rfl⟩ := h
        have hStep := remaining_nextBit hFirst
        have hTail := ih hRest
        omega

theorem remaining_align_le (stream : BitStream) : stream.align.remaining ≤ stream.remaining := by
  simp only [align, remaining]
  omega

end BitStream

end ChunkFilters.Zlib
