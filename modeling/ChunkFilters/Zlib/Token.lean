import ChunkFilters.Zlib.PrefixCode

/-!
# Tokens

A compressed block is a sequence of tokens: single bytes, copies of earlier output, and an end. A
copy is written as a length and a distance; each of them is the start of a range, named by a symbol,
and an offset within the range, in as many bits as the range needs.

Copies may overlap their own output, and may reach back to before the first byte, where zeros are.
-/

namespace ChunkFilters.Zlib

inductive Token where
  | literal (byte : UInt8)
  | copy (length distance : Nat)
  | endOfBlock
deriving DecidableEq, Repr

/-! ## Ranges -/

def endSymbol : Nat := 256

/-- The ranges of lengths, from symbol 257 on: start and number of offset bits. -/
def lengthRanges : Array (Nat × Nat) := #[
  (3, 0), (4, 0), (5, 0), (6, 0), (7, 0), (8, 0), (9, 0), (10, 0),
  (11, 1), (13, 1), (15, 1), (17, 1), (19, 2), (23, 2), (27, 2), (31, 2),
  (35, 3), (43, 3), (51, 3), (59, 3), (67, 4), (83, 4), (99, 4), (115, 4),
  (131, 5), (163, 5), (195, 5), (227, 5), (258, 0)]

/-- The ranges of distances: start and number of offset bits. -/
def distanceRanges : Array (Nat × Nat) := #[
  (1, 0), (2, 0), (3, 0), (4, 0), (5, 1), (7, 1), (9, 2), (13, 2),
  (17, 3), (25, 3), (33, 4), (49, 4), (65, 5), (97, 5), (129, 6), (193, 6),
  (257, 7), (385, 7), (513, 8), (769, 8), (1025, 9), (1537, 9), (2049, 10), (3073, 10),
  (4097, 11), (6145, 11), (8193, 12), (12289, 12), (16385, 13), (24577, 13)]

/-- Reads a value of the range with the given index; there may be no such range. -/
def readInRange (ranges : Array (Nat × Nat)) (index : Nat) (stream : BitStream) :
    Except Fault (Nat × BitStream) :=
  match ranges[index]? with
  | none => .error .malformed
  | some (start, bits) =>
    match stream.readBits bits with
    | .error fault => .error fault
    | .ok (offset, stream) => .ok (start + offset, stream)

theorem remaining_readInRange {ranges : Array (Nat × Nat)} {index value : Nat}
    {stream after : BitStream} (h : readInRange ranges index stream = .ok (value, after)) :
    after.remaining ≤ stream.remaining := by
  unfold readInRange at h
  split at h
  · cases h
  · split at h
    · cases h
    · next hBits =>
      simp only [Except.ok.injEq, Prod.mk.injEq] at h
      obtain ⟨-, rfl⟩ := h
      have := BitStream.remaining_readBits hBits
      omega

/-! ## Reading -/

/-- The codes of a block: one for literals, lengths and the end, one for distances. -/
structure Codes where
  literals : PrefixCode
  distances : PrefixCode

def readDistance (codes : Codes) (stream : BitStream) : Except Fault (Nat × BitStream) :=
  match codes.distances.readSymbol stream with
  | .error fault => .error fault
  | .ok (symbol, stream) => readInRange distanceRanges symbol stream

/-- Reads the rest of a copy whose length is in the range with the given index. -/
def readCopy (codes : Codes) (index : Nat) (stream : BitStream) :
    Except Fault (Token × BitStream) :=
  match readInRange lengthRanges index stream with
  | .error fault => .error fault
  | .ok (length, stream) =>
    match readDistance codes stream with
    | .error fault => .error fault
    | .ok (distance, stream) => .ok (.copy length distance, stream)

def readToken (codes : Codes) (stream : BitStream) : Except Fault (Token × BitStream) :=
  match codes.literals.readSymbol stream with
  | .error fault => .error fault
  | .ok (symbol, stream) =>
    if symbol < endSymbol then .ok (.literal (UInt8.ofNat symbol), stream)
    else if symbol = endSymbol then .ok (.endOfBlock, stream)
    else readCopy codes (symbol - (endSymbol + 1)) stream

theorem remaining_readDistance {codes : Codes} {stream after : BitStream} {distance : Nat}
    (h : readDistance codes stream = .ok (distance, after)) :
    after.remaining ≤ stream.remaining := by
  unfold readDistance at h
  split at h
  · cases h
  · next hSymbol =>
    have := PrefixCode.remaining_readSymbol hSymbol
    have := remaining_readInRange h
    omega

theorem remaining_readCopy {codes : Codes} {index : Nat} {stream after : BitStream} {token : Token}
    (h : readCopy codes index stream = .ok (token, after)) :
    after.remaining ≤ stream.remaining := by
  unfold readCopy at h
  split at h
  · cases h
  · next hLength =>
    split at h
    · cases h
    · next hDistance =>
      simp only [Except.ok.injEq, Prod.mk.injEq] at h
      obtain ⟨-, rfl⟩ := h
      have := remaining_readInRange hLength
      have := remaining_readDistance hDistance
      omega

theorem remaining_readToken {codes : Codes} {stream after : BitStream} {token : Token}
    (h : readToken codes stream = .ok (token, after)) : after.remaining < stream.remaining := by
  unfold readToken at h
  split at h
  · cases h
  · next hSymbol =>
    have hLess := PrefixCode.remaining_readSymbol hSymbol
    split at h
    · simp only [Except.ok.injEq, Prod.mk.injEq] at h
      obtain ⟨-, rfl⟩ := h
      exact hLess
    · split at h
      · simp only [Except.ok.injEq, Prod.mk.injEq] at h
        obtain ⟨-, rfl⟩ := h
        exact hLess
      · have := remaining_readCopy h
        omega

/-! ## Output -/

/-- Appends `length` bytes, each a copy of the byte `distance` before it. -/
def copyBack (distance : Nat) : Nat → Array UInt8 → Array UInt8
  | 0, output => output
  | length + 1, output =>
    let byte := if distance ≤ output.size then (output[output.size - distance]?).getD 0 else 0
    copyBack distance length (output.push byte)

theorem size_copyBack (distance length : Nat) (output : Array UInt8) :
    (copyBack distance length output).size = output.size + length := by
  induction length generalizing output with
  | zero => rfl
  | succ length ih =>
    simp only [copyBack, ih, Array.size_push]
    omega

end ChunkFilters.Zlib
