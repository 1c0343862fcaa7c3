import ChunkFilters.Zlib.Token

/-!
# Blocks

A stream is a sequence of blocks, the last of which is marked. A block is stored as it is, or coded
with a fixed pair of prefix codes, or with a pair that it describes itself: the lengths of the code
words of both codes, written in a third code, runs of equal lengths being written as such. The third
code has to use up its tree; the two others may be minimal instead.

Problems are found in the order of the bits. What was put out before a problem is kept.
-/

namespace ChunkFilters.Zlib

/-- The output so far, with the rest of the stream or what is wrong with it. -/
abbrev Partial (α : Type) := Array UInt8 × Except Fault α

/-! ## Coded blocks -/

def readTokens (codes : Codes) (stream : BitStream) (output : Array UInt8) : Partial BitStream :=
  match h : readToken codes stream with
  | .error fault => (output, .error fault)
  | .ok (.endOfBlock, rest) => (output, .ok rest)
  | .ok (.literal byte, rest) =>
    have := remaining_readToken h
    readTokens codes rest (output.push byte)
  | .ok (.copy length distance, rest) =>
    have := remaining_readToken h
    readTokens codes rest (copyBack distance length output)
termination_by stream.remaining

theorem remaining_readTokens {codes : Codes} {stream after : BitStream} {output bytes : Array UInt8}
    (h : readTokens codes stream output = (bytes, .ok after)) :
    after.remaining ≤ stream.remaining := by
  fun_induction readTokens codes stream output with
  | case1 => simp at h
  | case2 stream output rest hToken =>
    simp only [Prod.mk.injEq, Except.ok.injEq] at h
    obtain ⟨-, rfl⟩ := h
    exact Nat.le_of_lt (remaining_readToken hToken)
  | case3 stream output byte rest hToken hLess ih =>
    exact Nat.le_of_lt (Nat.lt_of_le_of_lt (ih h) hLess)
  | case4 stream output length distance rest hToken hLess ih =>
    exact Nat.le_of_lt (Nat.lt_of_le_of_lt (ih h) hLess)

/-- The lengths of the code words of the fixed literal code. -/
def fixedLiteralLengths : List Nat :=
  List.replicate 144 8 ++ List.replicate 112 9 ++ List.replicate 24 7 ++ List.replicate 8 8

/-- The lengths of the code words of the fixed distance code. -/
def fixedDistanceLengths : List Nat := List.replicate 32 5

def codesOfLengths (literalLengths distanceLengths : List Nat) : Except Fault Codes :=
  match PrefixCode.ofLengths literalLengths, PrefixCode.ofLengths distanceLengths with
  | .ok literals, .ok distances => .ok ⟨literals, distances⟩
  | _, _ => .error .malformed

def fixedCodes : Except Fault Codes := codesOfLengths fixedLiteralLengths fixedDistanceLengths

/-! ## Described codes -/

structure Run where
  length : Nat
  count : Nat

/-- Reads a run of the length `length`, of at least `least`, from `bits` bits. -/
def readRun (length least bits : Nat) (stream : BitStream) : Except Fault (Run × BitStream) :=
  match stream.readBits bits with
  | .error fault => .error fault
  | .ok (more, stream) => .ok (⟨length, least + more⟩, stream)

/-- Reads one length or a run of lengths, given the length before it. -/
def readLengthRun (code : PrefixCode) (previous : Option Nat) (stream : BitStream) :
    Except Fault (Run × BitStream) :=
  match code.readSymbol stream with
  | .error fault => .error fault
  | .ok (symbol, stream) =>
    match symbol, previous with
    | 16, none => .error .malformed
    | 16, some length => readRun length 3 2 stream
    | 17, _ => readRun 0 3 3 stream
    | 18, _ => readRun 0 11 7 stream
    | length, _ => .ok (⟨length, 1⟩, stream)

theorem remaining_readRun {length least bits : Nat} {stream after : BitStream} {run : Run}
    (h : readRun length least bits stream = .ok (run, after)) :
    after.remaining ≤ stream.remaining := by
  unfold readRun at h
  split at h
  · cases h
  · next hBits =>
    simp only [Except.ok.injEq, Prod.mk.injEq] at h
    obtain ⟨-, rfl⟩ := h
    have := BitStream.remaining_readBits hBits
    omega

theorem remaining_readLengthRun {code : PrefixCode} {previous : Option Nat}
    {stream after : BitStream} {run : Run}
    (h : readLengthRun code previous stream = .ok (run, after)) :
    after.remaining < stream.remaining := by
  unfold readLengthRun at h
  split at h
  · cases h
  · next hSymbol =>
    have hLess := PrefixCode.remaining_readSymbol hSymbol
    split at h
    · cases h
    · exact Nat.lt_of_le_of_lt (remaining_readRun h) hLess
    · exact Nat.lt_of_le_of_lt (remaining_readRun h) hLess
    · exact Nat.lt_of_le_of_lt (remaining_readRun h) hLess
    · simp only [Except.ok.injEq, Prod.mk.injEq] at h
      obtain ⟨-, rfl⟩ := h
      exact hLess

/-- Reads `count` lengths. A run must not go beyond them. -/
def readLengths (code : PrefixCode) (count : Nat) (stream : BitStream) (lengths : Array Nat) :
    Except Fault (Array Nat × BitStream) :=
  if lengths.size = count then .ok (lengths, stream)
  else if count < lengths.size then .error .malformed
  else match h : readLengthRun code lengths.back? stream with
    | .error fault => .error fault
    | .ok (run, rest) =>
      have := remaining_readLengthRun h
      readLengths code count rest (lengths ++ Array.replicate run.count run.length)
termination_by stream.remaining

theorem remaining_readLengths {code : PrefixCode} {count : Nat} {stream after : BitStream}
    {lengths all : Array Nat} (h : readLengths code count stream lengths = .ok (all, after)) :
    after.remaining ≤ stream.remaining := by
  fun_induction readLengths code count stream lengths with
  | case1 =>
    simp only [Except.ok.injEq, Prod.mk.injEq] at h
    obtain ⟨-, rfl⟩ := h
    exact Nat.le_refl _
  | case2 => cases h
  | case3 => cases h
  | case4 _ _ _ _ _ _ _ hLess ih => exact Nat.le_of_lt (Nat.lt_of_le_of_lt (ih h) hLess)

/-- The order in which the lengths of the third code are written. -/
def lengthOrder : List Nat := [16, 17, 18, 0, 8, 7, 9, 6, 10, 5, 11, 4, 12, 3, 13, 2, 14, 1, 15]

/-- Reads the lengths of the third code for the given symbols; the other symbols have no code
word. -/
def readOrderedLengths : List Nat → BitStream → List Nat → Except Fault (List Nat × BitStream)
  | [], stream, lengths => .ok (lengths, stream)
  | symbol :: rest, stream, lengths =>
    match stream.readBits 3 with
    | .error fault => .error fault
    | .ok (length, stream) => readOrderedLengths rest stream (lengths.set symbol length)

theorem remaining_readOrderedLengths {symbols lengths all : List Nat} {stream after : BitStream}
    (h : readOrderedLengths symbols stream lengths = .ok (all, after)) :
    after.remaining ≤ stream.remaining := by
  induction symbols generalizing stream lengths with
  | nil =>
    simp only [readOrderedLengths, Except.ok.injEq, Prod.mk.injEq] at h
    obtain ⟨-, rfl⟩ := h
    exact Nat.le_refl _
  | cons symbol rest ih =>
    simp only [readOrderedLengths] at h
    split at h
    · cases h
    · next hBits =>
      have := BitStream.remaining_readBits hBits
      have := ih h
      omega

/-- The number of code words that a block may describe. -/
structure CodeSizes where
  literals : Nat
  distances : Nat
  lengths : Nat

def readSizes (stream : BitStream) : Except Fault (CodeSizes × BitStream) :=
  match stream.readBits 14 with
  | .error fault => .error fault
  | .ok (sizes, stream) =>
    let literals := sizes % 32 + 257
    let distances := sizes / 32 % 32 + 1
    if 286 < literals ∨ 30 < distances then .error .malformed
    else .ok (⟨literals, distances, sizes / 1024 + 4⟩, stream)

theorem remaining_readSizes {stream after : BitStream} {sizes : CodeSizes}
    (h : readSizes stream = .ok (sizes, after)) : after.remaining ≤ stream.remaining := by
  unfold readSizes at h
  split at h
  · cases h
  · next hBits =>
    dsimp only at h
    split at h
    · cases h
    · simp only [Except.ok.injEq, Prod.mk.injEq] at h
      obtain ⟨-, rfl⟩ := h
      have := BitStream.remaining_readBits hBits
      omega

def readAllLengths (sizes : CodeSizes) (stream : BitStream) :
    Except Fault (Array Nat × BitStream) :=
  match readOrderedLengths (lengthOrder.take sizes.lengths) stream (List.replicate 19 0) with
  | .error fault => .error fault
  | .ok (lengths, stream) =>
    match PrefixCode.ofCompleteLengths lengths with
    | .error fault => .error fault
    | .ok code => readLengths code (sizes.literals + sizes.distances) stream #[]

def readCodes (stream : BitStream) : Except Fault (Codes × BitStream) :=
  match readSizes stream with
  | .error fault => .error fault
  | .ok (sizes, stream) =>
    match readAllLengths sizes stream with
    | .error fault => .error fault
    | .ok (lengths, stream) =>
      match codesOfLengths (lengths.toList.take sizes.literals)
          (lengths.toList.drop sizes.literals) with
      | .error fault => .error fault
      | .ok codes => .ok (codes, stream)

theorem remaining_readCodes {stream after : BitStream} {codes : Codes}
    (h : readCodes stream = .ok (codes, after)) : after.remaining ≤ stream.remaining := by
  unfold readCodes at h
  split at h
  · cases h
  · next hSizes =>
    split at h
    · cases h
    · next hAll =>
      split at h
      · cases h
      · simp only [Except.ok.injEq, Prod.mk.injEq] at h
        obtain ⟨-, rfl⟩ := h
        have hLess := remaining_readSizes hSizes
        unfold readAllLengths at hAll
        split at hAll
        · cases hAll
        · next hOrdered =>
          have := remaining_readOrderedLengths hOrdered
          split at hAll
          · cases hAll
          · have := remaining_readLengths hAll
            omega

/-! ## Stored blocks -/

/-- Copies a stored block: its length, the complement of its length, and as many bytes, starting at
the next whole byte. -/
def readStored (stream : BitStream) (output : Array UInt8) : Partial BitStream :=
  match stream.align.readBits 32 with
  | .error fault => (output, .error fault)
  | .ok (lengths, stream) =>
    let length := lengths % 65536
    if length + lengths / 65536 ≠ 65535 then (output, .error .malformed)
    else
      let output := output ++ stream.rest.take length
      if stream.rest.length < length then (output, .error .exhausted)
      else (output, .ok (.ofBytes (stream.rest.drop length)))

theorem remaining_readStored {stream after : BitStream} {output bytes : Array UInt8}
    (h : readStored stream output = (bytes, .ok after)) : after.remaining ≤ stream.remaining := by
  unfold readStored at h
  split at h
  · simp at h
  · next hBits =>
    have := BitStream.remaining_readBits hBits
    have := BitStream.remaining_align_le stream
    dsimp only at h
    split at h
    · simp at h
    · split at h
      · simp at h
      · simp only [Prod.mk.injEq, Except.ok.injEq] at h
        obtain ⟨-, rfl⟩ := h
        simp only [BitStream.remaining, BitStream.ofBytes, List.length_drop] at *
        omega

/-! ## Sequences of blocks -/

def readBody (kind : Nat) (stream : BitStream) (output : Array UInt8) : Partial BitStream :=
  match kind with
  | 0 => readStored stream output
  | 1 =>
    match fixedCodes with
    | .error fault => (output, .error fault)
    | .ok codes => readTokens codes stream output
  | 2 =>
    match readCodes stream with
    | .error fault => (output, .error fault)
    | .ok (codes, stream) => readTokens codes stream output
  | _ => (output, .error .malformed)

theorem remaining_readBody {kind : Nat} {stream after : BitStream} {output bytes : Array UInt8}
    (h : readBody kind stream output = (bytes, .ok after)) :
    after.remaining ≤ stream.remaining := by
  unfold readBody at h
  split at h
  · exact remaining_readStored h
  · split at h
    · simp at h
    · exact remaining_readTokens h
  · split at h
    · simp at h
    · next hCodes =>
      have := remaining_readCodes hCodes
      have := remaining_readTokens h
      omega
  · simp at h

/-- Reads blocks up to and including the last one. -/
def readBlocks (stream : BitStream) (output : Array UInt8) : Partial BitStream :=
  match hHeader : stream.readBits 3 with
  | .error fault => (output, .error fault)
  | .ok (header, body) =>
    match hBody : readBody (header / 2) body output with
    | (output, .error fault) => (output, .error fault)
    | (output, .ok rest) =>
      have := BitStream.remaining_readBits hHeader
      have := remaining_readBody hBody
      if header % 2 = 1 then (output, .ok rest) else readBlocks rest output
termination_by stream.remaining

end ChunkFilters.Zlib
