import ChunkFilters.Zlib.BitStream

/-!
# Prefix codes

A prefix code is given by the length of the code word of each symbol, zero for symbols without one.
Code words are handed out from the left of a binary tree, shorter words first and symbols of one
length in ascending order; `Tree.fill` does just that.

The lengths have to use up the tree exactly. There may also be no code word at all, or a single one
of one bit. Such a code leaves bits that begin no code word; they are malformed.
-/

namespace ChunkFilters.Zlib

def maxCodeLength : Nat := 15

inductive Tree where
  /-- No code word starts like this. -/
  | empty
  | leaf (symbol : Nat)
  | node (zero one : Tree)
deriving DecidableEq, Repr

namespace Tree

/-- Hands out the code words below a node at `depth`, with at most `levels` more bits, to symbols
with ascending lengths; returns the symbols that found no place. -/
def fill : Nat → Nat → List (Nat × Nat) → Tree × List (Nat × Nat)
  | _, _, [] => (empty, [])
  | 0, depth, (length, symbol) :: rest =>
    if length = depth then (leaf symbol, rest) else (empty, (length, symbol) :: rest)
  | levels + 1, depth, (length, symbol) :: rest =>
    if length = depth then (leaf symbol, rest)
    else
      let (zero, others) := fill levels (depth + 1) ((length, symbol) :: rest)
      let (one, others) := fill levels (depth + 1) others
      (node zero one, others)

/-- Follows the bits of a stream down a tree, to the symbol they spell. -/
def find : Tree → BitStream → Except Fault (Nat × BitStream)
  | empty, _ => .error .malformed
  | leaf symbol, stream => .ok (symbol, stream)
  | node zero one, stream =>
    match stream.nextBit with
    | .error fault => .error fault
    | .ok (false, stream) => zero.find stream
    | .ok (true, stream) => one.find stream

theorem remaining_find {tree : Tree} {stream after : BitStream} {symbol : Nat}
    (h : tree.find stream = .ok (symbol, after)) : after.remaining ≤ stream.remaining := by
  induction tree generalizing stream with
  | empty => cases h
  | leaf =>
    simp only [find, Except.ok.injEq, Prod.mk.injEq] at h
    obtain ⟨-, rfl⟩ := h
    exact Nat.le_refl _
  | node zero one ihZero ihOne =>
    simp only [find] at h
    split at h
    · cases h
    · next hBit =>
      have := BitStream.remaining_nextBit hBit
      have := ihZero h
      omega
    · next hBit =>
      have := BitStream.remaining_nextBit hBit
      have := ihOne h
      omega

end Tree

/-- A code whose words have at least one bit: the words that start with zero and with one. -/
structure PrefixCode where
  zero : Tree
  one : Tree
deriving DecidableEq, Repr

namespace PrefixCode

/-- The symbols that have a code word, with its length, shorter words first. -/
def assigned (lengths : List Nat) : List (Nat × Nat) :=
  (List.range maxCodeLength).flatMap fun index =>
    lengths.zipIdx.filter fun entry => entry.1 == index + 1

/-- The part of the tree, in words of the greatest length, that the code words take up. -/
def weight (lengths : List Nat) : Nat :=
  lengths.foldr (fun length sum =>
    (if length = 0 then 0 else 1 <<< (maxCodeLength - length)) + sum) 0

/-- The code words take up the tree exactly. -/
def IsComplete (lengths : List Nat) : Prop := weight lengths = 1 <<< maxCodeLength

instance (lengths : List Nat) : Decidable (IsComplete lengths) :=
  inferInstanceAs (Decidable (_ = _))

def IsMinimal (lengths : List Nat) : Prop :=
  lengths.filter (· != 0) = [] ∨ lengths.filter (· != 0) = [1]

instance (lengths : List Nat) : Decidable (IsMinimal lengths) :=
  inferInstanceAs (Decidable (_ ∨ _))

/-- The code that hands out code words of the given lengths. -/
def assign (lengths : List Nat) : PrefixCode :=
  let (zero, others) := Tree.fill (maxCodeLength - 1) 1 (assigned lengths)
  let (one, _) := Tree.fill (maxCodeLength - 1) 1 others
  ⟨zero, one⟩

/-- The code with the given lengths, if they take up the tree exactly or are minimal. -/
def ofLengths (lengths : List Nat) : Except Fault PrefixCode :=
  if IsComplete lengths ∨ IsMinimal lengths then .ok (assign lengths) else .error .malformed

/-- The code with the given lengths, if they take up the tree exactly. -/
def ofCompleteLengths (lengths : List Nat) : Except Fault PrefixCode :=
  if IsComplete lengths then .ok (assign lengths) else .error .malformed

def readSymbol (code : PrefixCode) (stream : BitStream) : Except Fault (Nat × BitStream) :=
  match stream.nextBit with
  | .error fault => .error fault
  | .ok (bit, rest) => (if bit then code.one else code.zero).find rest

theorem remaining_readSymbol {code : PrefixCode} {stream after : BitStream} {symbol : Nat}
    (h : code.readSymbol stream = .ok (symbol, after)) : after.remaining < stream.remaining := by
  unfold readSymbol at h
  split at h
  · cases h
  · next hBit =>
    have := BitStream.remaining_nextBit hBit
    have := Tree.remaining_find h
    omega

end PrefixCode

end ChunkFilters.Zlib
