/-!
# Samples of an adaptive entropy code

The coder writes small numbers, one for each sample. Without preprocessing they are the samples.
With preprocessing each says how a sample differs from the one before it: small even and odd numbers
alternate between steps up and down while both directions are possible, and larger ones count from
the limit that lies farther away.
-/

namespace ChunkFilters.Aec

structure Parameters where
  bits : Nat
  blockSize : Nat
  /-- The number of blocks from one reference sample to the next. -/
  interval : Nat
  /-- Whether samples are predicted from the one before. -/
  preprocessed : Bool
  bigEndian : Bool
deriving DecidableEq, Repr

namespace Parameters

/-- The block sizes that the code is defined for. -/
def hasBlockSize (parameters : Parameters) : Bool := [8, 16, 32, 64].contains parameters.blockSize

def sampleSize (parameters : Parameters) : Nat :=
  if parameters.bits ≤ 8 then 1 else if parameters.bits ≤ 16 then 2 else 4

def maxSample (parameters : Parameters) : Nat := (1 <<< parameters.bits) - 1

end Parameters

/-- The sample before, moved as a coded number says. It is not cut to the width of a sample here,
which matters only for numbers that no coder writes. -/
def step (parameters : Parameters) (previous coded : Nat) : Nat :=
  let up := !previous.testBit (parameters.bits - 1)
  let reach := if up then previous else parameters.maxSample ^^^ previous
  if coded / 2 + coded % 2 ≤ reach then
    if coded % 2 = 0 then previous + coded / 2 else previous - (coded / 2 + 1)
  else (if up then 0 else parameters.maxSample) ^^^ coded

/-- The samples so far, of those that are wanted. They have not been cut to their width. -/
structure Samples where
  values : Array Nat := #[]
  /-- The last sample, as `step` left it. -/
  previous : Nat := 0

namespace Samples

def isComplete (samples : Samples) (wanted : Nat) : Bool := wanted ≤ samples.values.size

def putReference (value : Nat) (samples : Samples) : Samples :=
  { values := samples.values.push value, previous := value }

/-- Adds the sample that a coded number stands for, unless there are as many as wanted. -/
def put (parameters : Parameters) (wanted coded : Nat) (samples : Samples) : Samples :=
  if samples.isComplete wanted then samples
  else
    let value := if parameters.preprocessed then step parameters samples.previous coded else coded
    { values := samples.values.push value, previous := value }

def putAll (parameters : Parameters) (wanted : Nat) (coded : List Nat) (samples : Samples) :
    Samples :=
  coded.foldl (fun samples value => samples.put parameters wanted value) samples

def putZeros (parameters : Parameters) (wanted : Nat) : Nat → Samples → Samples
  | 0, samples => samples
  | count + 1, samples => putZeros parameters wanted count (samples.put parameters wanted 0)

end Samples

end ChunkFilters.Aec
