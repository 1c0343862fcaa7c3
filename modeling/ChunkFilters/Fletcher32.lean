import ChunkFilters.Filter

/-!
# Fletcher32

The checksum adds up the big endian 16-bit words of a chunk, and adds up the running sums. Both
sums are kept modulo 65535 by folding their upper half onto their lower half, once for every block
of 360 words; an odd byte at the end is the upper half of a word that forms a block of its own.
`Sums.push` and `Sums.flush` say when the sums are folded, `words` is the word split that they
follow, and `closedForm` is what they amount to.

A protected chunk ends in its checksum, least significant byte first. The opposite byte order was
written by some writers and is accepted too.
-/

namespace ChunkFilters.Fletcher32

/-! ## The running sums -/

/-- The number of words that are added up between two foldings. -/
def blockLength : Nat := 360

/-- The sum of the words, the sum of the running sums, and the number of words since both were
folded. -/
structure Sums where
  first : UInt32 := 0
  second : UInt32 := 0
  pending : Nat := 0
deriving DecidableEq, Repr

namespace Sums

/-- Adds the upper half of a sum to its lower half, which keeps it modulo 65535. -/
def foldHalves (sum : UInt32) : UInt32 := (sum &&& (0xffff : UInt32)) + (sum >>> (16 : UInt32))

def fold (sums : Sums) : Sums :=
  { first := foldHalves sums.first, second := foldHalves sums.second, pending := 0 }

def add (sums : Sums) (word : UInt32) : Sums :=
  let first := sums.first + word
  { first, second := sums.second + first, pending := sums.pending + 1 }

/-- Adds one word, and folds the sums where it completes a block. -/
def push (sums : Sums) (word : UInt32) : Sums :=
  let sums := sums.add word
  if sums.pending = blockLength then sums.fold else sums

def flush (sums : Sums) : Sums := if sums.pending = 0 then sums else sums.fold

end Sums

/-- The 16-bit word with the given upper and lower half. -/
def word (high low : UInt8) : UInt32 := (high.toUInt32 <<< 8) ||| low.toUInt32

def absorb (sums : Sums) : Bytes → Sums
  | high :: low :: rest => absorb (sums.push (word high low)) rest
  | [odd] => (sums.flush.push (word odd 0)).flush
  | [] => sums.flush

/-- The checksum: the second sum in the upper half, the first in the lower half. -/
def checksum (bytes : Bytes) : UInt32 :=
  let sums := (absorb {} bytes).fold
  (sums.second <<< 16) ||| sums.first

/-! ## The closed form -/

/-- The words of a byte string; an odd byte at the end is the upper half of the last word. -/
def words : Bytes → List Nat
  | high :: low :: rest => (256 * high.toNat + low.toNat) :: words rest
  | [odd] => [256 * odd.toNat]
  | [] => []

/-- The sum of all running sums, from a given sum on. -/
def runningSum (sum : Nat) : List Nat → Nat
  | [] => 0
  | word :: rest => (sum + word) + runningSum (sum + word) rest

/-- The representative modulo 65535 that folding leaves behind: zero only for zero. -/
def residue (sum : Nat) : Nat := if sum = 0 then 0 else (sum - 1) % 65535 + 1

/-- The checksum as arithmetic on the words. -/
def closedForm (bytes : Bytes) : Nat :=
  residue (runningSum 0 (words bytes)) * 65536 + residue ((words bytes).foldr (· + ·) 0)

theorem residue_le (sum : Nat) : residue sum ≤ 65535 := by
  unfold residue
  split <;> omega

/-! ## The filter -/

def name : String := "fletcher32"

def trailerSize : Nat := 4

def protect (bytes : Bytes) : Bytes :=
  bytes ++ Bytes.toLittleEndian trailerSize (checksum bytes).toNat

/-- Whether a checksum agrees with a stored one, in either byte order. -/
def matchesStored (computed : UInt32) (trailer : Bytes) : Bool :=
  computed.toNat == Bytes.littleEndian trailer || computed.toNat == Bytes.bigEndian trailer

/-- Drops the checksum at the end, after verifying it unless the flags say not to. -/
def decode (request : DecodeRequest) : Except CodecError Decoded :=
  let length := request.input.length
  if length < trailerSize then
    .error (.invalidData
      s!"fletcher32 input of {length} bytes is shorter than its checksum" (some 0))
  else
    let payload := request.input.take (length - trailerSize)
    let trailer := request.input.drop (length - trailerSize)
    if request.flags.contains .skipEdc then .ok (.leading (length - trailerSize))
    else
      let computed := checksum payload
      if matchesStored computed trailer then .ok (.leading (length - trailerSize))
      else .error (.invalidChecksum (UInt32.ofNat (Bytes.littleEndian trailer)) computed)

def filter : Filter where
  id := .fletcher32
  name
  decode := Filter.decodeOnly name decode

theorem length_protect (bytes : Bytes) : (protect bytes).length = bytes.length + 4 := by
  simp [protect, Bytes.length_toLittleEndian, trailerSize]

end ChunkFilters.Fletcher32
