import ChunkFilters.Aec
import ChunkFilters.Filter
import ChunkFilters.Shuffle

/-!
# Entropy coded chunks

A chunk starts with the size of its expansion, in four bytes, the most significant one first; the
rest is an adaptive entropy code. The parameters are an options mask and the numbers of bits in a
pixel, of pixels in a block and of pixels in a scanline. Pixels of up to 24 bits are the samples of
the code. The bytes of wider pixels are shuffled and coded as samples of eight bits.

The framing is written for any decoder of the code (`EntropyDecoder`). What it has to be asked for
is worked out here: the number of samples that hold a chunk of the given size. Parameters are
checked before the input is looked at.
-/

namespace ChunkFilters.Szip

def name : String := "szip"

/-! ## Parameters -/

/-- The option for pixels that have their most significant byte first. -/
def bigEndianOption : UInt32 := 16

/-- The option for pixels that are predicted from their neighbours. -/
def neighbourOption : UInt32 := 32

inductive ParameterError where
  | tooFew (count : Nat)
  | bitsPerPixel (value : Nat)
  | pixelsPerBlock (value : Nat)
  | scanlineEmpty
deriving DecidableEq, Repr

def ParameterError.message : ParameterError → String
  | tooFew count => s!"expected 4 values, got {count}"
  | bitsPerPixel value => s!"unsupported bits per pixel {value}"
  | pixelsPerBlock value => s!"invalid pixels per block {value}"
  | scanlineEmpty => "pixels per scanline is zero"

structure Parameters where
  options : UInt32
  bitsPerPixel : Nat
  pixelsPerBlock : Nat
  pixelsPerScanline : Nat
deriving DecidableEq, Repr

def isPixelWidth (bits : Nat) : Bool := (1 ≤ bits && bits ≤ 24) || bits == 32 || bits == 64

def isBlockLength (pixels : Nat) : Bool := pixels != 0 && pixels % 2 == 0 && pixels ≤ 32

namespace Parameters

/-- Reads and checks the parameters; there may be more of them than are needed. -/
def ofParams (params : List UInt32) : Except ParameterError Parameters :=
  match params with
  | options :: bitsPerPixel :: pixelsPerBlock :: pixelsPerScanline :: _ =>
    if !isPixelWidth bitsPerPixel.toNat then .error (.bitsPerPixel bitsPerPixel.toNat)
    else if !isBlockLength pixelsPerBlock.toNat then .error (.pixelsPerBlock pixelsPerBlock.toNat)
    else if pixelsPerScanline = 0 then .error .scanlineEmpty
    else .ok {
      options
      bitsPerPixel := bitsPerPixel.toNat
      pixelsPerBlock := pixelsPerBlock.toNat
      pixelsPerScanline := pixelsPerScanline.toNat }
  | _ => .error (.tooFew params.length)

/-- The size of a pixel whose bytes are shuffled. -/
def shuffledSize? (parameters : Parameters) : Option Nat :=
  if parameters.bitsPerPixel = 32 then some 4
  else if parameters.bitsPerPixel = 64 then some 8
  else none

def hasOption (parameters : Parameters) (option : UInt32) : Bool :=
  parameters.options &&& option != 0

/-- What the entropy coder was set to. A reference sample starts every scanline, rounded up to whole
blocks. -/
def code (parameters : Parameters) : Aec.Parameters where
  bits := if parameters.shuffledSize?.isSome then 8 else parameters.bitsPerPixel
  blockSize := parameters.pixelsPerBlock
  interval :=
    (parameters.pixelsPerScanline + parameters.pixelsPerBlock - 1) / parameters.pixelsPerBlock
  preprocessed := parameters.hasOption neighbourOption
  bigEndian := parameters.hasOption bigEndianOption

end Parameters

/-! ## Framing -/

/-- Decodes a number of samples, or says what is wrong with the input. -/
abbrev EntropyDecoder := Aec.Parameters → Nat → Bytes → Except String Buffer

/-- The decoder that comes with the library. -/
def entropyDecoder : EntropyDecoder := fun parameters wanted input =>
  match Aec.decode parameters wanted input with
  | .ok bytes => .ok bytes
  | .error error => .error (error.message (8 * input.length))

def entropyDecoderName : String := "rust-aec"

/-- The size of the size at the front of a chunk. -/
def sizeLength : Nat := 4

/-- The number of bytes that a sample of the given width takes. -/
def bytesPerSample (bits : Nat) : Nat := if bits ≤ 8 then 1 else if bits ≤ 16 then 2 else 4

/-- The number of samples of the given width that hold `size` bytes. -/
def sampleCount (bits size : Nat) : Nat := (size + bytesPerSample bits - 1) / bytesPerSample bits

/-- Decodes the bytes of a chunk and cuts them to their size. -/
def decodeBytes (decoder : EntropyDecoder) (code : Aec.Parameters) (size : Nat) (input : Bytes) :
    Except CodecError Buffer :=
  match decoder code (sampleCount code.bits size) input with
  | .error reason => .error (.external entropyDecoderName reason)
  | .ok decoded =>
    if decoded.bytes.length < size then
      .error (.external entropyDecoderName
        s!"decoded {decoded.bytes.length} bytes, expected {size} bytes")
    else .ok (decoded.truncate size)

def decode (memory : Memory) (decoder : EntropyDecoder) (request : DecodeRequest) :
    Except CodecError Decoded :=
  match Parameters.ofParams request.params with
  | .error error => .error (.invalidParameters name error.message)
  | .ok parameters =>
    if request.input.length < sizeLength then
      .error (.invalidData "szip input is shorter than its size prefix" (some 0))
    else do
      let size := Bytes.bigEndian (request.input.take sizeLength)
      let decoded ← decodeBytes decoder parameters.code size (request.input.drop sizeLength)
      match parameters.shuffledSize? with
      | some pixelSize => return .fresh (← Shuffle.unshuffleCopy memory pixelSize decoded.bytes)
      | none => return .fresh decoded

def filter (memory : Memory) (decoder : EntropyDecoder) : Filter where
  id := .szip
  name
  decode := Filter.decodeOnly name (decode memory decoder)

end ChunkFilters.Szip
