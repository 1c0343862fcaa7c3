import ChunkFilters.Proofs.Aec.Samples
import ChunkFilters.Proofs.Shuffle.Stripes
import ChunkFilters.Szip
import Mathlib.Control.Monad.Basic

/-!
# The framing of entropy coded chunks

A chunk states its size in bytes, and the entropy code is decoded in samples, of which just enough
are asked for to hold that size. The bytes of the last sample beyond the size are cut off, and the
bytes of wide pixels are put back in order.

Of the entropy decoder only the length of what it gives is assumed (`EntropyDecoder.Exact`), which
holds of the decoder that comes with the library (`exact_entropyDecoder`). That what is asked for
and what is given fit together has to be proved, because the filter counts the bytes of a sample by
itself (`length_of_exact`).

* `ofParams_cases`: which parameters are refused;
* `decodeBytes_of_ok`: what the decoder gives is always enough, and less than a sample too much;
* `run_framed`: both for a whole request; a memory that has room for every size that can be stated
  (`allows_stated`) never fails it.

Nothing is said of how samples are coded.
-/

namespace ChunkFilters.Szip

/-! ## Entropy decoders -/

/-- What has been decoded are as many samples as were wanted, of one byte up to 8 bits, of two bytes
up to 16 bits, and of four bytes up to 32 bits. -/
structure EntropyDecoder.Exact (decoder : EntropyDecoder) : Prop where
  of_le_8 : ∀ {code wanted input buffer}, decoder code wanted input = .ok buffer →
    code.bits ≤ 8 → buffer.bytes.length = wanted
  of_le_16 : ∀ {code wanted input buffer}, decoder code wanted input = .ok buffer →
    9 ≤ code.bits → code.bits ≤ 16 → buffer.bytes.length = 2 * wanted
  of_le_32 : ∀ {code wanted input buffer}, decoder code wanted input = .ok buffer →
    17 ≤ code.bits → code.bits ≤ 32 → buffer.bytes.length = 4 * wanted

theorem length_of_entropyDecoder {code : Aec.Parameters} {wanted : Nat} {input : Bytes}
    {buffer : Buffer} (h : entropyDecoder code wanted input = .ok buffer) :
    buffer.bytes.length = wanted * code.sampleSize := by
  unfold entropyDecoder at h
  split at h
  · next hDecoded =>
    obtain rfl := Except.ok.inj h
    exact Aec.length_decode hDecoded
  · cases h

theorem exact_entropyDecoder : entropyDecoder.Exact where
  of_le_8 h hBits := by
    rw [length_of_entropyDecoder h, Aec.Parameters.sampleSize, if_pos hBits, Nat.mul_one]
  of_le_16 h hMore hBits := by
    rw [length_of_entropyDecoder h, Aec.Parameters.sampleSize, if_neg (by omega), if_pos hBits,
      Nat.mul_comm]
  of_le_32 h hMore hBits := by
    rw [length_of_entropyDecoder h, Aec.Parameters.sampleSize, if_neg (by omega),
      if_neg (by omega), Nat.mul_comm]

/-! ## Parameters -/

/-- The parameters that are refused: there are too few of them, or one of the three after the
options is out of range. -/
def Refused (params : List UInt32) : Prop :=
  params.length < 4 ∨
    (∃ bits, params[1]? = some bits ∧
      ¬(1 ≤ bits.toNat ∧ bits.toNat ≤ 24 ∨ bits = 32 ∨ bits = 64)) ∨
    (∃ pixels, params[2]? = some pixels ∧
      (pixels = 0 ∨ pixels.toNat % 2 = 1 ∨ 32 < pixels.toNat)) ∨
    params[3]? = some 0

theorem isPixelWidth_iff {bits : UInt32} :
    isPixelWidth bits.toNat = true ↔
      1 ≤ bits.toNat ∧ bits.toNat ≤ 24 ∨ bits = 32 ∨ bits = 64 := by
  simp [isPixelWidth, ← UInt32.toNat_inj, or_assoc]

theorem isBlockLength_iff {pixels : UInt32} :
    isBlockLength pixels.toNat = true ↔
      ¬(pixels = 0 ∨ pixels.toNat % 2 = 1 ∨ 32 < pixels.toNat) := by
  simp [isBlockLength, ← UInt32.toNat_inj, and_assoc]

theorem refused_cons_iff {options bits pixels scanline : UInt32} {rest : List UInt32} :
    Refused (options :: bits :: pixels :: scanline :: rest) ↔
      ¬ isPixelWidth bits.toNat = true ∨ ¬ isBlockLength pixels.toNat = true ∨ scanline = 0 := by
  have hEnough : ¬ (options :: bits :: pixels :: scanline :: rest).length < 4 := by simp
  simp only [Refused, hEnough, false_or, List.getElem?_cons_zero, List.getElem?_cons_succ,
    Option.some.injEq, exists_eq_left', isPixelWidth_iff, isBlockLength_iff, not_not]

/-- Parameters are refused, or the first four of them are what the filter goes by. -/
theorem ofParams_cases (params : List UInt32) :
    (Refused params ∧ ∃ error, Parameters.ofParams params = .error error) ∨
      ¬ Refused params ∧ ∃ options bits pixels scanline rest,
        params = options :: bits :: pixels :: scanline :: rest ∧
        Parameters.ofParams params =
          .ok ⟨options, bits.toNat, pixels.toNat, scanline.toNat⟩ := by
  match params with
  | options :: bits :: pixels :: scanline :: rest =>
    rw [refused_cons_iff, Parameters.ofParams]
    split
    · next hBits => exact .inl ⟨.inl (by simpa using hBits), _, rfl⟩
    · next hBits =>
      split
      · next hPixels => exact .inl ⟨.inr (.inl (by simpa using hPixels)), _, rfl⟩
      · next hPixels =>
        split
        · next hScanline => exact .inl ⟨.inr (.inr hScanline), _, rfl⟩
        · next hScanline =>
          refine .inr ⟨?_, _, _, _, _, _, rfl, rfl⟩
          rw [not_or, not_or]
          exact ⟨by simpa using hBits, by simpa using hPixels, hScanline⟩
  | [] => exact .inl ⟨.inl (by simp), _, rfl⟩
  | [_] => exact .inl ⟨.inl (by simp), _, rfl⟩
  | [_, _] => exact .inl ⟨.inl (by simp), _, rfl⟩
  | [_, _, _] => exact .inl ⟨.inl (by simp), _, rfl⟩

/-! ## Samples and bytes -/

theorem bytesPerSample_pos (bits : Nat) : 0 < bytesPerSample bits := by
  unfold bytesPerSample
  split
  · decide
  · split <;> decide

/-- The samples hold the bytes, and one sample less would not. -/
theorem sampleCount_mul (bits size : Nat) :
    size ≤ sampleCount bits size * bytesPerSample bits ∧
      sampleCount bits size * bytesPerSample bits < size + bytesPerSample bits := by
  have hPos := bytesPerSample_pos bits
  have hSplit := Nat.div_add_mod (size + bytesPerSample bits - 1) (bytesPerSample bits)
  have hRest := Nat.mod_lt (size + bytesPerSample bits - 1) hPos
  rw [Nat.mul_comm] at hSplit
  rw [sampleCount]
  omega

/-- The filter counts the bytes of a sample as the decoder does. -/
theorem length_of_exact {decoder : EntropyDecoder} (hDecoder : decoder.Exact)
    {code : Aec.Parameters} (hBits : code.bits ≤ 32) {wanted : Nat} {input : Bytes}
    {buffer : Buffer} (h : decoder code wanted input = .ok buffer) :
    buffer.bytes.length = wanted * bytesPerSample code.bits := by
  unfold bytesPerSample
  split
  · next hByte => rw [hDecoder.of_le_8 h hByte, Nat.mul_one]
  · split
    · next hMore hTwo => rw [hDecoder.of_le_16 h (by omega) hTwo, Nat.mul_comm]
    · next hMore => rw [hDecoder.of_le_32 h (by omega) hBits, Nat.mul_comm]

/-- What the decoder gives is enough, and less than a sample too much. -/
theorem decodeBytes_of_ok {decoder : EntropyDecoder} (hDecoder : decoder.Exact)
    {code : Aec.Parameters} (hBits : code.bits ≤ 32) {size : Nat} {input : Bytes} {buffer : Buffer}
    (h : decoder code (sampleCount code.bits size) input = .ok buffer) :
    decodeBytes decoder code size input = .ok (buffer.truncate size) ∧
      size ≤ buffer.bytes.length ∧ buffer.bytes.length < size + bytesPerSample code.bits := by
  obtain ⟨hEnough, hLess⟩ := sampleCount_mul code.bits size
  rw [← length_of_exact hDecoder hBits h] at hEnough hLess
  refine ⟨?_, hEnough, hLess⟩
  rw [decodeBytes, h]
  exact if_neg (Nat.not_lt.mpr hEnough)

theorem external_of_decodeBytes {decoder : EntropyDecoder} {code : Aec.Parameters} {size : Nat}
    {input : Bytes} {error : CodecError} (h : decodeBytes decoder code size input = .error error) :
    ∃ reason, error = .external entropyDecoderName reason := by
  unfold decodeBytes at h
  split at h
  · exact ⟨_, (Except.error.inj h).symm⟩
  · split at h
    · exact ⟨_, (Except.error.inj h).symm⟩
    · cases h

theorem decodeBytes_of_error {decoder : EntropyDecoder} {code : Aec.Parameters} {size : Nat}
    {input : Bytes} {reason : String}
    (h : decoder code (sampleCount code.bits size) input = .error reason) :
    decodeBytes decoder code size input = .error (.external entropyDecoderName reason) := by
  rw [decodeBytes, h]

section
variable {parameters : Parameters}

theorem shuffledSize?_of_narrow (h : parameters.bitsPerPixel ≤ 24) :
    parameters.shuffledSize? = none := by
  rw [Parameters.shuffledSize?, if_neg (by omega), if_neg (by omega)]

/-- Narrow pixels are the samples. -/
theorem code_bits_of_narrow (h : parameters.bitsPerPixel ≤ 24) :
    parameters.code.bits = parameters.bitsPerPixel := by
  show (if parameters.shuffledSize?.isSome then 8 else _) = _
  rw [shuffledSize?_of_narrow h]
  rfl

/-- Samples of wide pixels are bytes. -/
theorem code_bits_of_wide {pixelSize : Nat} (h : parameters.shuffledSize? = some pixelSize) :
    parameters.code.bits = 8 := by
  show (if parameters.shuffledSize?.isSome then 8 else _) = _
  rw [h]
  rfl

/-- Pixels are narrow, or of one of two widths. -/
theorem width_cases (h : isPixelWidth parameters.bitsPerPixel = true) :
    parameters.bitsPerPixel ≤ 24 ∨
      (parameters.bitsPerPixel = 32 ∧ parameters.shuffledSize? = some 4) ∨
      parameters.bitsPerPixel = 64 ∧ parameters.shuffledSize? = some 8 := by
  simp only [isPixelWidth, Bool.or_eq_true, Bool.and_eq_true, decide_eq_true_eq, beq_iff_eq,
    or_assoc] at h
  rcases h with ⟨-, hNarrow⟩ | h32 | h64
  · exact .inl hNarrow
  · exact .inr (.inl ⟨h32, if_pos h32⟩)
  · refine .inr (.inr ⟨h64, ?_⟩)
    rw [Parameters.shuffledSize?, if_neg (by omega), if_pos h64]

theorem code_bits_le (h : isPixelWidth parameters.bitsPerPixel = true) :
    parameters.code.bits ≤ 32 := by
  rcases width_cases h with hNarrow | ⟨-, hSize⟩ | ⟨-, hSize⟩
  · rw [code_bits_of_narrow hNarrow]
    omega
  · rw [code_bits_of_wide hSize]
    decide
  · rw [code_bits_of_wide hSize]
    decide

end

/-- Puts the bytes of wide pixels back in order, if there is memory for them. -/
def Parameters.ordered (parameters : Parameters) (memory : Memory) (bytes : Bytes) :
    Except CodecError Bytes :=
  match parameters.shuffledSize? with
  | some pixelSize => (Shuffle.unshuffleCopy memory pixelSize bytes).map Buffer.bytes
  | none => .ok bytes

theorem allocation_of_ordered {memory : Memory} {parameters : Parameters} {bytes : Bytes}
    {error : CodecError} (h : parameters.ordered memory bytes = .error error) :
    error = .allocation bytes.length := by
  unfold Parameters.ordered at h
  split at h
  · cases hMemory : memory.allows bytes.length with
    | true =>
      rw [Shuffle.unshuffleCopy_of_allows hMemory] at h
      cases h
    | false =>
      rw [Shuffle.unshuffleCopy_of_not_allows hMemory] at h
      exact (Except.error.inj h).symm
  · cases h

/-! ## Requests -/

section
variable {memory : Memory} {decoder : EntropyDecoder} {request : DecodeRequest}
  (hReverse : request.flags.contains .reverse = true)
include hReverse

theorem run_of_refused {error : ParameterError}
    (h : Parameters.ofParams request.params = .error error) :
    (filter memory decoder).run request = .error (.invalidParameters name error.message) := by
  have hDecode : (filter memory decoder).decode request = decode memory decoder request :=
    Filter.decodeOnly_of_reverse hReverse _
  rw [Filter.run, hDecode, decode, h]
  rfl

theorem run_of_short {parameters : Parameters}
    (h : Parameters.ofParams request.params = .ok parameters)
    (hShort : request.input.length < sizeLength) :
    (filter memory decoder).run request =
      .error (.invalidData "szip input is shorter than its size prefix" (some 0)) := by
  have hDecode : (filter memory decoder).decode request = decode memory decoder request :=
    Filter.decodeOnly_of_reverse hReverse _
  rw [Filter.run, hDecode, decode, h]
  dsimp only
  rw [if_pos hShort]
  rfl

theorem run_of_sizeLength_le {parameters : Parameters}
    (h : Parameters.ofParams request.params = .ok parameters)
    (hEnough : sizeLength ≤ request.input.length) :
    (filter memory decoder).run request =
      decodeBytes decoder parameters.code (Bytes.bigEndian (request.input.take sizeLength))
        (request.input.drop sizeLength) >>= fun decoded =>
          parameters.ordered memory decoded.bytes := by
  have hDecode : (filter memory decoder).decode request = decode memory decoder request :=
    Filter.decodeOnly_of_reverse hReverse _
  rw [Filter.run, hDecode, decode, h]
  dsimp only
  rw [if_neg (Nat.not_lt.mpr hEnough)]
  cases decodeBytes decoder parameters.code (Bytes.bigEndian (request.input.take sizeLength))
    (request.input.drop sizeLength) with
  | error error => rfl
  | ok decoded =>
    simp only [bind, Except.bind, Parameters.ordered]
    cases parameters.shuffledSize? with
    | none => rfl
    | some pixelSize =>
      dsimp only
      cases Shuffle.unshuffleCopy memory pixelSize decoded.bytes <;> rfl

/-- Parameters that are not refused are not blamed for anything. -/
theorem run_ne_invalidParameters {parameters : Parameters}
    (h : Parameters.ofParams request.params = .ok parameters) (filterName reason : String) :
    (filter memory decoder).run request ≠ .error (.invalidParameters filterName reason) := by
  by_cases hEnough : sizeLength ≤ request.input.length
  · rw [run_of_sizeLength_le hReverse h hEnough]
    cases hBytes : decodeBytes decoder parameters.code
        (Bytes.bigEndian (request.input.take sizeLength)) (request.input.drop sizeLength) with
    | error error =>
      obtain ⟨_, rfl⟩ := external_of_decodeBytes hBytes
      exact nofun
    | ok decoded =>
      intro hRun
      have hOrdered : parameters.ordered memory decoded.bytes = _ := hRun
      cases allocation_of_ordered hOrdered
  · rw [run_of_short hReverse h (Nat.lt_of_not_le hEnough)]
    exact nofun

end

/-- What a chunk of the given size comes to, of the `bytes` that were decoded: the size is that of
the output, what is cut off is less than a sample, and the output is what is left, or, with wide
pixels, what is left after it has been shuffled. -/
structure Framed (bitsPerPixel size : Nat) (bytes out : Bytes) : Prop where
  length_eq : out.length = size
  size_le : size ≤ bytes.length
  /-- With samples of one byte, nothing is cut off. -/
  length_of_byte : bitsPerPixel ≤ 8 ∨ 24 < bitsPerPixel → bytes.length = size
  /-- With samples of two bytes, no more than one byte is. -/
  length_of_two : 9 ≤ bitsPerPixel → bitsPerPixel ≤ 16 → bytes.length < size + 2
  /-- With samples of four bytes, no more than three are. -/
  length_of_four : 17 ≤ bitsPerPixel → bitsPerPixel ≤ 24 → bytes.length < size + 4
  of_narrow : bitsPerPixel ≤ 24 → out = bytes.take size
  of_32 : bitsPerPixel = 32 → Shuffle.shuffle 4 out = bytes.take size
  of_64 : bitsPerPixel = 64 → Shuffle.shuffle 8 out = bytes.take size

theorem shuffle_unshuffle (size : Nat) (bytes : Bytes) :
    Shuffle.shuffle size (Shuffle.unshuffle size bytes) = bytes :=
  (Shuffle.shuffled_shuffle size _).unique (Shuffle.shuffled_unshuffle size bytes)

section
variable {memory : Memory} {parameters : Parameters} {size : Nat} {bytes : Bytes}
  (hEnough : size ≤ bytes.length)
  (hLess : bytes.length < size + bytesPerSample parameters.code.bits)
include hEnough hLess

theorem framed_of_narrow (h : parameters.bitsPerPixel ≤ 24) :
    Framed parameters.bitsPerPixel size bytes (bytes.take size) := by
  rw [code_bits_of_narrow h, bytesPerSample] at hLess
  refine ⟨List.length_take_of_le hEnough, hEnough, ?_, ?_, ?_, fun _ => rfl, ?_, ?_⟩
  · intro hByte
    rw [if_pos (by omega)] at hLess
    omega
  · intro hMore hTwo
    rwa [if_neg (by omega), if_pos hTwo] at hLess
  · intro hMore _
    rwa [if_neg (by omega), if_neg (by omega)] at hLess
  · intro hWide
    omega
  · intro hWide
    omega

theorem framed_of_wide {pixelSize : Nat} (hSize : parameters.shuffledSize? = some pixelSize)
    (hWide : parameters.bitsPerPixel = 32 ∧ pixelSize = 4 ∨
      parameters.bitsPerPixel = 64 ∧ pixelSize = 8) :
    Framed parameters.bitsPerPixel size bytes
      (Shuffle.unshuffle pixelSize (bytes.take size)) := by
  have hByte : bytesPerSample parameters.code.bits = 1 := by
    rw [code_bits_of_wide hSize]
    rfl
  refine ⟨?_, hEnough, ?_, ?_, ?_, ?_, ?_, ?_⟩
  · rw [Shuffle.length_unshuffle, List.length_take_of_le hEnough]
  · intro _
    omega
  · intro _ hTwo
    omega
  · intro _ hFour
    omega
  · intro hNarrow
    omega
  · intro h32
    obtain rfl : pixelSize = 4 := by omega
    exact shuffle_unshuffle 4 _
  · intro h64
    obtain rfl : pixelSize = 8 := by omega
    exact shuffle_unshuffle 8 _

theorem exists_framed (hWidth : isPixelWidth parameters.bitsPerPixel = true)
    (hMemory : parameters.bitsPerPixel ≤ 24 ∨ memory.allows size = true) :
    ∃ out, parameters.ordered memory (bytes.take size) = .ok out ∧
      Framed parameters.bitsPerPixel size bytes out := by
  have hTake : (bytes.take size).length = size := List.length_take_of_le hEnough
  have hOrdered : ∀ pixelSize, parameters.shuffledSize? = some pixelSize →
      24 < parameters.bitsPerPixel → parameters.ordered memory (bytes.take size) =
        .ok (Shuffle.unshuffle pixelSize (bytes.take size)) := by
    intro pixelSize hSize hWide
    have hAllows := hMemory.resolve_left (Nat.not_le.mpr hWide)
    rw [Parameters.ordered, hSize]
    dsimp only
    rw [Shuffle.unshuffleCopy_of_allows (by rwa [hTake])]
    rfl
  rcases width_cases hWidth with hNarrow | ⟨h32, hSize⟩ | ⟨h64, hSize⟩
  · refine ⟨_, ?_, framed_of_narrow hEnough hLess hNarrow⟩
    rw [Parameters.ordered, shuffledSize?_of_narrow hNarrow]
  · exact ⟨_, hOrdered 4 hSize (by omega), framed_of_wide hEnough hLess hSize (.inl ⟨h32, rfl⟩)⟩
  · exact ⟨_, hOrdered 8 hSize (by omega), framed_of_wide hEnough hLess hSize (.inr ⟨h64, rfl⟩)⟩

end

theorem ordered_of_not_allows {memory : Memory} {parameters : Parameters} {bytes : Bytes}
    (hWidth : isPixelWidth parameters.bitsPerPixel = true) (hWide : 24 < parameters.bitsPerPixel)
    (hMemory : memory.allows bytes.length = false) :
    parameters.ordered memory bytes = .error (.allocation bytes.length) := by
  unfold Parameters.ordered
  rcases width_cases hWidth with hNarrow | ⟨-, hSize⟩ | ⟨-, hSize⟩
  · omega
  · rw [hSize]
    dsimp only
    rw [Shuffle.unshuffleCopy_of_not_allows hMemory]
    rfl
  · rw [hSize]
    dsimp only
    rw [Shuffle.unshuffleCopy_of_not_allows hMemory]
    rfl

/-- There is room for every size that a chunk can state, where 47 bits can be addressed. -/
theorem allows_stated (input : Bytes) :
    Memory.standard.allows (Bytes.bigEndian (input.take sizeLength)) = true := by
  have hStated := Bytes.littleEndian_lt (input.take sizeLength).reverse
  have hFour : (input.take sizeLength).reverse.length ≤ sizeLength := by
    rw [List.length_reverse]
    exact List.length_take_le sizeLength input
  rw [Bytes.bigEndian_eq]
  refine Memory.standard.allows_of_le (Nat.le_of_lt (Nat.lt_of_lt_of_le hStated ?_))
    (by decide : Memory.standard.allows (256 ^ sizeLength) = true)
  exact Nat.pow_le_pow_right (by decide) hFour

/-! ## Main statement -/

/-- Parameters are refused exactly if there are too few of them or they are out of range. With
others and an input that holds a size, the output is what the entropy decoder makes of the rest,
brought to that size, and there is no failure but those of the decoder itself, unless the bytes of
wide pixels have no memory to be brought in order in. -/
theorem run_framed {decoder : EntropyDecoder} (hDecoder : decoder.Exact) (memory : Memory)
    {request : DecodeRequest} (hReverse : request.flags.contains .reverse = true) :
    ((∃ filterName reason, (filter memory decoder).run request =
        .error (.invalidParameters filterName reason)) ↔ Refused request.params) ∧
      ∀ options bits pixels scanline rest,
        request.params = options :: bits :: pixels :: scanline :: rest →
        ¬ Refused request.params → sizeLength ≤ request.input.length →
          let parameters : Parameters :=
            ⟨options, bits.toNat, pixels.toNat, scanline.toNat⟩
          let size := Bytes.bigEndian (request.input.take sizeLength)
          let decoded := decoder parameters.code (sampleCount parameters.code.bits size)
            (request.input.drop sizeLength)
          (∀ reason, decoded = .error reason →
            (filter memory decoder).run request =
              .error (.external entropyDecoderName reason)) ∧
          ∀ buffer, decoded = .ok buffer →
            (bits.toNat ≤ 24 ∨ memory.allows size = true →
              ∃ out, (filter memory decoder).run request = .ok out ∧
                Framed bits.toNat size buffer.bytes out) ∧
            (24 < bits.toNat → memory.allows size = false →
              (filter memory decoder).run request = .error (.allocation size)) := by
  rcases ofParams_cases request.params with ⟨hRefused, error, hError⟩ |
    ⟨hAccepted, options, bits, pixels, scanline, rest, hParams, hOk⟩
  · refine ⟨⟨fun _ => hRefused, fun _ => ⟨_, _, run_of_refused hReverse hError⟩⟩, ?_⟩
    intro _ _ _ _ _ _ hAccepted
    exact absurd hRefused hAccepted
  · refine ⟨⟨?_, fun hRefused => absurd hRefused hAccepted⟩, ?_⟩
    · rintro ⟨filterName, reason, hRun⟩
      exact absurd hRun (run_ne_invalidParameters hReverse hOk filterName reason)
    · intro _ _ _ _ _ hSame _ hEnough parameters size decoded
      cases hParams.symm.trans hSame
      have hWidth : isPixelWidth parameters.bitsPerPixel = true := by
        rw [hParams, refused_cons_iff, not_or, not_not] at hAccepted
        exact hAccepted.1
      have hRun : (filter memory decoder).run request = _ :=
        run_of_sizeLength_le hReverse hOk hEnough
      refine ⟨?_, ?_⟩
      · intro reason hReason
        rw [hRun, decodeBytes_of_error hReason]
        rfl
      · intro buffer hBuffer
        obtain ⟨hDecoded, hSize, hLess⟩ :=
          decodeBytes_of_ok hDecoder (code_bits_le hWidth) hBuffer
        rw [hRun, hDecoded]
        refine ⟨exists_framed hSize hLess hWidth, ?_⟩
        intro hWide hMemory
        have hTake : (buffer.bytes.take size).length = size := List.length_take_of_le hSize
        have hRefused : parameters.ordered memory (buffer.bytes.take size) = _ :=
          ordered_of_not_allows hWidth hWide (by rwa [hTake])
        rw [hTake] at hRefused
        exact hRefused

/-- Eleven bytes of pixels of 32 bits, the first eleven samples of a raw block: those of the two
whole pixels are interleaved, and the other three are in place. Three bytes of pixels of 12 bits and
five bytes of pixels of 24 bits, both from two samples. Blocks of seven pixels are refused, and so
are the wide pixels without memory for eleven bytes. -/
theorem run_framed_leftover :
    let request (bits pixels : UInt32) (input : Bytes) : DecodeRequest :=
      { flags := .reverse, params := [0, bits, pixels, 16], input, sizeHint := 16
        options := ⟨true⟩ }
    let parameters (bits : Nat) : Parameters := ⟨0, bits, 16, 16⟩
    let wide : Bytes := [0, 0, 0, 11,
      0xe0, 0x00, 0x80, 0x20, 0xa0, 0x40, 0xc0, 0x60, 0xe1, 0x01, 0x21, 0x40]
    let twelve : Bytes := [0, 0, 0, 3, 0xf1, 0x23, 0x45, 0x60]
    let twentyFour : Bytes := [0, 0, 0, 5, 0xf8, 0x08, 0x10, 0x18, 0x20, 0x28, 0x30]
    let scarce : Memory := .below 11 (by decide) (by decide)
    let run (memory : Memory) := (filter memory entropyDecoder).run
    entropyDecoder.Exact ∧
      (∀ bits pixels input, (request bits pixels input).flags.contains .reverse = true) ∧
      (∀ bits ∈ [32, 12, 24], ¬ Refused (request bits 16 []).params) ∧
      (∀ input ∈ [wide, twelve, twentyFour], sizeLength ≤ input.length) ∧
      entropyDecoder (parameters 32).code 11 (wide.drop sizeLength) =
        .ok (Buffer.exact [0, 4, 1, 5, 2, 6, 3, 7, 8, 9, 10]) ∧
      (∃ out, run .standard (request 32 16 wide) = .ok out ∧
        Framed 32 11 [0, 4, 1, 5, 2, 6, 3, 7, 8, 9, 10] out) ∧
      run scarce (request 32 16 wide) = .error (.allocation 11) ∧
      (∃ out, run .standard (request 12 16 twelve) = .ok out ∧
        Framed 12 3 [0x23, 0x01, 0x56, 0x04] out) ∧
      (∃ out, run .standard (request 24 16 twentyFour) = .ok out ∧
        Framed 24 5 [0x03, 0x02, 0x01, 0, 0x06, 0x05, 0x04, 0] out) ∧
      ∃ filterName reason,
        run .standard (request 32 7 wide) = .error (.invalidParameters filterName reason) := by
  intro request parameters wide twelve twentyFour scarce run
  have hReverse : ∀ bits pixels input,
      (request bits pixels input).flags.contains .reverse = true := by
    intro bits pixels input
    show FilterFlags.reverse.contains .reverse = true
    decide
  have hAccepted : ∀ bits ∈ [32, 12, 24], ¬ Refused (request bits 16 []).params := by
    intro bits hBits
    rw [refused_cons_iff]
    obtain rfl | rfl | rfl : bits = 32 ∨ bits = 12 ∨ bits = 24 := by simpa using hBits
    all_goals decide
  have hRefused : Refused (request 32 7 wide).params := by
    rw [refused_cons_iff]
    decide
  have hDecoded : entropyDecoder (parameters 32).code 11 (wide.drop sizeLength) =
      .ok (Buffer.exact [0, 4, 1, 5, 2, 6, 3, 7, 8, 9, 10]) := by decide +kernel
  have hTwelve : entropyDecoder (parameters 12).code 2 (twelve.drop sizeLength) =
      .ok (Buffer.exact [0x23, 0x01, 0x56, 0x04]) := by decide +kernel
  have hTwentyFour : entropyDecoder (parameters 24).code 2 (twentyFour.drop sizeLength) =
      .ok (Buffer.exact [0x03, 0x02, 0x01, 0, 0x06, 0x05, 0x04, 0]) := by decide +kernel
  have hFramed : ∀ (memory : Memory) (bits : UInt32) (input decoded : Bytes) (size wanted : Nat),
      ¬ Refused (request bits 16 input).params → sizeLength ≤ input.length →
      Bytes.bigEndian (input.take sizeLength) = size ∧
        sampleCount (parameters bits.toNat).code.bits size = wanted →
      entropyDecoder (parameters bits.toNat).code wanted (input.drop sizeLength) =
        .ok (Buffer.exact decoded) →
      (bits.toNat ≤ 24 ∨ memory.allows size = true →
          ∃ out, run memory (request bits 16 input) = .ok out ∧
            Framed bits.toNat size decoded out) ∧
        (24 < bits.toNat → memory.allows size = false →
          run memory (request bits 16 input) = .error (.allocation size)) := by
    intro memory bits input decoded size wanted hAccepted hEnough hSize hDecoded
    obtain ⟨rfl, rfl⟩ := hSize
    exact ((run_framed exact_entropyDecoder memory (hReverse bits 16 input)).2 0 bits 16 16 [] rfl
      hAccepted hEnough).2 _ hDecoded
  have hWideFramed := fun memory => hFramed memory 32 wide _ 11 11 (hAccepted 32 (by decide))
    (by decide) (by decide) hDecoded
  have hTwelveFramed := hFramed .standard 12 twelve _ 3 2 (hAccepted 12 (by decide))
    (by decide) (by decide) hTwelve
  have hTwentyFourFramed := hFramed .standard 24 twentyFour _ 5 2 (hAccepted 24 (by decide))
    (by decide) (by decide) hTwentyFour
  obtain ⟨hRefuses, -⟩ := run_framed exact_entropyDecoder .standard (hReverse 32 7 wide)
  exact ⟨exact_entropyDecoder, hReverse, hAccepted, by decide, hDecoded,
    (hWideFramed .standard).1 (.inr (allows_stated wide)),
    (hWideFramed scarce).2 (by decide) (by decide), hTwelveFramed.1 (.inl (by decide)),
    hTwentyFourFramed.1 (.inl (by decide)), hRefuses.mpr hRefused⟩

end ChunkFilters.Szip
