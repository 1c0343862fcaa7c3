import ChunkFilters.Proofs.Bits.Unpacking
import ChunkFilters.Proofs.Nbit.Grammar
import ChunkFilters.Proofs.ScaleOffset.Chunk
import ChunkFilters.Proofs.ScaleOffset.Unpacking

/-!
# Which chunks have all their elements

Whether there are enough packed values shows only while they are unpacked, one after the other. It
comes down to a count of bits all the same: a run of values that does not fit between the current
bit and the end of the payload fails at the end, whichever value it is that is cut off. Values
without bits need none, and values as wide as the elements are counted in bytes.

* `readMany_unpackValue_end`: values that do not fit, from any bit of a payload;
* `decodeElements_of_enough`: values that fit, and the bytes of the payload that they depend on;
* `run_acceptance`: what is decoded, what is refused and where, for integers and floating point
  numbers alike.
-/

namespace ChunkFilters

open BitCursor (ofPosition exhaustedAt)

/-! ## Bits of the front of a string -/

theorem Bytes.bits_take_prefix_bits (bytes : Bytes) (count : Nat) :
    Bytes.bits (bytes.take count) <+: Bytes.bits bytes := by
  refine ⟨Bytes.bits (bytes.drop count), ?_⟩
  rw [Bytes.bits, Bytes.bits, ← List.flatMap_append, List.take_append_drop]
  rfl

/-- Bits that a string starts with are in the bytes that they fill or begin. -/
theorem Bytes.prefix_bits_of_take_eq {bits : List Bool} {first second : Bytes}
    (hPrefix : bits <+: Bytes.bits first)
    (h : second.take ((bits.length + 7) / 8) = first.take ((bits.length + 7) / 8)) :
    bits <+: Bytes.bits second := by
  have hLength : bits.length ≤ (Bytes.bits (first.take ((bits.length + 7) / 8))).length := by
    have hLe := hPrefix.length_le
    rw [Bytes.length_bits] at hLe
    rw [Bytes.length_bits, List.length_take]
    omega
  have hBytes : bits <+: Bytes.bits (first.take ((bits.length + 7) / 8)) :=
    List.prefix_of_prefix_length_le hPrefix (bits_take_prefix_bits first _) hLength
  exact (h ▸ hBytes).trans (bits_take_prefix_bits second _)

namespace ScaleOffset

/-! ## Packed values -/

/-- Any bits are packed values, if there are enough of them. -/
theorem exists_codes {packedBits count : Nat} {bits : List Bool}
    (h : count * packedBits ≤ bits.length) :
    ∃ codes : List Nat, codes.length = count ∧ (∀ code ∈ codes, code < 2 ^ packedBits) ∧
      codes.flatMap (numberBits packedBits) = bits.take (count * packedBits) := by
  induction count generalizing bits with
  | zero =>
    refine ⟨[], rfl, List.forall_mem_nil _, ?_⟩
    rw [Nat.zero_mul, List.take_zero, List.flatMap_nil]
  | succ count ih =>
    rw [Nat.succ_mul, Nat.add_comm] at h
    have hFirst : (bits.take packedBits).length = packedBits := by
      rw [List.length_take]
      omega
    have hLt := numberOfBits_lt (bits.take packedBits)
    have hBits := numberBits_numberOfBits (bits.take packedBits)
    rw [hFirst] at hLt hBits
    have hRest : count * packedBits ≤ (bits.drop packedBits).length := by
      rw [List.length_drop]
      omega
    obtain ⟨codes, hCount, hCodes, hPacked⟩ := ih hRest
    refine ⟨numberOfBits (bits.take packedBits) :: codes, ?_, ?_, ?_⟩
    · rw [List.length_cons, hCount]
    · exact List.forall_mem_cons.mpr ⟨hLt, hCodes⟩
    · rw [List.flatMap_cons, hBits, hPacked, Nat.succ_mul, Nat.add_comm, List.take_add]

section
variable {kind : ElementKind} {packedBits : Nat} (hPos : 0 < packedBits)
  (hBits : packedBits ≤ kind.bits) {payload : Bytes}
include hPos hBits

theorem valid_packedLayout : (packedLayout kind packedBits).Valid :=
  ⟨kind.size_pos, hPos, hBits⟩

/-- A value takes as many bits as it has. -/
theorem unpackValue_ofPosition {start : Nat} (hEnough : start + packedBits ≤ 8 * payload.length) :
    ∃ value, unpackValue kind packedBits (ofPosition payload start) =
      .ok (value, ofPosition payload (start + packedBits)) := by
  obtain ⟨element, hOk, -⟩ :=
    PackedAtomic.unpack_ofPosition (valid_packedLayout hPos hBits) hEnough
  have hOk : (packedLayout kind packedBits).unpack 0 (Array.replicate kind.size 0)
      (ofPosition payload start) = .ok (element, ofPosition payload (start + packedBits)) := hOk
  refine ⟨Word.read element.toList, ?_⟩
  unfold unpackValue
  rw [hOk]

theorem unpackValue_ofPosition_end {start : Nat} (hStart : start ≤ 8 * payload.length)
    (hShort : 8 * payload.length < start + packedBits) :
    unpackValue kind packedBits (ofPosition payload start) = .error (exhaustedAt payload) := by
  obtain ⟨written, hError, -⟩ :=
    PackedAtomic.unpack_ofPosition_end (valid_packedLayout hPos hBits) hStart hShort
  have hError : (packedLayout kind packedBits).unpack 0 (Array.replicate kind.size 0)
      (ofPosition payload start) = .error ⟨exhaustedAt payload, written⟩ := hError
  unfold unpackValue
  rw [hError]

/-- Values that do not fit into the rest of a payload. The induction is on the values; each that is
unpacked leaves the others that much less. -/
theorem readMany_unpackValue_end {count start : Nat} (hStart : start ≤ 8 * payload.length)
    (hShort : 8 * payload.length < start + count * packedBits) (done : Array Nat) :
    BitCursor.readMany (unpackValue kind packedBits) count (ofPosition payload start) done =
      .error (exhaustedAt payload) := by
  induction count generalizing start done with
  | zero => omega
  | succ count ih =>
    rw [Nat.succ_mul count, Nat.add_comm (count * packedBits), ← Nat.add_assoc] at hShort
    rw [BitCursor.readMany]
    by_cases hEnough : start + packedBits ≤ 8 * payload.length
    · obtain ⟨value, hOk⟩ := unpackValue_ofPosition hPos hBits hEnough
      rw [hOk]
      exact ih hEnough hShort (done.push value)
    · rw [unpackValue_ofPosition_end hPos hBits hStart (Nat.lt_of_not_le hEnough)]

end

theorem unpackValues_end {kind : ElementKind} {packedBits count : Nat}
    (hBits : packedBits ≤ kind.bits) {payload : Bytes}
    (hShort : 8 * payload.length < count * packedBits) :
    unpackValues kind packedBits count payload = .error (exhaustedAt payload) := by
  have hPos : 0 < packedBits := by
    apply Nat.pos_of_ne_zero
    rintro rfl
    omega
  have hStart : 8 * payload.length < 0 + count * packedBits := by rwa [Nat.zero_add]
  unfold unpackValues
  rw [if_neg (Nat.ne_of_gt hPos), ← BitCursor.ofPosition_zero,
    readMany_unpackValue_end hPos hBits (Nat.zero_le _) hStart]

/-! ## Elements -/

theorem length_of_mem_written {size : Nat} {values : List Nat} {word : Nat → Nat} :
    ∀ element ∈ values.map fun value => Bytes.toLittleEndian size (word value),
      element.length = size := by
  intro element hElement
  obtain ⟨value, -, rfl⟩ := List.mem_map.mp hElement
  exact Bytes.length_toLittleEndian size (word value)

theorem length_flatMap_toLittleEndian (size : Nat) (values : List Nat) (word : Nat → Nat) :
    (values.flatMap fun value => Bytes.toLittleEndian size (word value)).length =
      values.length * size := by
  rw [List.flatMap_def, Bytes.length_flatten length_of_mem_written, List.length_map]

theorem take_flatMap_toLittleEndian (size : Nat) (values : List Nat) (word : Nat → Nat)
    (count : Nat) :
    (values.flatMap fun value => Bytes.toLittleEndian size (word value)).take (count * size) =
      (values.take count).flatMap fun value => Bytes.toLittleEndian size (word value) := by
  rw [List.flatMap_def, Bytes.take_flatten length_of_mem_written, ← List.map_take,
    ← List.flatMap_def]

/-- There are values for all elements in a payload of the given length. -/
def Enough (parameters : Parameters) (packedBits length : Nat) : Prop :=
  packedBits < parameters.kind.bits ∧ parameters.elements * packedBits ≤ 8 * length ∨
    packedBits = parameters.kind.bits ∧ parameters.elements * parameters.kind.size ≤ length

section
variable {parameters : Parameters} {header : Header} {payload : Bytes}

/-- The bytes after the last one with a packed value may be any. -/
theorem decodeElements_of_enough (h : Enough parameters header.packedBits payload.length) :
    ∃ elements : Bytes, elements.length = parameters.elements * parameters.kind.size ∧
      ∀ other : Bytes, other.take ((parameters.elements * header.packedBits + 7) / 8) =
          payload.take ((parameters.elements * header.packedBits + 7) / 8) →
        decodeElements parameters header other = .ok elements := by
  rcases h with ⟨hBits, hEnough⟩ | ⟨hBits, hEnough⟩
  · rw [← Bytes.length_bits] at hEnough
    obtain ⟨codes, hCount, hCodes, hPacked⟩ := exists_codes hEnough
    refine ⟨codes.flatMap fun code => Bytes.toLittleEndian parameters.kind.size
      (reconstruct parameters header.packedBits header.minimum code), ?_, ?_⟩
    · rw [length_flatMap_toLittleEndian, hCount]
    · intro other hOther
      have hLength : (codes.flatMap (numberBits header.packedBits)).length =
          parameters.elements * header.packedBits := by
        rw [hPacked, List.length_take, Nat.min_eq_left hEnough]
      have hPayload : codes.flatMap (numberBits header.packedBits) <+: Bytes.bits payload :=
        hPacked ▸ List.take_prefix _ _
      rw [← hLength] at hOther
      exact decodeElements_of_codes hBits hCount hCodes
        (Bytes.prefix_bits_of_take_eq hPayload hOther)
  · have hNeeded : (parameters.elements * header.packedBits + 7) / 8 =
        parameters.elements * parameters.kind.size := by
      rw [hBits, ElementKind.bits, Nat.mul_left_comm]
      omega
    have hLength : (payload.take (parameters.elements * parameters.kind.size)).length =
        parameters.elements * parameters.kind.size := by
      rw [List.length_take, Nat.min_eq_left hEnough]
    refine ⟨payload.take (parameters.elements * parameters.kind.size), hLength, ?_⟩
    intro other hOther
    rw [hNeeded] at hOther
    have hOtherLength : parameters.elements * parameters.kind.size ≤ other.length := by
      rw [← hOther, List.length_take] at hLength
      omega
    rw [decodeElements_verbatim hBits hOtherLength, hOther]

/-- What is short fails at the end of the payload, or at its start if the values are not packed. -/
theorem decodeElements_end (hBits : header.packedBits < parameters.kind.bits)
    (hShort : 8 * payload.length < parameters.elements * header.packedBits) :
    ∃ message, decodeElements parameters header payload =
      .error (.invalidData message (some (headerSize + payload.length))) := by
  refine ⟨(exhaustedAt payload).message, ?_⟩
  unfold decodeElements
  dsimp only
  rw [if_neg (Nat.ne_of_lt hBits), if_neg (Nat.not_lt.mpr (Nat.le_of_lt hBits)),
    unpackValues_end (Nat.le_of_lt hBits) hShort]
  rfl

theorem decodeElements_verbatim_short (hBits : header.packedBits = parameters.kind.bits)
    (hShort : payload.length < parameters.elements * parameters.kind.size) :
    ∃ message, decodeElements parameters header payload =
      .error (.invalidData message (some headerSize)) := by
  unfold decodeElements
  dsimp only
  rw [if_pos hBits, if_pos hShort]
  exact ⟨_, rfl⟩

theorem decodeElements_wide (hBits : parameters.kind.bits < header.packedBits) :
    ∃ message, decodeElements parameters header payload =
      .error (.invalidData message (some 0)) := by
  unfold decodeElements
  dsimp only
  rw [if_neg (Nat.ne_of_gt hBits), if_pos hBits]
  exact ⟨_, rfl⟩

end

/-! ## Requests -/

/-- The number of bits of a packed value, as an input has it. -/
def statedBits (input : Bytes) : Nat := Bytes.littleEndian (input.take 4)

/-- The number of bytes of the minimum that an input has. It may declare more. -/
def minimumSize (input : Bytes) : Nat :=
  min (Bytes.littleEndian ((input.drop 4).take 1)) Word.maxSize

/-- The header of an input that is long enough. -/
def statedHeader (input : Bytes) : Header :=
  ⟨statedBits input, Word.read ((input.drop 5).take (minimumSize input))⟩

theorem ofInput_eq_ok {input : Bytes} (h : headerSize ≤ input.length) :
    Header.ofInput input = .ok (statedHeader input) := by
  unfold Header.ofInput
  rw [if_neg (Nat.not_lt.mpr h)]
  rfl

/-- Two inputs agree in what is looked at: the header up to the end of the minimum, and the bytes
with packed values. -/
structure Agree (parameters : Parameters) (first second : Bytes) : Prop where
  headerSize_le : headerSize ≤ second.length
  front_eq : second.take 5 = first.take 5
  minimum_eq :
    (second.drop 5).take (minimumSize first) = (first.drop 5).take (minimumSize first)
  values_eq :
    (second.drop headerSize).take ((parameters.elements * statedBits first + 7) / 8) =
      (first.drop headerSize).take ((parameters.elements * statedBits first + 7) / 8)

theorem statedHeader_eq {parameters : Parameters} {first second : Bytes}
    (h : Agree parameters first second) : statedHeader second = statedHeader first := by
  have hBits : second.take 4 = first.take 4 := by
    have hTake := congrArg (List.take 4) h.front_eq
    rwa [List.take_take, List.take_take] at hTake
  have hDeclared : (second.drop 4).take 1 = (first.drop 4).take 1 := by
    have hDrop := congrArg (List.drop 4) h.front_eq
    rwa [List.drop_take, List.drop_take] at hDrop
  have hSize : minimumSize second = minimumSize first := by
    rw [minimumSize, hDeclared, minimumSize]
  rw [statedHeader, statedHeader, statedBits, hBits, hSize, h.minimum_eq, statedBits]

section
variable {memory : Memory} {request : DecodeRequest}
  (hReverse : request.flags.contains .reverse = true)
  {parameters : Parameters} (hParams : Parameters.ofParams request.params = .ok parameters)
include hReverse hParams

theorem run_of_short (hShort : request.input.length < headerSize) :
    ∃ message, (filter memory).run request = .error (.invalidData message (some 0)) := by
  have hHeader : ∃ message,
      Header.ofInput request.input = .error (.invalidData message (some 0)) := by
    unfold Header.ofInput
    rw [if_pos hShort]
    exact ⟨_, rfl⟩
  obtain ⟨message, hHeader⟩ := hHeader
  have hDecode : (filter memory).decode request = decode memory request :=
    Filter.decodeOnly_of_reverse hReverse _
  refine ⟨message, ?_⟩
  rw [Filter.run, hDecode]
  unfold decode
  rw [hParams]
  simp only [hHeader]
  rfl

variable (hOutput : memory.allows (parameters.elements * parameters.kind.size) = true)
include hOutput

theorem run_of_headerSize_le (hLength : headerSize ≤ request.input.length) :
    (filter memory).run request =
      (decodeElements parameters (statedHeader request.input)
        (request.input.drop headerSize)).map (toOrder parameters.order parameters.kind.size) :=
  run_of_allows hReverse hParams (ofInput_eq_ok hLength) hOutput

theorem run_of_decodeElements_error (hLength : headerSize ≤ request.input.length) {offset : Nat}
    (h : ∃ message, decodeElements parameters (statedHeader request.input)
      (request.input.drop headerSize) = .error (.invalidData message (some offset))) :
    ∃ message, (filter memory).run request = .error (.invalidData message (some offset)) := by
  obtain ⟨message, hError⟩ := h
  refine ⟨message, ?_⟩
  rw [run_of_headerSize_le hReverse hParams hOutput hLength, hError]
  rfl

theorem run_of_wide (hLength : headerSize ≤ request.input.length)
    (hBits : parameters.kind.bits < statedBits request.input) :
    ∃ message, (filter memory).run request = .error (.invalidData message (some 0)) :=
  run_of_decodeElements_error hReverse hParams hOutput hLength (decodeElements_wide hBits)

theorem run_of_verbatim_short (hLength : headerSize ≤ request.input.length)
    (hBits : statedBits request.input = parameters.kind.bits)
    (hShort : request.input.length - headerSize < parameters.elements * parameters.kind.size) :
    ∃ message, (filter memory).run request = .error (.invalidData message (some headerSize)) := by
  rw [← List.length_drop] at hShort
  exact run_of_decodeElements_error hReverse hParams hOutput hLength
    (decodeElements_verbatim_short hBits hShort)

theorem run_of_packed_short (hLength : headerSize ≤ request.input.length)
    (hBits : statedBits request.input < parameters.kind.bits)
    (hShort : 8 * (request.input.length - headerSize) <
      parameters.elements * statedBits request.input) :
    ∃ message, (filter memory).run request =
      .error (.invalidData message (some request.input.length)) := by
  have hEnd : headerSize + (request.input.drop headerSize).length = request.input.length := by
    rw [List.length_drop, Nat.add_sub_cancel' hLength]
  rw [← List.length_drop] at hShort
  rw [← hEnd]
  exact run_of_decodeElements_error hReverse hParams hOutput hLength
    (decodeElements_end hBits hShort)

end

/-- With enough values, what is decoded is a matter of what is looked at. -/
theorem run_of_enough {memory : Memory} {request : DecodeRequest} {parameters : Parameters}
    (hParams : Parameters.ofParams request.params = .ok parameters)
    (hOutput : memory.allows (parameters.elements * parameters.kind.size) = true)
    (hEnough : Enough parameters (statedHeader request.input).packedBits
      (request.input.length - headerSize)) :
    ∃ out : Bytes, out.length = parameters.elements * parameters.kind.size ∧
      ∀ other : DecodeRequest, other.flags.contains .reverse = true →
        other.params = request.params → Agree parameters request.input other.input →
          (filter memory).run other = .ok out := by
  rw [← List.length_drop] at hEnough
  obtain ⟨elements, hSize, hDecode⟩ := decodeElements_of_enough hEnough
  refine ⟨toOrder parameters.order parameters.kind.size elements, ?_, ?_⟩
  · rw [length_toOrder, hSize]
  · intro other hOther hSame hAgree
    rw [run_of_headerSize_le hOther (hSame ▸ hParams) hOutput hAgree.headerSize_le,
      statedHeader_eq hAgree, hDecode _ hAgree.values_eq]
    rfl

/-! ## Main statement -/

/-- Described elements are decoded exactly from the inputs that have a header and values for all of
them. What is decoded has their size and depends on nothing that is not looked at. A header that is
not there or that claims too many bits is an error at the start of the input, missing whole elements
one after the header, and missing packed values one at the end. -/
theorem run_acceptance {memory : Memory} {request : DecodeRequest}
    (hReverse : request.flags.contains .reverse = true) {parameters : Parameters}
    (hParams : Parameters.ofParams request.params = .ok parameters)
    (hOutput : memory.allows (parameters.elements * parameters.kind.size) = true) :
    ((∃ out, (filter memory).run request = .ok out) ↔
      headerSize ≤ request.input.length ∧
        Enough parameters (statedBits request.input) (request.input.length - headerSize)) ∧
    (∀ out, (filter memory).run request = .ok out →
      out.length = parameters.elements * parameters.kind.size ∧
      ∀ other : DecodeRequest, other.flags.contains .reverse = true →
        other.params = request.params → Agree parameters request.input other.input →
          (filter memory).run other = .ok out) ∧
    (request.input.length < headerSize →
      ∃ message, (filter memory).run request = .error (.invalidData message (some 0))) ∧
    (headerSize ≤ request.input.length → parameters.kind.bits < statedBits request.input →
      ∃ message, (filter memory).run request = .error (.invalidData message (some 0))) ∧
    (headerSize ≤ request.input.length → statedBits request.input = parameters.kind.bits →
      request.input.length - headerSize < parameters.elements * parameters.kind.size →
        ∃ message, (filter memory).run request = .error (.invalidData message (some headerSize))) ∧
    (headerSize ≤ request.input.length → statedBits request.input < parameters.kind.bits →
      8 * (request.input.length - headerSize) < parameters.elements * statedBits request.input →
        ∃ message, (filter memory).run request =
          .error (.invalidData message (some request.input.length))) := by
  have hIff : (∃ out, (filter memory).run request = .ok out) ↔
      headerSize ≤ request.input.length ∧
        Enough parameters (statedBits request.input) (request.input.length - headerSize) := by
    constructor
    · rintro ⟨out, hRun⟩
      have hNone : ∀ offset,
          ¬ ∃ message,
            (filter memory).run request = .error (.invalidData message (some offset)) := by
        rintro offset ⟨message, hError⟩
        rw [hRun] at hError
        cases hError
      have hLength : headerSize ≤ request.input.length :=
        Nat.le_of_not_lt fun hShort => hNone 0 (run_of_short hReverse hParams hShort)
      refine ⟨hLength, ?_⟩
      rcases Nat.lt_trichotomy (statedBits request.input) parameters.kind.bits with
        hBits | hBits | hBits
      · exact Or.inl ⟨hBits, Nat.le_of_not_lt fun hShort =>
          hNone _ (run_of_packed_short hReverse hParams hOutput hLength hBits hShort)⟩
      · exact Or.inr ⟨hBits, Nat.le_of_not_lt fun hShort =>
          hNone _ (run_of_verbatim_short hReverse hParams hOutput hLength hBits hShort)⟩
      · exact absurd (run_of_wide hReverse hParams hOutput hLength hBits) (hNone 0)
    · rintro ⟨hLength, hEnough⟩
      obtain ⟨out, -, hRun⟩ := run_of_enough hParams hOutput hEnough
      exact ⟨out, hRun request hReverse rfl ⟨hLength, rfl, rfl, rfl⟩⟩
  refine ⟨hIff, ?_, run_of_short hReverse hParams, run_of_wide hReverse hParams hOutput,
    run_of_verbatim_short hReverse hParams hOutput, run_of_packed_short hReverse hParams hOutput⟩
  intro out hRun
  obtain ⟨hLength, hEnough⟩ := hIff.mp ⟨out, hRun⟩
  obtain ⟨found, hSize, hFound⟩ := run_of_enough hParams hOutput hEnough
  have hSame : found = out := by
    rw [hFound request hReverse rfl ⟨hLength, rfl, rfl, rfl⟩] at hRun
    exact Except.ok.inj hRun
  rw [← hSame]
  exact ⟨hSize, hFound⟩

/-- Three floating point numbers of five bits each. With two bytes they are decoded, whatever
follows them and whatever the header holds after the minimum; the second byte is needed. -/
theorem run_acceptance_float32 :
    let request (padding : UInt8) (payload : Bytes) : DecodeRequest :=
      { flags := .reverse, params := [0, 2, 3, 1, 4, 0, 0, 0],
        input := [5, 0, 0, 0, 4, 0, 0, 0x80, 0x3f] ++ List.replicate 12 padding ++ payload,
        sizeHint := 0, options := ⟨true⟩ }
    Parameters.ofParams (request 0 []).params = .ok ⟨2, 3, .float32, .little, none⟩ ∧
      Memory.standard.allows (3 * 4) = true ∧
      (∃ out, (filter .standard).run (request 0 [0x12, 0x34]) = .ok out ∧ out.length = 12 ∧
        (filter .standard).run (request 0xff [0x12, 0x34, 0x56]) = .ok out) ∧
      ∃ message, (filter .standard).run (request 0 [0x12]) =
        .error (.invalidData message (some 22)) := by
  intro request
  have hParams : ∀ payload, Parameters.ofParams (request 0 payload).params =
      .ok ⟨2, 3, .float32, .little, none⟩ := fun _ => rfl
  have hOutput : Memory.standard.allows (3 * 4) = true := by decide
  refine ⟨hParams [], hOutput, ?_, ?_⟩
  · obtain ⟨hIff, hDecoded, -⟩ := run_acceptance (by decide) (hParams [0x12, 0x34]) hOutput
    obtain ⟨out, hRun⟩ := hIff.mpr ⟨by decide, Or.inl ⟨by decide, by decide⟩⟩
    obtain ⟨hSize, hOthers⟩ := hDecoded out hRun
    exact ⟨out, hRun, hSize, hOthers _ (by decide) rfl ⟨by decide, rfl, rfl, by decide⟩⟩
  · obtain ⟨-, -, -, -, -, hShort⟩ := run_acceptance (by decide) (hParams [0x12]) hOutput
    exact hShort (by decide) (by decide) (by decide)

end ScaleOffset

end ChunkFilters
