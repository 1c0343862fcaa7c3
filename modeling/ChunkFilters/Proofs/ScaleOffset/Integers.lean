import ChunkFilters.Proofs.ScaleOffset.Chunk
import ChunkFilters.Proofs.ScaleOffset.Unpacking
import Mathlib.Data.List.Forall2

/-!
# Integers restored from their offsets

An integer is stored as a code of a few bits: its offset from the minimum, modulo the width of the
element, or all ones in place of the fill value. `Coded` says which codes stand for a value, and
leaves the choice open where a fill value also has an offset.

* `ofParams_of_describes`: the parameters say what was written;
* `reconstruct_of_coded`: a code is reconstructed to the value that it stands for;
* `decodeElements_of_coded`: the same for all codes of a payload;
* `run_restores_integers`: the filter restores the elements, in their stored byte order.

Packed values as wide as the elements are not coded at all, but copied.
-/

namespace ChunkFilters.ScaleOffset

/-! ## Parameters -/

/-- A fill value as it is written: whether there is one, and the words that begin with it. -/
inductive FillWritten (kind : ElementKind) : UInt32 → List UInt32 → Option Nat → Prop
  | absent (words : List UInt32) : FillWritten kind 0 words none
  /-- What a word has above the width of the element is ignored. -/
  | low {declared : UInt32} (hDeclared : declared ≠ 0) (hSize : kind.size ≤ 4) (low : UInt32)
      (rest : List UInt32) :
    FillWritten kind declared (low :: rest) (some (low.toNat % 2 ^ kind.bits))
  | wide {declared : UInt32} (hDeclared : declared ≠ 0) (hSize : kind.size = 8)
      (low high : UInt32) (rest : List UInt32) :
    FillWritten kind declared (low :: high :: rest) (some (low.toNat + 2 ^ 32 * high.toNat))

/-- Parameters of `count` integers. The scale factor has no meaning for them. -/
structure Describes (kind : ElementKind) (order : ByteOrder) (count : UInt32) (fill : Option Nat)
    (params : List UInt32) : Prop where
  isInteger : kind.elementClass = .integer
  params_eq : ∃ (scaleFactor declared : UInt32) (words : List UInt32),
    params = 2 :: scaleFactor :: count :: 0 :: UInt32.ofNat kind.size ::
      (if kind.isSigned then 1 else 0) :: order.code :: declared :: words ∧
    FillWritten kind declared words fill

theorem fillValue_of_written {kind : ElementKind} {declared : UInt32} {words : List UInt32}
    {fill : Option Nat} (h : FillWritten kind declared words fill) :
    fillValue declared words kind.size = .ok fill := by
  unfold fillValue
  cases h with
  | absent words => rfl
  | low hDeclared hSize low rest =>
    rw [if_neg hDeclared, Word.ofParameters?_low kind.size_pos hSize, kind.two_pow_bits]
  | wide hDeclared hSize low high rest =>
    rw [if_neg hDeclared, hSize, Word.ofParameters?_wide]

theorem lt_of_written {kind : ElementKind} {declared : UInt32} {words : List UInt32} {value : Nat}
    (h : FillWritten kind declared words (some value)) : value < 2 ^ kind.bits := by
  cases h with
  | low hDeclared hSize low rest => exact Nat.mod_lt _ (Nat.two_pow_pos kind.bits)
  | wide hDeclared hSize low high rest =>
    have hLow : low.toNat < 2 ^ 32 := low.toNat_lt
    have hHigh : high.toNat < 2 ^ 32 := high.toNat_lt
    have hBits : kind.bits = 64 := by rw [ElementKind.bits, hSize]
    rw [hBits]
    omega

theorem elementKind_of_integer {kind : ElementKind} (h : kind.elementClass = .integer) :
    elementKind .integer kind.isSigned (UInt32.ofNat kind.size) = .ok kind := by
  cases kind <;> first | rfl | cases h

theorem isSigned_code (signed : Bool) : isSigned (if signed then 1 else 0) = .ok signed := by
  cases signed <;> rfl

theorem ofParams_of_describes {kind : ElementKind} {order : ByteOrder} {count : UInt32}
    {fill : Option Nat} {params : List UInt32} (h : Describes kind order count fill params) :
    ∃ scaleFactor, Parameters.ofParams params =
      .ok { scaleFactor, elements := count.toNat, kind, order, fill } := by
  obtain ⟨scaleFactor, declared, words, rfl, hFill⟩ := h.params_eq
  have hOrder : byteOrder order.code = .ok order := by
    rw [byteOrder, ByteOrder.ofParameter?_code]
  have hScaling : scaleType 2 = .ok .integer := rfl
  have hClass : elementClass .integer 2 0 = .ok .integer := rfl
  refine ⟨scaleFactor.toBitVec.toInt, ?_⟩
  simp only [Parameters.ofParams, hScaling, hClass, isSigned_code,
    elementKind_of_integer h.isInteger, hOrder, fillValue_of_written hFill, bind, Except.bind]
  rfl

/-- A fill value, and a number modulo the width of the element, fit into an element. -/
theorem Describes.getD_lt {kind : ElementKind} {order : ByteOrder} {count : UInt32}
    {fill : Option Nat} {params : List UInt32} (h : Describes kind order count fill params)
    (value : Nat) : fill.getD (value % 2 ^ kind.bits) < 2 ^ kind.bits := by
  obtain ⟨_, _, _, _, hFill⟩ := h.params_eq
  cases fill with
  | none => exact Nat.mod_lt value (Nat.two_pow_pos kind.bits)
  | some value => exact lt_of_written hFill

/-! ## Codes -/

/-- A code of `packedBits` bits stands for a value. -/
inductive Coded (bits packedBits minimum : Nat) (fill : Option Nat) : Nat → Nat → Prop
  /-- The offset from the minimum. All ones is not an offset if it stands for a fill value. -/
  | offset {value code : Nat} (hCode : code < 2 ^ packedBits)
      (hOffset : (code : Int) = ((value : Int) - minimum) % (2 ^ bits : Nat))
      (hFree : ∀ other, fill = some other → code = 2 ^ packedBits - 1 → value = other) :
    Coded bits packedBits minimum fill value code
  | ones {value : Nat} (hFill : fill = some value) :
    Coded bits packedBits minimum fill value (2 ^ packedBits - 1)

theorem Coded.lt {bits packedBits minimum : Nat} {fill : Option Nat} {value code : Nat}
    (h : Coded bits packedBits minimum fill value code) : code < 2 ^ packedBits := by
  cases h with
  | offset hCode _ _ => exact hCode
  | ones _ => exact Nat.sub_lt (Nat.two_pow_pos packedBits) Nat.one_pos

/-- The only code without bits stands for the fill value if there is one, else for the minimum. -/
theorem coded_without_bits (bits minimum : Nat) (fill : Option Nat) :
    Coded bits 0 minimum fill (fill.getD (minimum % 2 ^ bits)) 0 := by
  cases fill with
  | none =>
    refine .offset Nat.one_pos ?_ ?_
    · rw [Option.getD_none, Int.natCast_emod, Int.emod_sub_emod, Int.sub_self, Int.zero_emod]
      rfl
    · intro other hOther
      cases hOther
  | some value => exact .ones rfl

theorem forall₂_replicate {α β : Type} {related : α → β → Prop} {first : α} {second : β}
    (h : related first second) (count : Nat) :
    List.Forall₂ related (List.replicate count first) (List.replicate count second) := by
  induction count with
  | zero => exact .nil
  | succ count ih => exact .cons h ih

/-- Adding the minimum undoes the subtraction. -/
theorem offsetInteger_of_offset {bits minimum value code : Nat} (hValue : value < 2 ^ bits)
    (hOffset : (code : Int) = ((value : Int) - minimum) % (2 ^ bits : Nat)) :
    offsetInteger bits minimum code = value := by
  have hSum : ((code + minimum : Nat) : Int) % (2 ^ bits : Nat) =
      (value : Int) % (2 ^ bits : Nat) := by
    rw [Int.natCast_add, hOffset, Int.emod_add_emod, Int.sub_add_cancel]
  have hSum : (code + minimum) % 2 ^ bits = value % 2 ^ bits := by
    exact_mod_cast hSum
  rw [offsetInteger, Nat.one_shiftLeft, hSum, Nat.mod_eq_of_lt hValue]

theorem sentinel_eq {packedBits : Nat} (h : packedBits ≤ 64) :
    sentinel packedBits = 2 ^ packedBits - 1 := by
  rw [sentinel, Word.lowMask, Nat.min_eq_left h, Nat.one_shiftLeft]

section
variable {parameters : Parameters} (hClass : parameters.kind.elementClass = .integer)

theorem reconstruct_sentinel {fill : Nat} (hFill : parameters.fill = some fill)
    (packedBits minimum : Nat) :
    reconstruct parameters packedBits minimum (sentinel packedBits) = fill := by
  unfold reconstruct
  rw [hFill, decide_eq_true rfl]

include hClass in
theorem reconstruct_of_ne {packedBits code : Nat} (hCode : code ≠ sentinel packedBits)
    (minimum : Nat) :
    reconstruct parameters packedBits minimum code =
      offsetInteger parameters.kind.bits minimum code := by
  unfold reconstruct
  rw [decide_eq_false hCode]
  revert hClass
  cases parameters.fill <;> cases parameters.kind <;> intro hClass <;> first | rfl | cases hClass

include hClass in
/-- A code of all ones is the fill value where there is one, and an offset where there is none. -/
theorem reconstruct_of_coded {packedBits minimum value code : Nat} (hPacked : packedBits ≤ 64)
    (hValue : value < 2 ^ parameters.kind.bits)
    (h : Coded parameters.kind.bits packedBits minimum parameters.fill value code) :
    reconstruct parameters packedBits minimum code = value := by
  cases h with
  | offset hCode hOffset hFree =>
    cases hFill : parameters.fill with
    | none =>
      rw [reconstruct_integer hFill hClass, offsetInteger_of_offset hValue hOffset]
    | some fill =>
      by_cases hOnes : code = 2 ^ packedBits - 1
      · rw [hOnes, ← sentinel_eq hPacked, reconstruct_sentinel hFill]
        exact (hFree fill hFill hOnes).symm
      · rw [← sentinel_eq hPacked] at hOnes
        rw [reconstruct_of_ne hClass hOnes, offsetInteger_of_offset hValue hOffset]
  | ones hFill =>
    rw [← sentinel_eq hPacked]
    exact reconstruct_sentinel hFill packedBits minimum

/-! ## Payloads -/

include hClass in
theorem map_reconstruct_of_coded {packedBits minimum : Nat} (hPacked : packedBits ≤ 64)
    {values codes : List Nat} (hValues : ∀ value ∈ values, value < 2 ^ parameters.kind.bits)
    (hCoded : List.Forall₂
      (Coded parameters.kind.bits packedBits minimum parameters.fill) values codes) :
    codes.map (reconstruct parameters packedBits minimum) = values := by
  induction hCoded with
  | nil => rfl
  | @cons value code values codes hFirst _ ih =>
    have hValue := reconstruct_of_coded hClass hPacked (hValues value List.mem_cons_self) hFirst
    rw [List.map_cons, hValue,
      ih fun other hOther => hValues other (List.mem_cons_of_mem value hOther)]

include hClass in
theorem decodeElements_of_coded {header : Header} (hBits : header.packedBits < parameters.kind.bits)
    {values codes : List Nat} (hCount : values.length = parameters.elements)
    (hValues : ∀ value ∈ values, value < 2 ^ parameters.kind.bits)
    (hCoded : List.Forall₂
      (Coded parameters.kind.bits header.packedBits header.minimum parameters.fill) values codes)
    {payload : Bytes} (hPayload : codes.flatMap (numberBits header.packedBits) <+:
      Bytes.bits payload) :
    decodeElements parameters header payload =
      .ok (values.map (Bytes.toLittleEndian parameters.kind.size)).flatten := by
  have hCodes : ∀ code ∈ codes, code < 2 ^ header.packedBits := by
    have hBoth := hCoded.flip.imp fun _ _ hCode => And.intro hCode.lt hCode
    exact ((List.forall₂_and_left codes values).mp hBoth).1
  have hPacked : header.packedBits ≤ 64 :=
    Nat.le_trans (Nat.le_of_lt hBits) parameters.kind.bits_le_64
  rw [decodeElements_of_codes hBits (hCoded.length_eq.symm.trans hCount) hCodes hPayload,
    ← map_reconstruct_of_coded hClass hPacked hValues hCoded, List.map_map, List.flatMap_def]
  rfl

end

/-! ## Main statement -/

/-- Decoding inverts the encoding of integers, if there is memory for them. Values narrower than the
elements are restored from their codes, which may be followed by anything; codes without bits need
no payload. Values as wide as the elements are copied, and only their byte order changes. -/
theorem run_restores_integers (memory : Memory) {kind : ElementKind} {order : ByteOrder}
    {count : UInt32} {fill : Option Nat} {request : DecodeRequest}
    (hReverse : request.flags.contains .reverse = true)
    (hParams : Describes kind order count fill request.params)
    {packedBits : Nat} {declaredSize : UInt8} {minimum padding payload : Bytes}
    (hMinimum : minimum.length = min declaredSize.toNat Word.maxSize)
    (hPadding : minimum.length + padding.length = 16)
    (hInput : request.input = Bytes.toLittleEndian 4 packedBits ++
      declaredSize :: (minimum ++ padding) ++ payload) :
    (packedBits < kind.bits → ∀ values codes : List Nat, values.length = count.toNat →
      (∀ value ∈ values, value < 2 ^ kind.bits) →
      List.Forall₂ (Coded kind.bits packedBits (Bytes.littleEndian minimum) fill) values codes →
      codes.flatMap (numberBits packedBits) <+: Bytes.bits payload →
        (filter memory).run request =
          memory.holding (values.flatMap (storedBytes kind order))) ∧
    (packedBits = 0 →
      (filter memory).run request = memory.holding ((List.replicate count.toNat
        (fill.getD (Bytes.littleEndian minimum % 2 ^ kind.bits))).flatMap
          (storedBytes kind order))) ∧
    (packedBits = kind.bits → count.toNat * kind.size ≤ payload.length →
      ∃ elements : List Bytes, elements.length = count.toNat ∧
        (∀ element ∈ elements, element.length = kind.size) ∧
        elements.flatten = payload.take (count.toNat * kind.size) ∧
        (filter memory).run request = memory.holding (elements.flatMap order.arrange)) := by
  obtain ⟨scaleFactor, hParameters⟩ := ofParams_of_describes hParams
  have hClass := hParams.isInteger
  have hRun : packedBits ≤ kind.bits → ∀ elements : Bytes,
      decodeElements ⟨scaleFactor, count.toNat, kind, order, fill⟩
        ⟨packedBits, Bytes.littleEndian minimum⟩ payload = .ok elements →
      elements.length = count.toNat * kind.size →
        (filter memory).run request = memory.holding (toOrder order kind.size elements) := by
    intro hBits elements hElements hLength
    have hFour : packedBits < 256 ^ 4 :=
      Nat.lt_of_le_of_lt (Nat.le_trans hBits kind.bits_le_64) (by decide)
    rw [← drop_headerSize hPadding hInput] at hElements
    exact run_of_decodeElements hReverse hParameters
      (ofInput_of_parts hMinimum hPadding hInput hFour) hElements hLength memory
  have hNarrow : packedBits < kind.bits → ∀ values codes : List Nat,
      values.length = count.toNat → (∀ value ∈ values, value < 2 ^ kind.bits) →
      List.Forall₂ (Coded kind.bits packedBits (Bytes.littleEndian minimum) fill) values codes →
      codes.flatMap (numberBits packedBits) <+: Bytes.bits payload →
        (filter memory).run request =
          memory.holding (values.flatMap (storedBytes kind order)) := by
    intro hBits values codes hCount hValues hCoded hPayload
    have hDecode : decodeElements ⟨scaleFactor, count.toNat, kind, order, fill⟩
        ⟨packedBits, Bytes.littleEndian minimum⟩ payload =
          .ok (values.map (Bytes.toLittleEndian kind.size)).flatten :=
      decodeElements_of_coded hClass hBits hCount hValues hCoded hPayload
    have hLength : (values.map (Bytes.toLittleEndian kind.size)).flatten.length =
        count.toNat * kind.size := by
      rw [Bytes.length_flatten (length_of_mem_values kind.size values), List.length_map, hCount]
    rw [hRun (Nat.le_of_lt hBits) _ hDecode hLength, toOrder_values]
  refine ⟨hNarrow, ?_, ?_⟩
  · intro hZero
    subst hZero
    have hBits : 0 < kind.bits := Nat.mul_pos (by decide) kind.size_pos
    apply hNarrow hBits _ (List.replicate count.toNat 0) List.length_replicate
    · intro value hValue
      rw [List.eq_of_mem_replicate hValue]
      exact hParams.getD_lt _
    · exact forall₂_replicate (coded_without_bits kind.bits _ fill) count.toNat
    · have hNone : (List.replicate count.toNat 0).flatMap (numberBits 0) = [] :=
        List.flatMap_eq_nil_iff.mpr fun _ _ => rfl
      rw [hNone]
      exact List.nil_prefix
  · intro hBits hPayload
    have hLength : (payload.take (count.toNat * kind.size)).length = count.toNat * kind.size := by
      rw [List.length_take, Nat.min_eq_left hPayload]
    obtain ⟨elements, hCount, hElements, hFlatten⟩ := Bytes.exists_elements hLength
    refine ⟨elements, hCount, hElements, hFlatten, ?_⟩
    have hDecode : decodeElements ⟨scaleFactor, count.toNat, kind, order, fill⟩
        ⟨packedBits, Bytes.littleEndian minimum⟩ payload =
          .ok (payload.take (count.toNat * kind.size)) := decodeElements_verbatim hBits hPayload
    rw [hRun (Nat.le_of_eq hBits) _ hDecode hLength, ← toOrder_flatten hElements, hFlatten]

/-- Four signed integers of two bytes, in three bits each and big endian: the minimum -3, 2, a fill
value and -1. The header declares nine bytes for the minimum and has eight of them, which are more
than an element has, and the fill value is the low half of its parameter. -/
theorem run_restores_integers_int16 :
    let minimum : Bytes := [0xfd, 0xff, 0xff, 0xff, 0xff, 0xff, 0xff, 0xff]
    let padding : Bytes := [1, 2, 3, 4, 5, 6, 7, 8]
    let payload : Bytes := [0x17, 0xaf, 0xff]
    let request : DecodeRequest :=
      { flags := .reverse, params := [2, 0, 4, 0, 2, 1, 1, 1, 0xaaaa8000],
        input := Bytes.toLittleEndian 4 3 ++ 9 :: (minimum ++ padding) ++ payload, sizeHint := 0,
        options := ⟨true⟩ }
    Describes .int16 .big 4 (some 0x8000) request.params ∧
      List.Forall₂ (Coded 16 3 (Bytes.littleEndian minimum) (some 0x8000))
        [0xfffd, 2, 0x8000, 0xffff] [0, 5, 7, 2] ∧
      [0, 5, 7, 2].flatMap (numberBits 3) <+: Bytes.bits payload ∧
      (filter .standard).run request = .ok [0xff, 0xfd, 0x00, 0x02, 0x80, 0x00, 0xff, 0xff] := by
  intro minimum padding payload request
  have hParams : Describes .int16 .big 4 (some 0x8000) request.params :=
    ⟨rfl, 0, 1, [0xaaaa8000], rfl, .low (by decide) (by decide) 0xaaaa8000 []⟩
  have hCoded : List.Forall₂ (Coded 16 3 (Bytes.littleEndian minimum) (some 0x8000))
      [0xfffd, 2, 0x8000, 0xffff] [0, 5, 7, 2] := by
    refine .cons (.offset (by decide) (by decide) ?_) (.cons (.offset (by decide) (by decide) ?_)
      (.cons (.ones rfl) (.cons (.offset (by decide) (by decide) ?_) .nil)))
    all_goals
      intro other _ hOnes
      cases hOnes
  have hPayload : [0, 5, 7, 2].flatMap (numberBits 3) <+: Bytes.bits payload := by decide
  refine ⟨hParams, hCoded, hPayload, ?_⟩
  obtain ⟨hNarrow, -, -⟩ := run_restores_integers .standard (by decide) hParams rfl rfl rfl
  have hRun := hNarrow (by decide) [0xfffd, 2, 0x8000, 0xffff] [0, 5, 7, 2] rfl (by decide) hCoded
    hPayload
  exact hRun.trans (Memory.holding_of_allows (by decide))

end ChunkFilters.ScaleOffset
