import ChunkFilters.Proofs.Bits.Mirrored
import ChunkFilters.Proofs.Nbit.Acceptance
import ChunkFilters.Proofs.ScaleOffset.Integers
import Mathlib.Data.List.Permutation

/-!
# Integers packed in two ways

Integers of a few bits can be stored as offsets from a minimum of zero, or as elements of an atomic
datatype with as many significant bits. The payload is the same string of bits, but it is taken
apart in two ways: one filter unpacks each value in native order, reads it back as a word and
brings all words into the stored order at the end, the other unpacks into the stored order at once.

* `unpackLeaves_order`: unpacking into a byte order is unpacking a value and writing it in that
  order, and the input ends for both at the same place;
* `toOrder_reconstruct`: with a minimum of zero and no fill value, values are only written;
* `run_agrees_with_nbit`: the two filters give the same elements, or fail in the same way. Offsets
  into the input differ by the header that only one of them has.
-/

namespace ChunkFilters

/-- Reading items that are made of others, one by one, is making them of those that are read. -/
theorem BitCursor.readMany_map {ε α β : Type} {read : BitCursor → Except ε (α × BitCursor)}
    {made : BitCursor → Except ε (β × BitCursor)} (make : α → β)
    (h : ∀ cursor, made cursor = (read cursor).map fun result => (make result.1, result.2))
    (count : Nat) (cursor : BitCursor) (done : Array α) :
    readMany made count cursor (done.map make) =
      (readMany read count cursor done).map fun result => (result.1.map make, result.2) := by
  induction count generalizing cursor done with
  | zero => rfl
  | succ count ih =>
    rw [readMany, readMany, h]
    cases read cursor with
    | error error => rfl
    | ok result =>
      have hRest := ih result.2 (done.push result.1)
      rw [Array.map_push] at hRest
      exact hRest

theorem Bytes.toLittleEndian_mod (count value : Nat) :
    toLittleEndian count (value % 256 ^ count) = toLittleEndian count value := by
  have hWritten := toLittleEndian_littleEndian (toLittleEndian count value)
  rwa [length_toLittleEndian, littleEndian_toLittleEndian] at hWritten

namespace ScaleOffset

/-! ## One element -/

/-- The layout of a packed value in a given byte order. -/
def orderedLayout (kind : ElementKind) (order : ByteOrder) (packedBits : Nat) : PackedAtomic :=
  { packedLayout kind packedBits with order }

section
variable {kind : ElementKind} {packedBits : Nat} (hPos : 0 < packedBits)
  (hBits : packedBits ≤ kind.bits) (cursor : BitCursor)

include hPos hBits in
/-- The bytes of an element in big endian order are those in native order, reversed. -/
theorem unpackLeaves_big :
    Nbit.unpackLeaves [.atomic 0 (orderedLayout kind .big packedBits)]
        (Array.replicate kind.size 0, cursor) =
      (Nbit.unpackLeaves [packedLeaf kind packedBits] (Array.replicate kind.size 0, cursor)).map
        fun state => (state.1.reverse, state.2) := by
  have hValid : (packedLayout kind packedBits).Valid :=
    valid_packedLeaf hPos hBits _ List.mem_cons_self
  have hInside : ∀ slice ∈ (packedLayout kind packedBits).slices 0, slice.index < kind.size := by
    intro slice hSlice
    have hIndex := (PackedAtomic.index_of_mem_slices hValid 0 hSlice).2
    rwa [Nat.zero_add] at hIndex
  have hSize : (Array.replicate kind.size (0 : UInt8)).size = kind.size := Array.size_replicate
  have hMirrored := fill_mirrored hInside hSize cursor
  rw [Array.reverse_replicate] at hMirrored
  rw [Nbit.unpackLeaves_eq_fill, Nbit.unpackLeaves_eq_fill, List.flatMap_singleton,
    List.flatMap_singleton]
  show fill (PackedAtomic.slices { packedLayout kind packedBits with order := .big } 0) _ = _
  rw [PackedAtomic.slices_big rfl]
  exact hMirrored

/-- Reading a value back from the bytes that were unpacked and writing it again changes nothing. -/
theorem unpackLeaves_native :
    Nbit.unpackLeaves [packedLeaf kind packedBits] (Array.replicate kind.size 0, cursor) =
      (unpackValue kind packedBits cursor).map fun result =>
        ((Bytes.toLittleEndian kind.size result.1).toArray, result.2) := by
  rw [unpackValue_eq_map]
  cases hUnpack : Nbit.unpackLeaves [packedLeaf kind packedBits]
      (Array.replicate kind.size 0, cursor) with
  | error error => rfl
  | ok state =>
    have hLength : state.1.toList.length = kind.size := by
      rw [Array.length_toList, Nbit.size_unpackLeaves hUnpack, Array.size_replicate]
    have hRead : Word.read state.1.toList = Bytes.littleEndian state.1.toList :=
      Word.read_of_length_le (hLength ▸ kind.size_le_maxSize)
    have hWritten : Bytes.toLittleEndian kind.size (Word.read state.1.toList) =
        state.1.toList := by
      rw [hRead, ← hLength, Bytes.toLittleEndian_littleEndian]
    simp only [Except.map, hWritten, Array.toArray_toList]

include hPos hBits in
/-- Unpacking into a byte order is unpacking a value and writing it in that order. -/
theorem unpackLeaves_order (order : ByteOrder) :
    Nbit.unpackLeaves [.atomic 0 (orderedLayout kind order packedBits)]
        (Array.replicate kind.size 0, cursor) =
      (unpackValue kind packedBits cursor).map fun result =>
        ((storedBytes kind order result.1).toArray, result.2) := by
  cases order with
  | little => exact unpackLeaves_native cursor
  | big =>
    rw [unpackLeaves_big hPos hBits, unpackLeaves_native]
    cases unpackValue kind packedBits cursor with
    | error error => rfl
    | ok result => simp only [Except.map, List.reverse_toArray, storedBytes, ByteOrder.arrange]

end

/-! ## All elements -/

/-- With a minimum of zero and no fill value, what is unpacked is the element. -/
theorem toOrder_reconstruct (parameters : Parameters) (hFill : parameters.fill = none)
    (hClass : parameters.kind.elementClass = .integer) (packedBits : Nat) (values : List Nat) :
    toOrder parameters.order parameters.kind.size (values.flatMap fun value =>
        Bytes.toLittleEndian parameters.kind.size (reconstruct parameters packedBits 0 value)) =
      values.flatMap (storedBytes parameters.kind parameters.order) := by
  have hWritten : ∀ value, Bytes.toLittleEndian parameters.kind.size
      (reconstruct parameters packedBits 0 value) =
        Bytes.toLittleEndian parameters.kind.size value := by
    intro value
    rw [reconstruct_integer hFill hClass, offsetInteger, Nat.add_zero, Nat.one_shiftLeft,
      parameters.kind.two_pow_bits, Bytes.toLittleEndian_mod]
  simp only [hWritten]
  rw [List.flatMap_def, toOrder_values]

/-! ## The datatype of the elements -/

/-- Integers of which only the lowest bits are significant. -/
def integerDatatype (kind : ElementKind) (order : ByteOrder) (packedBits : UInt32) :
    Nbit.Datatype :=
  .atomic (UInt32.ofNat kind.size) order packedBits 0

theorem toNat_size (kind : ElementKind) : (UInt32.ofNat kind.size).toNat = kind.size := by
  cases kind <;> rfl

theorem size_integerDatatype (kind : ElementKind) (order : ByteOrder) (packedBits : UInt32) :
    (integerDatatype kind order packedBits).size = kind.size := toNat_size kind

theorem leaves_integerDatatype (kind : ElementKind) (order : ByteOrder) (packedBits : UInt32) :
    (integerDatatype kind order packedBits).leaves 0 =
      [.atomic 0 (orderedLayout kind order packedBits.toNat)] := by
  rw [integerDatatype, Nbit.Datatype.leaves, toNat_size]
  rfl

/-! ## Both filters -/

section
variable {kind : ElementKind} {order : ByteOrder} {count packedBits : UInt32}
  (hPos : 0 < packedBits.toNat) (hBits : packedBits.toNat < kind.bits)
include hPos hBits

/-- Values above a minimum of zero, as they are stored. -/
theorem run_of_minimum_zero {memory : Memory}
    (hOutput : memory.allows (count.toNat * kind.size) = true) {request : DecodeRequest}
    (hReverse : request.flags.contains .reverse = true)
    (hParams : Describes kind order count none request.params)
    (hHeader : Header.ofInput request.input = .ok ⟨packedBits.toNat, 0⟩) :
    (filter memory).run request =
      match BitCursor.readMany (unpackValue kind packedBits.toNat) count.toNat
          (.start (request.input.drop headerSize)) #[] with
      | .error error => .error (.invalidData error.message (some (headerSize + error.byteIndex)))
      | .ok (values, _) => .ok (values.toList.flatMap (storedBytes kind order)) := by
  obtain ⟨scaleFactor, hParameters⟩ := ofParams_of_describes hParams
  rw [run_of_allows hReverse hParameters hHeader hOutput]
  unfold decodeElements unpackValues
  dsimp only
  rw [if_neg (Nat.ne_of_lt hBits), if_neg (Nat.not_lt.mpr (Nat.le_of_lt hBits)),
    if_neg (Nat.ne_of_gt hPos)]
  cases BitCursor.readMany (unpackValue kind packedBits.toNat) count.toNat
      (.start (request.input.drop headerSize)) #[] with
  | error error => rfl
  | ok result =>
    have hOrder := toOrder_reconstruct ⟨scaleFactor, count.toNat, kind, order, none⟩ rfl
      hParams.isInteger packedBits.toNat result.1.toList
    exact congrArg Except.ok hOrder

theorem wellFormed_integerDatatype (order : ByteOrder) :
    (integerDatatype kind order packedBits).WellFormed where
  class_ne := by
    intro hClass
    cases hClass
  valid := by
    refine ⟨?_, hPos, ?_⟩
    · rw [toNat_size]
      exact kind.size_pos
    · rw [toNat_size]
      exact Nat.le_of_lt hBits
  depth_le := Nat.zero_le _
  fits := Nat.le_refl _

theorem unpackElements_integers {walk : Nbit.Walk}
    (hWalk : walk.LaysOut (integerDatatype kind order packedBits).leaves [])
    (parameterCount elements : Nat) (input : Bytes) :
    Nbit.unpackElements walk kind.size parameterCount elements input =
      match BitCursor.readMany (unpackValue kind packedBits.toNat) elements (.start input) #[] with
      | .error error => .error (.ofExhausted error)
      | .ok (values, _) => .ok (values.toList.flatMap (storedBytes kind order)) := by
  have hElement : ∀ cursor, Nbit.unpackElement walk.layout kind.size cursor =
      (unpackValue kind packedBits.toNat cursor).map fun result =>
        ((storedBytes kind order result.1).toArray, result.2) := by
    intro cursor
    rw [← unpackLeaves_order hPos (Nat.le_of_lt hBits), Nbit.unpackElement,
      Nbit.Layout.unpack_eq_unpackLeaves, hWalk.leaves_eq, leaves_integerDatatype]
  have hRead := BitCursor.readMany_map (fun value => (storedBytes kind order value).toArray)
    hElement elements (.start input) #[]
  rw [Nbit.unpackElements, Nbit.Walk.fault?_eq_none hWalk.ending_eq]
  by_cases hNone : elements = 0
  · rw [if_pos hNone, hNone]
    rfl
  · rw [if_neg hNone]
    simp only [List.map_toArray, List.map_nil] at hRead
    rw [hRead]
    cases BitCursor.readMany (unpackValue kind packedBits.toNat) elements (.start input) #[] with
    | error error => rfl
    | ok result =>
      simp only [Except.map, Array.toList_map, List.flatMap_map]

/-- Values in an atomic datatype, as they are stored. -/
theorem nbit_run_of_integers {memory : Memory}
    (hOutput : memory.allows (count.toNat * kind.size) = true) {request : DecodeRequest}
    (hReverse : request.flags.contains .reverse = true)
    (hParams : request.params =
      8 :: 0 :: count :: (integerDatatype kind order packedBits).encoded) :
    (Nbit.filter memory).run request =
      match BitCursor.readMany (unpackValue kind packedBits.toNat) count.toNat
          (.start request.input) #[] with
      | .error error => .error (.ofExhausted error)
      | .ok (values, _) => .ok (values.toList.flatMap (storedBytes kind order)) := by
  have hWellFormed := wellFormed_integerDatatype hPos hBits order
  have hSize := size_integerDatatype kind order packedBits
  have hDeclared : (8 : UInt32).toNat = request.params.length := by
    rw [hParams]
    rfl
  have hPositive : 0 < (integerDatatype kind order packedBits).size := by
    rw [hSize]
    exact kind.size_pos
  have hOutput :
      memory.allows (count.toNat * (integerDatatype kind order packedBits).size) = true := by
    rwa [hSize]
  have hWalk := Nbit.Datatype.laysOut hWellFormed
    (Nbit.Datatype.length_description_lt hParams hDeclared)
  rw [Nbit.Datatype.run_eq hWellFormed hReverse hParams hDeclared hPositive hOutput]
  rw [hSize] at hWalk ⊢
  exact unpackElements_integers hPos hBits hWalk request.params.length count.toNat request.input

end

/-! ## Main statement -/

/-- A payload of integers is the same to both filters, whether their bits are offsets from a minimum
of zero or the significant bits of an atomic datatype. With enough bits both give the same bytes.
Otherwise both find the input exhausted at the same byte, which one of them counts from the start of
its header. -/
theorem run_agrees_with_nbit {kind : ElementKind} (hInteger : kind.elementClass = .integer)
    (order : ByteOrder) (scaleFactor count : UInt32) {packedBits : UInt32}
    (hPos : 0 < packedBits.toNat) (hBits : packedBits.toNat < kind.bits)
    {memory : Memory} (hOutput : memory.allows (count.toNat * kind.size) = true)
    {scaled packed : DecodeRequest}
    (hScaledReverse : scaled.flags.contains .reverse = true)
    (hPackedReverse : packed.flags.contains .reverse = true)
    (hScaledParams : scaled.params = [2, scaleFactor, count, 0, UInt32.ofNat kind.size,
      if kind.isSigned then 1 else 0, order.code, 0])
    (hPackedParams : packed.params =
      [8, 0, count, 1, UInt32.ofNat kind.size, order.code, packedBits, 0])
    {declaredSize : UInt8} {minimum padding : Bytes}
    (hMinimum : minimum = List.replicate (min declaredSize.toNat Word.maxSize) 0)
    (hPadding : minimum.length + padding.length = 16)
    (hInput : scaled.input = Bytes.toLittleEndian 4 packedBits.toNat ++
      declaredSize :: (minimum ++ padding) ++ packed.input) :
    (count.toNat * packedBits.toNat ≤ 8 * packed.input.length ∧ ∃ bytes,
        (filter memory).run scaled = .ok bytes ∧ (Nbit.filter memory).run packed = .ok bytes) ∨
      8 * packed.input.length < count.toNat * packedBits.toNat ∧ ∃ description offset,
        (filter memory).run scaled =
          .error (.invalidData description (some (offset + headerSize))) ∧
        (Nbit.filter memory).run packed = .error (.invalidData description (some offset)) := by
  have hEncoded : packed.params =
      8 :: 0 :: count :: (integerDatatype kind order packedBits).encoded := hPackedParams
  have hDeclared : (8 : UInt32).toNat = packed.params.length := by
    rw [hPackedParams]
    rfl
  have hSize := size_integerDatatype kind order packedBits
  have hEnough : (∃ out, (Nbit.filter memory).run packed = .ok out) ↔
      count.toNat * packedBits.toNat ≤ 8 * packed.input.length :=
    Nbit.Datatype.run_isOk_iff_bits (wellFormed_integerDatatype hPos hBits order) hPackedReverse
      hEncoded hDeclared (hSize.symm ▸ kind.size_pos)
      (hSize.symm ▸ hOutput)
  have hHeader : Header.ofInput scaled.input = .ok ⟨packedBits.toNat, 0⟩ := by
    have hLength : minimum.length = min declaredSize.toNat Word.maxSize := by
      rw [hMinimum, List.length_replicate]
    rw [ofInput_of_parts hLength hPadding hInput packedBits.toNat_lt, hMinimum, littleEndian_zeros]
  have hScaled := run_of_minimum_zero hPos hBits hOutput hScaledReverse
    ⟨hInteger, scaleFactor, 0, [], hScaledParams, .absent []⟩ hHeader
  have hPacked := nbit_run_of_integers hPos hBits hOutput hPackedReverse hEncoded
  rw [drop_headerSize hPadding hInput] at hScaled
  cases hRead : BitCursor.readMany (unpackValue kind packedBits.toNat) count.toNat
      (.start packed.input) #[] with
  | ok result =>
    rw [hRead] at hScaled hPacked
    exact Or.inl ⟨hEnough.mp ⟨_, hPacked⟩, _, hScaled, hPacked⟩
  | error error =>
    rw [hRead] at hScaled hPacked
    refine Or.inr ⟨Nat.lt_of_not_le ?_, error.message, error.byteIndex, ?_, hPacked⟩
    · intro hLe
      obtain ⟨out, hOut⟩ := hEnough.mpr hLe
      rw [hPacked] at hOut
      cases hOut
    · rw [hScaled, Nat.add_comm]

/-- Three big endian integers of two bytes, in three bits each, from two bytes of which seven bits
are left over. -/
theorem run_agrees_with_nbit_int16 :
    let payload : Bytes := [0x17, 0xaf]
    let scaled : DecodeRequest :=
      { flags := .reverse, params := [2, 7, 3, 0, 2, 1, 1, 0],
        input := Bytes.toLittleEndian 4 3 ++ 2 :: ([0, 0] ++ List.replicate 14 9) ++ payload,
        sizeHint := 0, options := ⟨true⟩ }
    let packed : DecodeRequest :=
      { flags := .reverse, params := [8, 0, 3, 1, 2, 1, 3, 0], input := payload, sizeHint := 0,
        options := ⟨false⟩ }
    Memory.standard.allows 6 = true ∧ (filter .standard).run scaled = .ok [0, 0, 0, 5, 0, 7] ∧
      (Nbit.filter .standard).run packed = .ok [0, 0, 0, 5, 0, 7] := by
  intro payload scaled packed
  have hOutput : Memory.standard.allows 6 = true := by decide
  have hPacked : (Nbit.filter .standard).run packed = .ok [0, 0, 0, 5, 0, 7] := by cbv
  have hAgrees :=
    @run_agrees_with_nbit .int16 rfl .big 7 3 3 (by decide) (by decide) .standard hOutput
    scaled packed (by decide) (by decide) rfl rfl 2 [0, 0] (List.replicate 14 9) rfl rfl rfl
  rcases hAgrees with ⟨-, bytes, hScaled, hSame⟩ | ⟨hShort, -⟩
  · rw [hPacked] at hSame
    exact ⟨hOutput, hScaled.trans hSame.symm, hPacked⟩
  · exact absurd hShort (by decide)

end ScaleOffset

end ChunkFilters
