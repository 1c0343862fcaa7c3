import ChunkFilters.Proofs.Element
import ChunkFilters.ScaleOffset

/-!
# Chunks of scaled offsets

A chunk is a header and a payload. What the filter makes of it is what `decodeElements` makes of the
payload, brought from native into the stored byte order.

* `ofInput_of_parts`: the header says what was written into it, whatever its padding is;
* `toOrder_flatten`: the stored order is the order of the bytes in each element;
* `run_eq`: the filter, once parameters and header have been read.
-/

namespace ChunkFilters.ScaleOffset

/-! ## The header -/

section
variable {packedBits : Nat} {declaredSize : UInt8} {minimum padding payload input : Bytes}
  (hMinimum : minimum.length = min declaredSize.toNat Word.maxSize)
  (hPadding : minimum.length + padding.length = 16)
  (hInput : input = Bytes.toLittleEndian 4 packedBits ++ declaredSize :: (minimum ++ padding) ++
    payload)
include hPadding hInput

theorem drop_headerSize : input.drop headerSize = payload := by
  rw [hInput]
  apply List.drop_left'
  rw [List.length_append, Bytes.length_toLittleEndian, List.length_cons, List.length_append,
    hPadding]
  rfl

include hMinimum in
/-- The bytes between the minimum and the payload may be any. -/
theorem ofInput_of_parts (hBits : packedBits < 256 ^ 4) :
    Header.ofInput input = .ok ⟨packedBits, Bytes.littleEndian minimum⟩ := by
  have hFront : (Bytes.toLittleEndian 4 packedBits).length = 4 := Bytes.length_toLittleEndian _ _
  have hAll : input = Bytes.toLittleEndian 4 packedBits ++
      ([declaredSize] ++ (minimum ++ (padding ++ payload))) := by
    rw [hInput]
    simp only [List.append_assoc, List.cons_append, List.nil_append]
  have hLength : ¬ input.length < headerSize := by
    have hWhole := congrArg List.length hAll
    simp only [List.length_append, hFront, List.length_singleton] at hWhole
    rw [headerSize]
    omega
  have hBitBytes : input.take 4 = Bytes.toLittleEndian 4 packedBits := by
    rw [hAll]
    exact List.take_left' hFront
  have hBehind : input.drop 4 = [declaredSize] ++ (minimum ++ (padding ++ payload)) := by
    rw [hAll]
    exact List.drop_left' hFront
  have hSize : Bytes.littleEndian ((input.drop 4).take 1) = declaredSize.toNat := by
    rw [hBehind]
    exact Nat.add_zero _
  have hMinimumBytes : (input.drop 5).take minimum.length = minimum := by
    have hDrop : (input.drop 4).drop 1 = input.drop 5 := List.drop_drop
    rw [← hDrop, hBehind]
    exact List.take_left
  have hRead : Word.read minimum = Bytes.littleEndian minimum :=
    Word.read_of_length_le (hMinimum ▸ Nat.min_le_right _ _)
  unfold Header.ofInput
  rw [if_neg hLength, hSize, ← hMinimum]
  dsimp only
  rw [hMinimumBytes, hRead, hBitBytes, Bytes.littleEndian_toLittleEndian_of_lt hBits]

end

/-! ## Stored elements -/

/-- The bytes of an element with a given value, in its stored order. -/
def storedBytes (kind : ElementKind) (order : ByteOrder) (value : Nat) : Bytes :=
  order.arrange (Bytes.toLittleEndian kind.size value)

theorem toOrder_flatten {size : Nat} {elements : List Bytes}
    (hElements : ∀ element ∈ elements, element.length = size) (order : ByteOrder) :
    toOrder order size elements.flatten = elements.flatMap order.arrange := by
  cases order with
  | little =>
    have hSame : ByteOrder.little.arrange = id := rfl
    have hNative : ByteOrder.little = .native := rfl
    rw [toOrder, if_pos hNative, List.flatMap_def, hSame, List.map_id]
  | big =>
    have hOther : ByteOrder.big ≠ .native := by decide
    rw [toOrder, if_neg hOther, Word.swapByteOrder_flatten hElements]
    rfl

theorem length_of_mem_values (size : Nat) (values : List Nat) :
    ∀ element ∈ values.map (Bytes.toLittleEndian size), element.length = size := by
  intro element hElement
  obtain ⟨value, -, rfl⟩ := List.mem_map.mp hElement
  exact Bytes.length_toLittleEndian size value

/-- Values that are written one after the other in native order. -/
theorem toOrder_values (kind : ElementKind) (order : ByteOrder) (values : List Nat) :
    toOrder order kind.size (values.map (Bytes.toLittleEndian kind.size)).flatten =
      values.flatMap (storedBytes kind order) := by
  rw [toOrder_flatten (length_of_mem_values kind.size values), List.flatMap_map]
  rfl

theorem length_toOrder (order : ByteOrder) (size : Nat) (bytes : Bytes) :
    (toOrder order size bytes).length = bytes.length := by
  unfold toOrder
  split
  · rfl
  · exact Word.length_swapByteOrder size bytes

/-! ## The filter -/

/-- Behind a header, the elements are decoded as soon as there is memory for them. -/
theorem run_eq {request : DecodeRequest} (hReverse : request.flags.contains .reverse = true)
    {parameters : Parameters} (hParams : Parameters.ofParams request.params = .ok parameters)
    {header : Header} (hHeader : Header.ofInput request.input = .ok header) (memory : Memory) :
    (filter memory).run request = memory.reserve (parameters.elements * parameters.kind.size) >>=
      fun _ => (decodeElements parameters header (request.input.drop headerSize)).map
        (toOrder parameters.order parameters.kind.size) := by
  have hDecode : (filter memory).decode request = decode memory request :=
    Filter.decodeOnly_of_reverse hReverse _
  rw [Filter.run, hDecode]
  unfold decode
  rw [hParams]
  simp only [hHeader, bind, Except.bind]
  cases memory.reserve (parameters.elements * parameters.kind.size) with
  | error error => rfl
  | ok _ =>
    cases decodeElements parameters header (request.input.drop headerSize) <;> rfl

theorem run_of_allows {request : DecodeRequest} (hReverse : request.flags.contains .reverse = true)
    {parameters : Parameters} (hParams : Parameters.ofParams request.params = .ok parameters)
    {header : Header} (hHeader : Header.ofInput request.input = .ok header) {memory : Memory}
    (hOutput : memory.allows (parameters.elements * parameters.kind.size) = true) :
    (filter memory).run request =
      (decodeElements parameters header (request.input.drop headerSize)).map
        (toOrder parameters.order parameters.kind.size) := by
  rw [run_eq hReverse hParams hHeader, Memory.reserve_of_allows hOutput]
  rfl

/-- All that can be in the way of elements that decode is a lack of memory. -/
theorem run_of_decodeElements {request : DecodeRequest}
    (hReverse : request.flags.contains .reverse = true) {parameters : Parameters}
    (hParams : Parameters.ofParams request.params = .ok parameters) {header : Header}
    (hHeader : Header.ofInput request.input = .ok header) {elements : Bytes}
    (hElements : decodeElements parameters header (request.input.drop headerSize) = .ok elements)
    (hLength : elements.length = parameters.elements * parameters.kind.size) (memory : Memory) :
    (filter memory).run request =
      memory.holding (toOrder parameters.order parameters.kind.size elements) := by
  rw [run_eq hReverse hParams hHeader, hElements, Memory.holding, length_toOrder, hLength]
  cases memory.reserve (parameters.elements * parameters.kind.size) <;> rfl

end ChunkFilters.ScaleOffset
