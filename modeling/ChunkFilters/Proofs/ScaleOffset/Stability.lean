import ChunkFilters.Proofs.Nbit.Stability
import ChunkFilters.Proofs.ScaleOffset.Acceptance
import Mathlib.Control.Monad.Basic
import Mathlib.Data.List.Infix

/-!
# Fewer elements, longer inputs, in two filters

Scaled offsets are reconstructed one by one, after all of them are unpacked, and brought into their
stored order at the end. None of the three passes looks at how many elements follow. What the input
holds after the last packed value is not looked at either, which is part of what is known about
inputs that agree (`run_of_enough`).

* `exists_count_of_ofParams`: the parameters for another number of elements;
* `decodeElements_fewer`, `toOrder_take`: fewer elements, before and after they are brought in
  order;
* `stable_of_run`: fewer elements and longer inputs for both filters that unpack elements.
-/

namespace ChunkFilters

/-- A part of a string is a part of every string that goes on. -/
theorem Bytes.take_drop_append {input : Bytes} {start count : Nat}
    (h : start + count ≤ input.length)
    (extra : Bytes) : ((input ++ extra).drop start).take count = (input.drop start).take count := by
  have hCount : count ≤ (input.drop start).length := by
    rw [List.length_drop]
    omega
  rw [List.drop_append_of_le_length (by omega), List.take_append_of_le_length hCount]

namespace ScaleOffset

/-! ## Parameters -/

def Parameters.withCount (parameters : Parameters) (count : UInt32) : Parameters :=
  { parameters with elements := count.toNat }

/-- The number of elements is the third parameter and their size the fifth. The number takes no part
in any check. -/
theorem exists_count_of_ofParams {params : List UInt32} {parameters : Parameters}
    (h : Parameters.ofParams params = .ok parameters) :
    ∃ count size : UInt32, params[2]? = some count ∧ params[4]? = some size ∧
      parameters.elements = count.toNat ∧ parameters.kind.size = size.toNat ∧
      ∀ other, Parameters.ofParams (params.set 2 other) = .ok (parameters.withCount other) := by
  unfold Parameters.ofParams at h
  split at h
  · next scaleValue scaleFactor count classValue size sign orderValue declared fillParams =>
    obtain ⟨scaling, hScaling, h⟩ := Nbit.bind_eq_ok h
    obtain ⟨elementClass, hClass, h⟩ := Nbit.bind_eq_ok h
    obtain ⟨signed, hSigned, h⟩ := Nbit.bind_eq_ok h
    obtain ⟨kind, hKind, h⟩ := Nbit.bind_eq_ok h
    obtain ⟨order, hOrder, h⟩ := Nbit.bind_eq_ok h
    obtain ⟨fill, hFill, h⟩ := Nbit.bind_eq_ok h
    obtain rfl := (Except.ok.inj h).symm
    refine ⟨count, size, rfl, rfl, rfl, ?_, ?_⟩
    · unfold elementKind at hKind
      split at hKind
      · next found hShape =>
        obtain rfl : found = kind := Except.ok.inj hKind
        exact ElementKind.size_of_ofShape? hShape
      · cases hKind
    · intro other
      show Parameters.ofParams (scaleValue :: scaleFactor :: other :: classValue :: size :: sign ::
        orderValue :: declared :: fillParams) = _
      unfold Parameters.ofParams
      dsimp only
      simp only [hScaling, hClass, hSigned, hKind, hOrder, hFill, bind, Except.bind]
      rfl
  · cases h

/-! ## Elements -/

section
variable {parameters : Parameters} {header : Header} {payload elements : Bytes}

/-- Elements that are decoded have their values in the payload. -/
theorem enough_of_decodeElements (h : decodeElements parameters header payload = .ok elements) :
    Enough parameters header.packedBits payload.length := by
  rcases Nat.lt_trichotomy header.packedBits parameters.kind.bits with hBits | hBits | hBits
  · refine Or.inl ⟨hBits, Nat.le_of_not_lt fun hShort => ?_⟩
    obtain ⟨message, hError⟩ := decodeElements_end hBits hShort
    rw [hError] at h
    cases h
  · refine Or.inr ⟨hBits, Nat.le_of_not_lt fun hShort => ?_⟩
    obtain ⟨message, hError⟩ := decodeElements_verbatim_short hBits hShort
    rw [hError] at h
    cases h
  · obtain ⟨message, hError⟩ := @decodeElements_wide parameters header payload hBits
    rw [hError] at h
    cases h

/-- The first elements are those of a chunk of fewer elements. -/
theorem decodeElements_fewer (h : decodeElements parameters header payload = .ok elements)
    {fewer : UInt32} (hFewer : fewer.toNat ≤ parameters.elements) :
    elements.length = parameters.elements * parameters.kind.size ∧
      decodeElements (parameters.withCount fewer) header payload =
        .ok (elements.take (fewer.toNat * parameters.kind.size)) := by
  rcases enough_of_decodeElements h with ⟨hBits, hEnough⟩ | ⟨hBits, hEnough⟩
  · rw [← Bytes.length_bits] at hEnough
    obtain ⟨codes, hCount, hCodes, hPacked⟩ := exists_codes hEnough
    have hPayload : codes.flatMap (numberBits header.packedBits) <+: Bytes.bits payload :=
      hPacked ▸ List.take_prefix _ _
    rw [decodeElements_of_codes hBits hCount hCodes hPayload] at h
    obtain rfl := Except.ok.inj h
    refine ⟨?_, ?_⟩
    · rw [length_flatMap_toLittleEndian, hCount]
    · have hFront : (codes.take fewer.toNat).flatMap (numberBits header.packedBits) <+:
          Bytes.bits payload :=
        (List.IsPrefix.flatMap (List.take_prefix _ _) _).trans hPayload
      have hFrontCount : (codes.take fewer.toNat).length =
          (parameters.withCount fewer).elements := by
        rw [List.length_take, hCount, Nat.min_eq_left hFewer]
        rfl
      have hFrontCodes : ∀ code ∈ codes.take fewer.toNat, code < 2 ^ header.packedBits :=
        fun code hCode => hCodes code (List.mem_of_mem_take hCode)
      rw [take_flatMap_toLittleEndian]
      exact @decodeElements_of_codes (parameters.withCount fewer) header hBits _ hFrontCount
        hFrontCodes payload hFront
  · rw [decodeElements_verbatim hBits hEnough] at h
    obtain rfl := Except.ok.inj h
    have hLe : fewer.toNat * parameters.kind.size ≤ parameters.elements * parameters.kind.size :=
      Nat.mul_le_mul_right _ hFewer
    refine ⟨?_, ?_⟩
    · rw [List.length_take, Nat.min_eq_left hEnough]
    · rw [List.take_take, Nat.min_eq_left hLe]
      exact @decodeElements_verbatim (parameters.withCount fewer) header hBits payload
        (Nat.le_trans hLe hEnough)

end

/-- Elements are brought into their stored order one by one. -/
theorem toOrder_take {size count : Nat} {bytes : Bytes} (h : bytes.length = count * size)
    (order : ByteOrder) (fewer : Nat) :
    toOrder order size (bytes.take (fewer * size)) =
      (toOrder order size bytes).take (fewer * size) := by
  obtain ⟨elements, -, hElements, rfl⟩ := Bytes.exists_elements h
  have hFront : ∀ element ∈ elements.take fewer, element.length = size :=
    fun element hElement => hElements element (List.mem_of_mem_take hElement)
  have hArranged : ∀ element ∈ elements.map order.arrange, element.length = size := by
    intro element hElement
    obtain ⟨stored, hStored, rfl⟩ := List.mem_map.mp hElement
    rw [order.length_arrange, hElements stored hStored]
  rw [Bytes.take_flatten hElements, toOrder_flatten hFront, toOrder_flatten hElements,
    List.flatMap_def, List.flatMap_def, Bytes.take_flatten hArranged, List.map_take]

/-! ## Requests -/

theorem run_eq_ok {memory : Memory} {request : DecodeRequest} {out : Bytes}
    (h : (filter memory).run request = .ok out) :
    ∃ parameters elements, Parameters.ofParams request.params = .ok parameters ∧
      headerSize ≤ request.input.length ∧
      memory.allows (parameters.elements * parameters.kind.size) = true ∧
      decodeElements parameters (statedHeader request.input) (request.input.drop headerSize) =
        .ok elements ∧ toOrder parameters.order parameters.kind.size elements = out := by
  have hReverse : request.flags.contains .reverse = true := Filter.reverse_of_run rfl h
  cases hParams : Parameters.ofParams request.params with
  | error error =>
    have hDecode : (filter memory).decode request = decode memory request :=
      Filter.decodeOnly_of_reverse hReverse _
    rw [Filter.run, hDecode, decode, hParams] at h
    cases h
  | ok parameters =>
    rcases Nat.lt_or_ge request.input.length headerSize with hShort | hLength
    · obtain ⟨message, hError⟩ := run_of_short hReverse hParams hShort
      rw [hError] at h
      cases h
    · rw [run_eq hReverse hParams (ofInput_eq_ok hLength)] at h
      obtain ⟨_, hReserve, h⟩ := Nbit.bind_eq_ok h
      cases hElements : decodeElements parameters (statedHeader request.input)
          (request.input.drop headerSize) with
      | error error =>
        rw [hElements] at h
        cases h
      | ok elements =>
        rw [hElements] at h
        exact ⟨parameters, elements, rfl, hLength, Memory.allows_of_reserve hReserve, hElements,
          Except.ok.inj h⟩

/-- What follows the header and the values is not looked at. -/
theorem agree_append {parameters : Parameters} {input : Bytes}
    (hLength : headerSize ≤ input.length)
    (hEnough : Enough parameters (statedBits input) (input.length - headerSize)) (extra : Bytes) :
    Agree parameters input (input ++ extra) := by
  have hLength : 21 ≤ input.length := hLength
  have hMinimum : minimumSize input ≤ 8 := Nat.min_le_right _ _
  have hValues : (parameters.elements * statedBits input + 7) / 8 ≤ input.length - headerSize := by
    rcases hEnough with ⟨-, hBits⟩ | ⟨hBits, hBytes⟩
    · omega
    · rw [hBits, ElementKind.bits, Nat.mul_left_comm]
      omega
  constructor
  · rw [List.length_append]
    exact Nat.le_trans hLength (Nat.le_add_right _ _)
  · exact List.take_append_of_le_length (by omega)
  · exact Bytes.take_drop_append (by omega) extra
  · exact Bytes.take_drop_append (by rw [headerSize] at hValues ⊢; omega) extra

theorem run_stable {memory : Memory} {request : DecodeRequest} {out : Bytes}
    (h : (filter memory).run request = .ok out) :
    ∃ count size, Stable (filter memory) request out count size := by
  have hReverse : request.flags.contains .reverse = true := Filter.reverse_of_run rfl h
  obtain ⟨parameters, elements, hParams, hLength, hOutput, hElements, rfl⟩ := run_eq_ok h
  obtain ⟨count, size, hCount, hSize, hCountEq, hSizeEq, hOthers⟩ :=
    exists_count_of_ofParams hParams
  obtain ⟨hOut, -⟩ := decodeElements_fewer hElements (Nat.le_of_eq hCountEq.symm)
  refine ⟨count, size, hCount, hSize, ?_, ?_, ?_⟩
  · rw [length_toOrder, hOut, hCountEq, hSizeEq]
  · intro fewer hLe
    rw [← hCountEq] at hLe
    obtain ⟨-, hFewer⟩ := decodeElements_fewer hElements hLe
    have hOther : (request.withCount fewer).flags.contains .reverse = true := hReverse
    have hFewerOutput :=
      memory.allows_of_le (Nat.mul_le_mul_right parameters.kind.size hLe) hOutput
    rw [run_of_headerSize_le hOther (hOthers fewer) hFewerOutput hLength, ← hSizeEq,
      ← toOrder_take hOut]
    exact congrArg _ hFewer
  · intro extra sizeHint
    have hEnough := enough_of_decodeElements hElements
    rw [List.length_drop] at hEnough
    obtain ⟨found, -, hFound⟩ := run_of_enough hParams hOutput hEnough
    have hSame : found = toOrder parameters.order parameters.kind.size elements := by
      rw [hFound request hReverse rfl ⟨hLength, rfl, rfl, rfl⟩] at h
      exact Except.ok.inj h
    rw [← hSame]
    exact hFound _ hReverse rfl (agree_append hLength hEnough extra)

end ScaleOffset

/-! ## Main statement -/

/-- Elements that are unpacked do not depend on the elements after them, nor on the bytes after the
last of them: a request for fewer elements gives the front of the same bytes, and a request with a
longer input gives the same bytes. -/
theorem stable_of_run {memory : Memory} {filter : Filter} {request : DecodeRequest}
    (hFilter : filter = Nbit.filter memory ∧ request.params[1]? = some 0 ∨
      filter = ScaleOffset.filter memory)
    {out : Bytes} (h : filter.run request = .ok out) :
    ∃ count size, Stable filter request out count size := by
  rcases hFilter with ⟨rfl, hPacked⟩ | rfl
  · exact Nbit.run_stable hPacked h
  · exact ScaleOffset.run_stable h

/-- Three big endian integers of two bytes, in three bits each, and three big endian integers of two
bytes that lie at most seven above a minimum of 256. -/
theorem stable_of_run_int16 :
    let packed : DecodeRequest :=
      { flags := .reverse, params := [8, 0, 3, 1, 2, 1, 3, 0], input := [0x17, 0xaf],
        sizeHint := 0, options := ⟨false⟩ }
    let scaled : DecodeRequest :=
      { flags := .reverse, params := [2, 0, 3, 0, 2, 1, 1, 0],
        input := [3, 0, 0, 0, 2, 0, 1] ++ List.replicate 14 0 ++ [0x17, 0xaf],
        sizeHint := 0, options := ⟨false⟩ }
    (Nbit.filter .standard).run packed = .ok [0, 0, 0, 5, 0, 7] ∧
      (Nbit.filter .standard).run (packed.withCount 2) = .ok [0, 0, 0, 5] ∧
      (ScaleOffset.filter .standard).run scaled = .ok [1, 0, 1, 5, 1, 7] ∧
      ∀ extra, (ScaleOffset.filter .standard).run { scaled with input := scaled.input ++ extra } =
        .ok [1, 0, 1, 5, 1, 7] := by
  intro packed scaled
  have hPacked : (Nbit.filter .standard).run packed = .ok [0, 0, 0, 5, 0, 7] := by decide +kernel
  have hScaled : (ScaleOffset.filter .standard).run scaled = .ok [1, 0, 1, 5, 1, 7] := by
    decide +kernel
  obtain ⟨count, size, hPackedStable⟩ := stable_of_run (Or.inl ⟨rfl, rfl⟩) hPacked
  obtain ⟨_, _, hScaledStable⟩ := stable_of_run (Or.inr rfl) hScaled
  obtain rfl : 3 = count := Option.some.inj hPackedStable.count_eq
  obtain rfl : 2 = size := Option.some.inj hPackedStable.size_eq
  exact ⟨hPacked, hPackedStable.fewer 2 (by decide), hScaled,
    fun extra => hScaledStable.longer extra 0⟩

end ChunkFilters
