import ChunkFilters.Proofs.Nbit.Acceptance

/-!
# Packing is undone

The elements of a well-formed datatype whose leaves share no byte are packed by writing the bits of
their leaves one after the other. The filter undoes this and nothing else (`run_undoes_pack`): it
restores the elements whose packed bits the input starts with, and whatever it restores packs to the
bits that the input starts with. Padding and trailing bytes are not looked at.

An element is restored only in its significant bits, all others are cleared. So the statement is
about elements that have no other bits set (`Datatype.Element`).

A datatype without a size is left out. It has exactly one element, which packs to nothing, but the
filter refuses it.
-/

namespace ChunkFilters.Nbit

namespace Datatype

/-- The bits of an element, as they are packed. -/
def pack (datatype : Datatype) (element : Bytes) : List Bool :=
  Nbit.pack (datatype.leaves 0) element

/-- The bytes are an element of the datatype, with only significant bits set. -/
structure Element (datatype : Datatype) (element : Bytes) : Prop where
  length_eq : element.length = datatype.size
  clean : Clean (datatype.leaves 0) element

section
variable {datatype : Datatype} (hWellFormed : datatype.WellFormed)
  (hApart : (datatype.leaves 0).Pairwise Leaf.Apart)
include hWellFormed hApart

theorem separate_leaves : Separate (datatype.leaves 0) datatype.size where
  inside := fun _ hLeaf => by
    have hInside := inside_of_mem_leaves hWellFormed.fits hLeaf
    rwa [Nat.zero_add] at hInside
  apart := hApart

theorem length_flatMap_pack {elements : List Bytes}
    (hElements : ∀ element ∈ elements, datatype.Element element) :
    (elements.flatMap datatype.pack).length = elements.length * datatype.bits := by
  have hLength := Nbit.length_flatMap_pack (fun _ => valid_of_mem_leaves hWellFormed.valid)
    (separate_leaves hWellFormed hApart) fun element hMem => (hElements element hMem).length_eq
  rwa [datatype.bitCount_leaves] at hLength

/-- As many elements that pack to the same bits are the same elements. -/
theorem eq_of_flatMap_pack_eq {first second : List Bytes} (hLength : first.length = second.length)
    (hFirst : ∀ element ∈ first, datatype.Element element)
    (hSecond : ∀ element ∈ second, datatype.Element element)
    (h : first.flatMap datatype.pack = second.flatMap datatype.pack) : first = second :=
  Nbit.eq_of_flatMap_pack_eq (fun _ => valid_of_mem_leaves hWellFormed.valid)
    (separate_leaves hWellFormed hApart) hLength
    (fun element hMem => ⟨(hFirst element hMem).length_eq, (hFirst element hMem).clean⟩)
    (fun element hMem => ⟨(hSecond element hMem).length_eq, (hSecond element hMem).clean⟩) h

section
variable {memory : Memory} {request : DecodeRequest}
  (hReverse : request.flags.contains .reverse = true) {declared count : UInt32}
  (hParams : request.params = declared :: 0 :: count :: datatype.encoded)
  (hDeclared : declared.toNat = request.params.length)
  (hOutput : memory.allows (count.toNat * datatype.size) = true)
include hReverse hParams hDeclared hOutput

/-- What is decoded is a list of elements that pack to the front of the input. -/
theorem exists_elements_of_run {out : Bytes} (h : (filter memory).run request = .ok out) :
    ∃ elements : List Bytes, out = elements.flatten ∧ elements.length = count.toNat ∧
      (∀ element ∈ elements, datatype.Element element) ∧
      elements.flatMap datatype.pack <+: Bytes.bits request.input := by
  rcases Nat.eq_zero_or_pos datatype.size with hSize | hSize
  · rw [run_of_size_eq_zero hWellFormed hReverse hParams hDeclared hSize] at h
    cases h
  · have hWalk := laysOut hWellFormed (length_description_lt hParams hDeclared)
    have hLeaves := hWalk.leaves_eq 0
    rw [run_eq hWellFormed hReverse hParams hDeclared hSize hOutput] at h
    have hValid : ∀ leaf ∈ datatype.leaves 0, leaf.Valid :=
      fun _ => valid_of_mem_leaves hWellFormed.valid
    have hSeparate := separate_leaves hWellFormed hApart
    rw [← hLeaves] at hValid hSeparate
    obtain ⟨elements, hOut, hCount, hElements, hPrefix⟩ :=
      unpackElements_ok hValid (Walk.fault?_eq_none hWalk.ending_eq) hSeparate h
    rw [hLeaves] at hElements hPrefix
    exact ⟨elements, hOut, hCount,
      fun element hMem => ⟨(hElements element hMem).1, (hElements element hMem).2⟩, hPrefix⟩

/-- The elements that the input starts with are decoded. -/
theorem run_of_pack (hSize : 0 < datatype.size) {elements : List Bytes}
    (hCount : elements.length = count.toNat)
    (hElements : ∀ element ∈ elements, datatype.Element element)
    (hPrefix : elements.flatMap datatype.pack <+: Bytes.bits request.input) :
    (filter memory).run request = .ok elements.flatten := by
  have hLength := length_flatMap_pack hWellFormed hApart hElements
  have hBits : count.toNat * datatype.bits ≤ 8 * request.input.length := by
    rw [← hCount, ← hLength, ← Bytes.length_bits]
    exact hPrefix.length_le
  obtain ⟨out, hRun⟩ :=
    (run_isOk_iff_bits hWellFormed hReverse hParams hDeclared hSize hOutput).mpr hBits
  obtain ⟨decoded, hOut, hDecodedCount, hDecoded, hDecodedPrefix⟩ :=
    exists_elements_of_run hWellFormed hApart hReverse hParams hDeclared hOutput hRun
  -- Both lists pack to the first bits of the input, and to equally many of them.
  have hLengths : (decoded.flatMap datatype.pack).length =
      (elements.flatMap datatype.pack).length := by
    rw [hLength, length_flatMap_pack hWellFormed hApart hDecoded, hDecodedCount, hCount]
  have hSame : decoded.flatMap datatype.pack = elements.flatMap datatype.pack :=
    (List.prefix_of_prefix_length_le hDecodedPrefix hPrefix
      (Nat.le_of_eq hLengths)).eq_of_length hLengths
  rw [hRun, hOut, eq_of_flatMap_pack_eq hWellFormed hApart (hDecodedCount.trans hCount.symm)
    hDecoded hElements hSame]

end

end

end Datatype

/-! ## Main statement -/

/-- Decoding and packing are inverse to each other, for every well-formed datatype that has a size
and whose leaves share no byte. -/
theorem run_undoes_pack {datatype : Datatype} (hWellFormed : datatype.WellFormed)
    (hApart : (datatype.leaves 0).Pairwise Leaf.Apart) {memory : Memory} {request : DecodeRequest}
    (hReverse : request.flags.contains .reverse = true) {declared count : UInt32}
    (hParams : request.params = declared :: 0 :: count :: datatype.encoded)
    (hDeclared : declared.toNat = request.params.length)
    (hOutput : memory.allows (count.toNat * datatype.size) = true) :
    (0 < datatype.size → ∀ elements : List Bytes, elements.length = count.toNat →
      (∀ element ∈ elements, datatype.Element element) →
      elements.flatMap datatype.pack <+: Bytes.bits request.input →
        (filter memory).run request = .ok elements.flatten) ∧
    (∀ out, (filter memory).run request = .ok out →
      ∃ elements : List Bytes, out = elements.flatten ∧ elements.length = count.toNat ∧
        (∀ element ∈ elements, datatype.Element element) ∧
        count.toNat * datatype.bits ≤ 8 * request.input.length ∧
        elements.flatMap datatype.pack =
          (Bytes.bits request.input).take (count.toNat * datatype.bits)) ∧
    (datatype.size = 0 → (filter memory).run request = .error (invalid .elementSizeZero)) := by
  refine ⟨?_, ?_, ?_⟩
  · intro hSize elements hCount hElements hPrefix
    exact Datatype.run_of_pack hWellFormed hApart hReverse hParams hDeclared hOutput hSize hCount
      hElements hPrefix
  · intro out hRun
    obtain ⟨elements, hOut, hCount, hElements, hPrefix⟩ :=
      Datatype.exists_elements_of_run hWellFormed hApart hReverse hParams hDeclared hOutput hRun
    have hLength := Datatype.length_flatMap_pack hWellFormed hApart hElements
    rw [hCount] at hLength
    refine ⟨elements, hOut, hCount, hElements, ?_, ?_⟩
    · rw [← hLength, ← Bytes.length_bits]
      exact hPrefix.length_le
    · rw [← hLength]
      exact List.prefix_iff_eq_take.mp hPrefix
  · intro hSize
    exact Datatype.run_of_size_eq_zero hWellFormed hReverse hParams hDeclared hSize

/-- An element of four bytes with nine bits of a big endian number at offset two, packed before the
byte at offset zero. Seven bits of padding and a byte follow. -/
theorem run_undoes_pack_compound :
    let datatype : Datatype := .compound 4 (.cons 2 (.atomic 2 .big 9 3) (.cons 0 (.noOp 1) .nil))
    let request : DecodeRequest :=
      { flags := .reverse, params := 15 :: 0 :: 1 :: datatype.encoded,
        input := [0xab, 0xad, 0x6a, 0xff], sizeHint := 4, options := ⟨true⟩ }
    (filter .standard).run request = .ok [0x5a, 0, 0x0a, 0xb8] := by
  intro datatype request
  have hWellFormed : datatype.WellFormed := by
    refine ⟨by decide, ⟨⟨by decide, by decide, by decide⟩, trivial, trivial⟩, by decide, ?_⟩
    exact ⟨Nat.le_refl 4, by decide, Nat.le_refl 2, by decide, Nat.le_add_left 1 3, trivial⟩
  have hApart : (datatype.leaves 0).Pairwise Leaf.Apart := by
    refine List.pairwise_pair.mpr ?_
    rintro index ⟨hAtomic, hVerbatim⟩
    exact absurd (Nat.le_trans hAtomic.1 (Nat.le_of_lt_succ hVerbatim.2)) (by decide)
  have hElement : datatype.Element [0x5a, 0, 0x0a, 0xb8] := by
    refine ⟨rfl, ?_⟩
    intro index bit hBit
    have hSet : ∀ index < 4, ∀ bit < 8,
        Bytes.bitAt [0x5a, 0, 0x0a, 0xb8] index bit = true →
          index = 0 ∨ index = 2 ∧ bit < 4 ∨ index = 3 ∧ 3 ≤ bit := by decide
    obtain ⟨hIndex, hLt⟩ := Bytes.lt_of_bitAt hBit
    rcases hSet index hIndex bit hLt hBit with rfl | ⟨rfl, hHigh⟩ | ⟨rfl, hLow⟩
    · exact ⟨.verbatim 0 1, by decide, Nat.le_refl 0, Nat.one_pos, hLt⟩
    · have hByte : (8 + bit) / 8 = 1 := by omega
      refine ⟨.atomic 2 ⟨2, .big, 9, 3⟩, by decide, 8 + bit, Nat.le_add_right_of_le (by decide),
        Nat.add_lt_add_left hHigh 8, ?_, by omega⟩
      rw [hByte]
      rfl
    · have hByte : bit / 8 = 0 := by omega
      refine ⟨.atomic 2 ⟨2, .big, 9, 3⟩, by decide, bit, hLow,
        Nat.lt_of_lt_of_le hLt (by decide), ?_, by omega⟩
      rw [hByte]
      rfl
  refine (run_undoes_pack hWellFormed hApart (by decide) rfl rfl (by decide)).1 (by decide)
    [[0x5a, 0, 0x0a, 0xb8]] rfl ?_ (by decide)
  intro element hMem
  rw [List.mem_singleton.mp hMem]
  exact hElement

/-- A compound of no bytes and no members is well-formed and has an element, which packs to nothing.
It is refused. -/
theorem run_empty_compound_refused :
    let datatype : Datatype := .compound 0 .nil
    let elements : List Bytes := [[]]
    let request : DecodeRequest :=
      { flags := .reverse, params := 6 :: 0 :: 1 :: datatype.encoded, input := [], sizeHint := 0,
        options := ⟨true⟩ }
    datatype.WellFormed ∧ (datatype.leaves 0).Pairwise Leaf.Apart ∧
      request.flags.contains .reverse = true ∧
      (6 : UInt32).toNat = request.params.length ∧
      Memory.standard.allows ((1 : UInt32).toNat * datatype.size) = true ∧
      elements.length = (1 : UInt32).toNat ∧ (∀ element ∈ elements, datatype.Element element) ∧
      elements.flatMap datatype.pack <+: Bytes.bits request.input ∧
      (filter .standard).run request ≠ .ok elements.flatten := by
  intro datatype elements request
  have hWellFormed : datatype.WellFormed := ⟨by decide, trivial, by decide, Nat.le_refl 0, trivial⟩
  have hElement : ∀ element ∈ elements, datatype.Element element := by
    intro element hMem
    rw [List.mem_singleton.mp hMem]
    refine ⟨rfl, ?_⟩
    intro index bit hBit
    exact absurd (Bytes.lt_of_bitAt hBit).1 (Nat.not_lt_zero index)
  refine ⟨hWellFormed, List.Pairwise.nil, by decide, rfl, by decide, rfl, hElement, by decide, ?_⟩
  rw [Datatype.run_of_size_eq_zero hWellFormed (by decide) rfl rfl rfl]
  intro h
  cases h

end ChunkFilters.Nbit
