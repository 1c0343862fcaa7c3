import ChunkFilters.Nbit.Layout
import ChunkFilters.Proofs.Bits.Slices

/-!
# Leaves packed and unpacked

`Leaf.pack` is what a leaf of an element looks like in a packed chunk: the significant bits of an
atomic leaf, highest first, or the bytes of a verbatim one. A leaf is a list of slices, and to
unpack it is to fill them (`unpackLeaves_eq_fill`), so that what holds of filling holds of all the
leaves of an element at once.

* `unpackLeaves_cases`: unpacking succeeds if and only if there are as many bits as the leaves have.
* `unpackLeaves_ok`: zeros become an element that packs to the bits that were read, and in which
  only significant bits are set. This needs leaves that share no byte.
* `eq_of_pack_eq`: there is only one such element.
-/

namespace ChunkFilters.Nbit

open PackedAtomic

/-! ## Whole bytes -/

/-- The slices of `count` whole bytes from `base` on. -/
def wholeBytes (base : Nat) : Nat → List Slice
  | 0 => []
  | count + 1 => ⟨base, 8, 0⟩ :: wholeBytes (base + 1) count

theorem mem_wholeBytes {base count : Nat} {slice : Slice} :
    slice ∈ wholeBytes base count ↔
      ∃ index, base ≤ index ∧ index < base + count ∧ slice = ⟨index, 8, 0⟩ := by
  induction count generalizing base with
  | zero =>
    constructor
    · intro h
      cases h
    · rintro ⟨index, hLow, hHigh, -⟩
      omega
  | succ count ih =>
    rw [wholeBytes, List.mem_cons, ih]
    constructor
    · rintro (rfl | ⟨index, hLow, hHigh, rfl⟩)
      · exact ⟨base, Nat.le_refl base, by omega, rfl⟩
      · exact ⟨index, by omega, by omega, rfl⟩
    · rintro ⟨index, hLow, hHigh, rfl⟩
      by_cases hFirst : index = base
      · exact Or.inl (by rw [hFirst])
      · exact Or.inr ⟨index, by omega, by omega, rfl⟩

theorem nodup_index_wholeBytes (base count : Nat) :
    ((wholeBytes base count).map Slice.index).Nodup := by
  induction count generalizing base with
  | zero => exact List.nodup_nil
  | succ count ih =>
    rw [wholeBytes, List.map_cons, List.nodup_cons]
    refine ⟨?_, ih (base + 1)⟩
    intro hMem
    obtain ⟨slice, hSlice, hIndex⟩ := List.mem_map.mp hMem
    obtain ⟨index, hLow, -, rfl⟩ := mem_wholeBytes.mp hSlice
    have hIndex : index = base := hIndex
    omega

theorem totalWidth_wholeBytes (base count : Nat) :
    Slice.totalWidth (wholeBytes base count) = 8 * count := by
  induction count generalizing base with
  | zero => rfl
  | succ count ih =>
    rw [wholeBytes, Slice.totalWidth, ih, Nat.mul_succ, Nat.add_comm]

theorem flatMap_bits_wholeBytes {bytes : Bytes} {base count : Nat}
    (h : base + count ≤ bytes.length) :
    (wholeBytes base count).flatMap (Slice.bits bytes) = Bytes.bits (bytes.range base count) := by
  induction count generalizing base with
  | zero => rw [Bytes.range, List.take_zero]; rfl
  | succ count ih =>
    have hBase : base < bytes.length := by omega
    have hRange : bytes.range base (count + 1) =
        bytes.byteAt base :: bytes.range (base + 1) count := by
      rw [Bytes.range, List.drop_eq_getElem_cons hBase, List.take_succ_cons, Bytes.byteAt,
        List.getElem?_eq_getElem hBase]
      rfl
    rw [wholeBytes, List.flatMap_cons, ih (by omega), hRange, BitCursor.bits_cons]
    rfl

namespace Leaf

/-! ## Leaves of an element -/

/-- The byte at which a leaf starts. -/
def start : Leaf → Nat
  | atomic start _ => start
  | verbatim start _ => start

/-- The number of bytes of a leaf. -/
def size : Leaf → Nat
  | atomic _ layout => layout.size
  | verbatim _ size => size

/-- The byte belongs to the leaf. -/
def Covers (leaf : Leaf) (index : Nat) : Prop :=
  leaf.start ≤ index ∧ index < leaf.start + leaf.size

/-- Packing keeps this bit of this byte. -/
def Significant : Leaf → Nat → Nat → Prop
  | atomic start layout, index, bit =>
    ∃ position, layout.offset ≤ position ∧ position < layout.precision + layout.offset ∧
      index = start + layout.order.index layout.size (position / 8) ∧ bit = position % 8
  | verbatim start size, index, bit => start ≤ index ∧ index < start + size ∧ bit < 8

/-- The bits of a leaf of an element, as they are packed. -/
def pack (element : Bytes) : Leaf → List Bool
  | atomic start layout =>
    numberBits layout.precision
      (layout.order.value (element.range start layout.size) >>> layout.offset)
  | verbatim start size => Bytes.bits (element.range start size)

/-- The layout of an atomic leaf is valid. -/
def Valid : Leaf → Prop
  | atomic _ layout => layout.Valid
  | verbatim _ _ => True

/-- The slices of a leaf, in the order in which they are packed. -/
def slices : Leaf → List Slice
  | atomic start layout => layout.slices start
  | verbatim start size => wholeBytes start size

section
variable {leaf : Leaf} (hValid : leaf.Valid)
include hValid

theorem proper_of_mem_slices {slice : Slice} (h : slice ∈ leaf.slices) : slice.Proper := by
  cases leaf with
  | atomic start layout => exact PackedAtomic.proper_of_mem_slices hValid start h
  | verbatim start size =>
    obtain ⟨index, -, -, rfl⟩ := mem_wholeBytes.mp h
    exact ⟨Nat.succ_pos 7, Nat.le_refl 8⟩

theorem covers_of_mem_slices {slice : Slice} (h : slice ∈ leaf.slices) :
    leaf.Covers slice.index := by
  cases leaf with
  | atomic start layout => exact PackedAtomic.index_of_mem_slices hValid start h
  | verbatim start size =>
    obtain ⟨index, hLow, hHigh, rfl⟩ := mem_wholeBytes.mp h
    exact ⟨hLow, hHigh⟩

theorem nodup_index_slices : (leaf.slices.map Slice.index).Nodup := by
  cases leaf with
  | atomic start layout => exact PackedAtomic.nodup_index_slices hValid start
  | verbatim start size => exact nodup_index_wholeBytes start size

theorem totalWidth_slices : Slice.totalWidth leaf.slices = leaf.bits := by
  cases leaf with
  | atomic start layout => exact PackedAtomic.totalWidth_slices hValid start
  | verbatim start size => exact totalWidth_wholeBytes start size

theorem exists_holds_iff {index bit : Nat} :
    (∃ slice ∈ leaf.slices, slice.Holds index bit) ↔ leaf.Significant index bit := by
  cases leaf with
  | atomic start layout => exact PackedAtomic.exists_holds_iff hValid start
  | verbatim start size =>
    constructor
    · rintro ⟨slice, hMem, hIndex, -, hHigh⟩
      obtain ⟨other, hFirst, hLast, rfl⟩ := mem_wholeBytes.mp hMem
      rw [Significant, hIndex]
      exact ⟨hFirst, hLast, by simpa only [Nat.zero_add] using hHigh⟩
    · rintro ⟨hFirst, hLast, hBit⟩
      exact ⟨_, mem_wholeBytes.mpr ⟨index, hFirst, hLast, rfl⟩, rfl, Nat.zero_le bit,
        by simpa only [Nat.zero_add] using hBit⟩

theorem flatMap_bits_slices {element : Bytes} (h : leaf.start + leaf.size ≤ element.length) :
    leaf.slices.flatMap (Slice.bits element) = leaf.pack element := by
  cases leaf with
  | atomic start layout => exact PackedAtomic.flatMap_bits_slices hValid start h
  | verbatim start size => exact flatMap_bits_wholeBytes h

end

/-! ## Unpacking is filling -/

theorem dropWritten_unpackBytes (layout : PackedAtomic) (base count : Nat) (state : Unpacking) :
    dropWritten (layout.unpackBytes base count state.1 state.2) =
      fill (layout.slicesBelow base count) state := by
  induction count generalizing state with
  | zero => rfl
  | succ count ih =>
    obtain ⟨buffer, cursor⟩ := state
    simp only [PackedAtomic.unpackBytes, slicesBelow, fill, Slice.moved]
    cases cursor.readBits (layout.slice (layout.lowestByte + count)).width with
    | error error => rfl
    | ok result =>
      exact ih (buffer.setIfInBounds (base + (layout.slice (layout.lowestByte + count)).index)
        (result.1 <<< UInt8.ofNat (layout.slice (layout.lowestByte + count)).shift), result.2)

theorem dropWritten_copyBytes (base count : Nat) (state : Unpacking) :
    dropWritten (state.2.copyBytes base count state.1) = fill (wholeBytes base count) state := by
  induction count generalizing base state with
  | zero => rfl
  | succ count ih =>
    obtain ⟨buffer, cursor⟩ := state
    simp only [BitCursor.copyBytes, wholeBytes, fill]
    cases cursor.readBits 8 with
    | error error => rfl
    | ok result =>
      have hShift : result.1 <<< UInt8.ofNat 0 = result.1 := UInt8.shiftLeft_zero
      simp only [hShift]
      exact ih (base + 1) (buffer.setIfInBounds base result.1, result.2)

theorem unpack_eq_fill (leaf : Leaf) (state : Unpacking) :
    leaf.unpack state = fill leaf.slices state := by
  cases leaf with
  | atomic start layout => exact dropWritten_unpackBytes layout start layout.byteCount state
  | verbatim start size => exact dropWritten_copyBytes start size state

end Leaf

theorem unpackLeaves_eq_fill (leaves : List Leaf) (state : Unpacking) :
    unpackLeaves leaves state = fill (leaves.flatMap Leaf.slices) state := by
  induction leaves generalizing state with
  | nil => rfl
  | cons leaf rest ih =>
    rw [unpackLeaves, List.flatMap_cons, fill_append, Leaf.unpack_eq_fill]
    cases fill leaf.slices state with
    | error error => rfl
    | ok state => exact ih state

/-! ## All leaves of an element -/

/-- No byte belongs to both leaves. -/
def Leaf.Apart (first second : Leaf) : Prop := ∀ index, ¬ (first.Covers index ∧ second.Covers index)

/-- Leaves of an element of `size` bytes that share no byte. -/
structure Separate (leaves : List Leaf) (size : Nat) : Prop where
  inside : ∀ leaf ∈ leaves, leaf.start + leaf.size ≤ size
  apart : leaves.Pairwise Leaf.Apart

/-- The packed bits of an element. -/
def pack (leaves : List Leaf) (element : Bytes) : List Bool := leaves.flatMap (Leaf.pack element)

/-- The number of packed bits. -/
def bitCount : List Leaf → Nat
  | [] => 0
  | leaf :: rest => leaf.bits + bitCount rest

/-- Only significant bits of the element are set. -/
def Clean (leaves : List Leaf) (element : Bytes) : Prop :=
  ∀ index bit, element.bitAt index bit = true → ∃ leaf ∈ leaves, leaf.Significant index bit

section
variable {leaves : List Leaf} (hValid : ∀ leaf ∈ leaves, leaf.Valid)
include hValid

theorem proper_of_mem_flatMap {slice : Slice} (h : slice ∈ leaves.flatMap Leaf.slices) :
    slice.Proper := by
  obtain ⟨leaf, hLeaf, hSlice⟩ := List.mem_flatMap.mp h
  exact Leaf.proper_of_mem_slices (hValid leaf hLeaf) hSlice

theorem totalWidth_flatMap : Slice.totalWidth (leaves.flatMap Leaf.slices) = bitCount leaves := by
  induction leaves with
  | nil => rfl
  | cons leaf rest ih =>
    have hLeaf := Leaf.totalWidth_slices (hValid leaf List.mem_cons_self)
    have hRest := ih fun other hMem => hValid other (List.mem_cons_of_mem leaf hMem)
    rw [List.flatMap_cons, Slice.totalWidth_append, hLeaf, hRest, bitCount]

theorem within_iff_clean {element : Bytes} :
    Slice.Within (leaves.flatMap Leaf.slices) element ↔ Clean leaves element := by
  constructor
  · intro hWithin index bit hBit
    obtain ⟨slice, hSlice, hHolds⟩ := hWithin index bit hBit
    obtain ⟨leaf, hLeaf, hMem⟩ := List.mem_flatMap.mp hSlice
    exact ⟨leaf, hLeaf, (Leaf.exists_holds_iff (hValid leaf hLeaf)).mp ⟨slice, hMem, hHolds⟩⟩
  · intro hClean index bit hBit
    obtain ⟨leaf, hLeaf, hSignificant⟩ := hClean index bit hBit
    obtain ⟨slice, hMem, hHolds⟩ :=
      (Leaf.exists_holds_iff (hValid leaf hLeaf)).mpr hSignificant
    exact ⟨slice, List.mem_flatMap.mpr ⟨leaf, hLeaf, hMem⟩, hHolds⟩

theorem flatMap_bits_flatMap {element : Bytes}
    (hInside : ∀ leaf ∈ leaves, leaf.start + leaf.size ≤ element.length) :
    (leaves.flatMap Leaf.slices).flatMap (Slice.bits element) = pack leaves element := by
  induction leaves with
  | nil => rfl
  | cons leaf rest ih =>
    have hLeaf := Leaf.flatMap_bits_slices (hValid leaf List.mem_cons_self)
      (hInside leaf List.mem_cons_self)
    have hRest := ih (fun other hMem => hValid other (List.mem_cons_of_mem leaf hMem))
      (fun other hMem => hInside other (List.mem_cons_of_mem leaf hMem))
    rw [List.flatMap_cons, List.flatMap_append, hLeaf, hRest, pack, pack, List.flatMap_cons]

theorem nodup_index_flatMap (hApart : leaves.Pairwise Leaf.Apart) :
    ((leaves.flatMap Leaf.slices).map Slice.index).Nodup := by
  induction leaves with
  | nil => exact List.nodup_nil
  | cons leaf rest ih =>
    have hLeaf := hValid leaf List.mem_cons_self
    have hRest : ∀ other ∈ rest, other.Valid := fun other hMem =>
      hValid other (List.mem_cons_of_mem leaf hMem)
    obtain ⟨hFirst, hOthers⟩ := List.pairwise_cons.mp hApart
    rw [List.flatMap_cons, List.map_append, List.nodup_append]
    refine ⟨Leaf.nodup_index_slices hLeaf, ih hRest hOthers, ?_⟩
    rintro index hIndex other hOther rfl
    obtain ⟨slice, hSlice, rfl⟩ := List.mem_map.mp hIndex
    obtain ⟨second, hSecond, hSame⟩ := List.mem_map.mp hOther
    obtain ⟨apart, hMem, hSecond⟩ := List.mem_flatMap.mp hSecond
    have hCovers := Leaf.covers_of_mem_slices (hRest apart hMem) hSecond
    rw [hSame] at hCovers
    exact hFirst apart hMem slice.index ⟨Leaf.covers_of_mem_slices hLeaf hSlice, hCovers⟩

/-- Unpacking succeeds exactly if there are enough bits. -/
theorem unpackLeaves_cases (before : Unpacking) (hWell : before.2.WellFormed) :
    (∃ after, unpackLeaves leaves before = .ok after ∧ after.2.WellFormed ∧
        before.2.unread.length = bitCount leaves + after.2.unread.length) ∨
      (∃ error, unpackLeaves leaves before = .error error) ∧
        before.2.unread.length < bitCount leaves := by
  rw [unpackLeaves_eq_fill, ← totalWidth_flatMap hValid]
  exact fill_cases (fun _ => proper_of_mem_flatMap hValid) before hWell

/-- An element of zeros is filled with the packed bits. -/
theorem unpackLeaves_ok {size : Nat} (hSeparate : Separate leaves size) {cursor : BitCursor}
    (hWell : cursor.WellFormed) {after : Unpacking}
    (h : unpackLeaves leaves (Array.replicate size 0, cursor) = .ok after) :
    after.2.WellFormed ∧ after.1.toList.length = size ∧ Clean leaves after.1.toList ∧
      cursor.unread = pack leaves after.1.toList ++ after.2.unread := by
  have hInside : ∀ slice ∈ leaves.flatMap Leaf.slices,
      slice.index < (Array.replicate size (0 : UInt8)).size := by
    intro slice hSlice
    obtain ⟨leaf, hLeaf, hMem⟩ := List.mem_flatMap.mp hSlice
    have hCovers := Leaf.covers_of_mem_slices (hValid leaf hLeaf) hMem
    rw [Array.size_replicate]
    exact Nat.lt_of_lt_of_le hCovers.2 (hSeparate.inside leaf hLeaf)
  rw [unpackLeaves_eq_fill] at h
  have hFilled := filled_of_fill (fun _ => proper_of_mem_flatMap hValid)
    (nodup_index_flatMap hValid hSeparate.apart) hInside hWell h
  have hLength : after.1.toList.length = size := by
    rw [Array.length_toList, hFilled.size_eq, Array.size_replicate]
  refine ⟨hFilled.wellFormed, hLength, ?_, ?_⟩
  · rw [← within_iff_clean hValid]
    intro index bit hBit
    by_cases hIndex : index ∈ (leaves.flatMap Leaf.slices).map Slice.index
    · exact hFilled.holds index hIndex bit hBit
    · -- A byte of no slice is still zero.
      have hZero : Bytes.byteAt after.1.toList index = 0 := by
        rw [hFilled.byteAt_eq index hIndex, Array.toList_replicate, Bytes.byteAt,
          List.getElem?_replicate]
        split <;> rfl
      rw [Bytes.bitAt, hZero, UInt8.toNat_zero, Nat.zero_testBit] at hBit
      cases hBit
  · rw [← flatMap_bits_flatMap hValid fun leaf hLeaf => hLength.symm ▸
      hSeparate.inside leaf hLeaf]
    exact hFilled.unread_eq

/-- A clean element is determined by its packed bits. -/
theorem eq_of_pack_eq {size : Nat} (hSeparate : Separate leaves size) {first second : Bytes}
    (hFirst : first.length = size) (hSecond : second.length = size)
    (hFirstClean : Clean leaves first) (hSecondClean : Clean leaves second)
    (h : pack leaves first = pack leaves second) : first = second := by
  have hInside : ∀ {element : Bytes}, element.length = size →
      ∀ leaf ∈ leaves, leaf.start + leaf.size ≤ element.length :=
    fun hLength leaf hLeaf => hLength.symm ▸ hSeparate.inside leaf hLeaf
  rw [← flatMap_bits_flatMap hValid (hInside hFirst),
    ← flatMap_bits_flatMap hValid (hInside hSecond)] at h
  exact Slice.eq_of_bits_eq (hFirst.trans hSecond.symm)
    ((within_iff_clean hValid).mpr hFirstClean) ((within_iff_clean hValid).mpr hSecondClean) h

theorem length_pack {element : Bytes}
    (hInside : ∀ leaf ∈ leaves, leaf.start + leaf.size ≤ element.length) :
    (pack leaves element).length = bitCount leaves := by
  rw [← flatMap_bits_flatMap hValid hInside, Slice.length_flatMap_bits, totalWidth_flatMap hValid]

end

end ChunkFilters.Nbit
