import ChunkFilters.Proofs.Bits.Filling

/-!
# The slices of a packed element

A valid layout has its significant bits in the bytes from `lowestByte` on, `byteCount` of them.
`slices` lists what is unpacked into them, the most significant byte first, of an element that
starts at some byte of a string.

* `index_of_mem_slices`, `nodup_index_slices`: they are slices of distinct bytes of the element.
* `totalWidth_slices`: together they have as many bits as the layout has significant ones.
* `exists_holds_iff`: they hold the significant bits and no others.
* `flatMap_bits_slices`: from the first slice to the last, they are the significant bits of the
  element as a number, most significant first, in either byte order.
-/

namespace ChunkFilters

/-! ## Byte orders -/

namespace ByteOrder

/-- The byte of an element of `size` bytes that has a given significance. -/
def index (order : ByteOrder) (size significance : Nat) : Nat :=
  match order with
  | .little => significance
  | .big => size - 1 - significance

/-- The number that a byte string is. -/
def value (order : ByteOrder) (bytes : Bytes) : Nat :=
  match order with
  | .little => Bytes.littleEndian bytes
  | .big => Bytes.bigEndian bytes

theorem index_lt {size significance : Nat} (h : significance < size) (order : ByteOrder) :
    order.index size significance < size := by
  cases order with
  | little => exact h
  | big =>
    rw [index]
    omega

theorem index_inj {size first second : Nat} (hFirst : first < size) (hSecond : second < size)
    {order : ByteOrder} (h : order.index size first = order.index size second) :
    first = second := by
  cases order with
  | little => exact h
  | big =>
    rw [index, index] at h
    omega

theorem testBit_value {bytes : Bytes} {position : Nat} (h : position / 8 < bytes.length)
    (order : ByteOrder) :
    (order.value bytes).testBit position =
      bytes.bitAt (order.index bytes.length (position / 8)) (position % 8) := by
  cases order with
  | little => exact Bytes.testBit_littleEndian bytes position
  | big => exact Bytes.testBit_bigEndian h

end ByteOrder

namespace Bytes

/-- The `size` bytes from `start` on. -/
def range (bytes : Bytes) (start size : Nat) : Bytes := (bytes.drop start).take size

theorem length_range {bytes : Bytes} {start size : Nat} (h : start + size ≤ bytes.length) :
    (bytes.range start size).length = size := by
  rw [range, List.length_take, List.length_drop]
  omega

theorem bitAt_range {index size : Nat} (h : index < size) (bytes : Bytes) (start bit : Nat) :
    (bytes.range start size).bitAt index bit = bytes.bitAt (start + index) bit := by
  rw [bitAt, bitAt, byteAt, byteAt, range, List.getElem?_take_of_lt h, List.getElem?_drop]

end Bytes

namespace PackedAtomic

/-! ## Valid layouts -/

/-- There is a significant bit, and all of them lie within the element. -/
structure Valid (layout : PackedAtomic) : Prop where
  size_pos : 0 < layout.size
  precision_pos : 0 < layout.precision
  precision_add_offset_le : layout.precision + layout.offset ≤ 8 * layout.size

theorem valid_of_fault? {layout : PackedAtomic} (h : layout.fault? = none) : layout.Valid := by
  obtain ⟨hSize, hPrecision, hLe⟩ := layout.fault?_eq_none_iff.mp h
  exact ⟨hSize, hPrecision, Nat.le_trans hLe (Nat.min_le_left _ _)⟩

theorem fault?_of_valid {layout : PackedAtomic} (h : layout.Valid)
    (hMax : 8 * layout.size ≤ maxBits) : layout.fault? = none := by
  rw [fault?_eq_none_iff, Nat.min_eq_left hMax]
  exact ⟨h.size_pos, h.precision_pos, h.precision_add_offset_le⟩

/-- The significant bits that lie in the `count` lowest bytes with significant bits. -/
def bitsBelow (layout : PackedAtomic) (count : Nat) : Nat :=
  min (layout.precision + layout.offset) (8 * (layout.lowestByte + count)) - layout.offset

section
variable {layout : PackedAtomic} (hValid : layout.Valid)
include hValid

theorem significance_lt {count : Nat} (h : count < layout.byteCount) :
    layout.lowestByte + count < layout.size := by
  have hLe := hValid.precision_add_offset_le
  have hPos := hValid.precision_pos
  rw [byteCount] at h
  omega

theorem proper_slice {count : Nat} (h : count < layout.byteCount) :
    (layout.slice (layout.lowestByte + count)).Proper := by
  have hPos := hValid.precision_pos
  rw [byteCount, lowestByte] at h
  constructor
  · rw [slice, lowestByte]
    dsimp only
    omega
  · rw [slice, lowestByte]
    dsimp only
    omega

theorem bitsBelow_succ (count : Nat) :
    layout.bitsBelow (count + 1) =
      (layout.slice (layout.lowestByte + count)).width + layout.bitsBelow count := by
  have hPos := hValid.precision_pos
  rw [bitsBelow, bitsBelow, slice, lowestByte]
  dsimp only
  omega

theorem bitsBelow_byteCount : layout.bitsBelow layout.byteCount = layout.precision := by
  have hPos := hValid.precision_pos
  rw [bitsBelow, byteCount, lowestByte]
  omega

/-- The lowest bit of a slice is the significant bit after those of the bytes below it. -/
theorem lowest_slice {count : Nat} (h : count < layout.byteCount) :
    8 * (layout.lowestByte + count) + (layout.slice (layout.lowestByte + count)).shift =
      layout.offset + layout.bitsBelow count := by
  have hPos := hValid.precision_pos
  rw [byteCount, lowestByte] at h
  rw [bitsBelow, slice, lowestByte]
  dsimp only
  omega

end

theorem bitsBelow_zero (layout : PackedAtomic) : layout.bitsBelow 0 = 0 := by
  rw [bitsBelow, lowestByte]
  omega

/-! ## Slices -/

/-- A slice of an element that starts at `base`. -/
def Slice.moved (base : Nat) (slice : Slice) : Slice := { slice with index := base + slice.index }

/-- The slices of the `count` lowest bytes with significant bits, the highest of them first. -/
def slicesBelow (layout : PackedAtomic) (base : Nat) : Nat → List Slice
  | 0 => []
  | count + 1 =>
    (layout.slice (layout.lowestByte + count)).moved base :: slicesBelow layout base count

/-- The slices of an element that starts at `base`. -/
def slices (layout : PackedAtomic) (base : Nat) : List Slice :=
  layout.slicesBelow base layout.byteCount

theorem mem_slicesBelow {layout : PackedAtomic} {base count : Nat} {slice : Slice} :
    slice ∈ layout.slicesBelow base count ↔
      ∃ i < count, slice = (layout.slice (layout.lowestByte + i)).moved base := by
  induction count with
  | zero =>
    constructor
    · intro h
      cases h
    · rintro ⟨i, hi, -⟩
      exact absurd hi (Nat.not_lt_zero i)
  | succ count ih =>
    rw [slicesBelow, List.mem_cons, ih]
    constructor
    · rintro (rfl | ⟨i, hi, rfl⟩)
      · exact ⟨count, Nat.lt_succ_self count, rfl⟩
      · exact ⟨i, Nat.lt_succ_of_lt hi, rfl⟩
    · rintro ⟨i, hi, rfl⟩
      rcases Nat.lt_succ_iff_lt_or_eq.mp hi with hi | rfl
      · exact Or.inr ⟨i, hi, rfl⟩
      · exact Or.inl rfl

section
variable {layout : PackedAtomic} (hValid : layout.Valid) (base : Nat)
include hValid

theorem proper_of_mem_slices {slice : Slice} (h : slice ∈ layout.slices base) : slice.Proper := by
  obtain ⟨i, hi, rfl⟩ := mem_slicesBelow.mp h
  have hProper := proper_slice hValid hi
  exact ⟨hProper.width_pos, hProper.shift_add_width_le⟩

theorem index_of_mem_slices {slice : Slice} (h : slice ∈ layout.slices base) :
    base ≤ slice.index ∧ slice.index < base + layout.size := by
  obtain ⟨i, hi, rfl⟩ := mem_slicesBelow.mp h
  have hIndex := ByteOrder.index_lt (significance_lt hValid hi) layout.order
  exact ⟨Nat.le_add_right _ _, Nat.add_lt_add_left hIndex base⟩

theorem nodup_index_slices : ((layout.slices base).map Slice.index).Nodup := by
  have hBelow : ∀ count ≤ layout.byteCount,
      ((layout.slicesBelow base count).map Slice.index).Nodup := by
    intro count
    induction count with
    | zero => exact fun _ => List.nodup_nil
    | succ count ih =>
      intro hCount
      rw [slicesBelow, List.map_cons, List.nodup_cons]
      refine ⟨?_, ih (Nat.le_of_succ_le hCount)⟩
      intro hMem
      obtain ⟨slice, hSlice, hIndex⟩ := List.mem_map.mp hMem
      obtain ⟨i, hi, rfl⟩ := mem_slicesBelow.mp hSlice
      -- Different significances are different bytes, whatever the byte order.
      have hSame := ByteOrder.index_inj (significance_lt hValid (Nat.lt_trans hi hCount))
        (significance_lt hValid hCount) (Nat.add_left_cancel hIndex)
      omega
  exact hBelow layout.byteCount (Nat.le_refl _)

theorem totalWidth_slices : Slice.totalWidth (layout.slices base) = layout.precision := by
  have hBelow : ∀ count ≤ layout.byteCount,
      Slice.totalWidth (layout.slicesBelow base count) = layout.bitsBelow count := by
    intro count
    induction count with
    | zero => exact fun _ => layout.bitsBelow_zero.symm
    | succ count ih =>
      intro hCount
      rw [slicesBelow, Slice.totalWidth, ih (Nat.le_of_succ_le hCount),
        bitsBelow_succ hValid count]
      rfl
  rw [slices, hBelow _ (Nat.le_refl _), bitsBelow_byteCount hValid]

/-! ## Significant bits -/

/-- The slices hold the bits from `offset` on, `precision` of them. -/
theorem exists_holds_iff {index bit : Nat} :
    (∃ slice ∈ layout.slices base, slice.Holds index bit) ↔
      ∃ position, layout.offset ≤ position ∧ position < layout.precision + layout.offset ∧
        index = base + layout.order.index layout.size (position / 8) ∧ bit = position % 8 := by
  have hPos := hValid.precision_pos
  constructor
  · rintro ⟨slice, hMem, hIndex, hLow, hHigh⟩
    obtain ⟨i, hi, rfl⟩ := mem_slicesBelow.mp hMem
    have hProper := (proper_slice hValid hi).shift_add_width_le
    have hLowest := lowest_slice hValid hi
    have hSucc := bitsBelow_succ hValid i
    have hTop : layout.bitsBelow (i + 1) ≤ layout.precision := by
      rw [bitsBelow]
      omega
    simp only [Slice.moved] at hIndex hLow hHigh
    have hDiv : (8 * (layout.lowestByte + i) + bit) / 8 = layout.lowestByte + i := by omega
    have hMod : (8 * (layout.lowestByte + i) + bit) % 8 = bit := by omega
    refine ⟨8 * (layout.lowestByte + i) + bit, by omega, by omega, ?_, hMod.symm⟩
    rw [hDiv, hIndex]
    rfl
  · rintro ⟨position, hLow, hHigh, hIndex, hBit⟩
    have hFirst : layout.lowestByte ≤ position / 8 := by
      rw [lowestByte]
      omega
    have hCount : position / 8 - layout.lowestByte < layout.byteCount := by
      rw [byteCount]
      omega
    have hByte : layout.lowestByte + (position / 8 - layout.lowestByte) = position / 8 :=
      Nat.add_sub_cancel' hFirst
    refine ⟨_, mem_slicesBelow.mpr ⟨_, hCount, rfl⟩, ?_⟩
    rw [hByte]
    refine ⟨hIndex, ?_, ?_⟩
    · rw [hBit, Slice.moved, slice]
      dsimp only
      omega
    · rw [hBit, Slice.moved, slice]
      dsimp only
      omega

/-- The bits of the slices are the significant bits of the element as a number. -/
theorem flatMap_bits_slices {bytes : Bytes} (h : base + layout.size ≤ bytes.length) :
    (layout.slices base).flatMap (Slice.bits bytes) =
      numberBits layout.precision
        (layout.order.value (bytes.range base layout.size) >>> layout.offset) := by
  have hLength := Bytes.length_range h
  have hBelow : ∀ count ≤ layout.byteCount,
      (layout.slicesBelow base count).flatMap (Slice.bits bytes) =
        numberBits (layout.bitsBelow count)
          (layout.order.value (bytes.range base layout.size) >>> layout.offset) := by
    intro count
    induction count with
    | zero =>
      intro _
      rw [bitsBelow_zero]
      rfl
    | succ count ih =>
      intro hCount
      have hSignificance := significance_lt hValid hCount
      have hProper := (proper_slice hValid hCount).shift_add_width_le
      have hLowest := lowest_slice hValid hCount
      rw [slicesBelow, List.flatMap_cons, ih (Nat.le_of_succ_le hCount),
        bitsBelow_succ hValid count, numberBits_add]
      congr 1
      apply numberBits_congr
      intro bit hBit
      have hBit : bit < (layout.slice (layout.lowestByte + count)).width := hBit
      have hDiv : (layout.offset + (layout.bitsBelow count + bit)) / 8 =
          layout.lowestByte + count := by omega
      have hMod : (layout.offset + (layout.bitsBelow count + bit)) % 8 =
          (layout.slice (layout.lowestByte + count)).shift + bit := by omega
      rw [Nat.testBit_shiftRight, Nat.testBit_shiftRight, Nat.testBit_shiftRight,
        ByteOrder.testBit_value (by rw [hDiv, hLength]; exact hSignificance), hLength, hDiv, hMod,
        Bytes.bitAt_range (ByteOrder.index_lt hSignificance layout.order)]
      rfl
  rw [slices, hBelow _ (Nat.le_refl _), bitsBelow_byteCount hValid]

end

end PackedAtomic

end ChunkFilters
