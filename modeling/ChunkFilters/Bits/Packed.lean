import ChunkFilters.Bits.Cursor
import ChunkFilters.Element

/-!
# Packed elements

A packed element keeps only its significant bits. `PackedAtomic` says how many there are, where
they sit in the unpacked element, and in which order the bytes of that element are stored. The
significant bits come most significant first, so an element is filled one byte at a time from its
most significant byte down, wherever the byte order puts that byte.

Unpacking writes into a buffer of zeros. A position outside the buffer is read and not written.
-/

namespace ChunkFilters

structure PackedAtomic where
  size : Nat
  order : ByteOrder
  /-- The number of significant bits. -/
  precision : Nat
  /-- The number of bits below the significant ones. -/
  offset : Nat
deriving DecidableEq, Repr

/-- Unpacking stopped because the input ran out; the bytes before that point have been written. -/
structure Interrupted where
  error : Exhausted
  written : Array UInt8
deriving DecidableEq, Repr

namespace PackedAtomic

/-! ## Well-formed layouts -/

inductive Fault where
  | sizeZero
  | precisionZero
  | tooWide (precision offset size : Nat)
deriving DecidableEq, Repr

def Fault.message : Fault → String
  | sizeZero => "atomic element size is zero"
  | precisionZero => "atomic element precision is zero"
  | tooWide precision offset size =>
    s!"atomic element precision {precision} with offset {offset} exceeds its size of {size} bytes"

/-- The greatest number of bits that a layout can speak of. -/
def maxBits : Nat := UInt64.size - 1

def fault? (layout : PackedAtomic) : Option Fault :=
  if layout.size = 0 then some .sizeZero
  else if layout.precision = 0 then some .precisionZero
  else if min (8 * layout.size) maxBits < layout.precision + layout.offset then
    some (.tooWide layout.precision layout.offset layout.size)
  else none

theorem fault?_eq_none_iff (layout : PackedAtomic) :
    layout.fault? = none ↔ 0 < layout.size ∧ 0 < layout.precision ∧
      layout.precision + layout.offset ≤ min (8 * layout.size) maxBits := by
  unfold fault?
  split
  · simp; omega
  · split
    · simp; omega
    · split
      · simp; omega
      · simp; omega

/-! ## The bytes of an element -/

/-- Significant bits of one byte of an element: the index of the byte, the number of significant
bits in it, and the number of bits below them. -/
structure Slice where
  index : Nat
  width : Nat
  shift : Nat
deriving DecidableEq, Repr

/-- The significance of the lowest byte that holds a significant bit. -/
def lowestByte (layout : PackedAtomic) : Nat := layout.offset / 8

/-- The number of bytes that hold a significant bit. -/
def byteCount (layout : PackedAtomic) : Nat :=
  (layout.precision + layout.offset - 1) / 8 + 1 - layout.lowestByte

/-- The significant bits of the byte whose bits have the values `2 ^ (8 * significance)` and up. -/
def slice (layout : PackedAtomic) (significance : Nat) : Slice :=
  let low := max layout.offset (8 * significance)
  let high := min (layout.precision + layout.offset) (8 * significance + 8)
  { index := match layout.order with
      | .little => significance
      | .big => layout.size - 1 - significance
    width := high - low
    shift := low - 8 * significance }

/-! ## Unpacking -/

/-- Unpacks the `count` lowest of the bytes that hold significant bits, the highest of them first,
into the element that starts at `base`. -/
def unpackBytes (layout : PackedAtomic) (base : Nat) :
    Nat → Array UInt8 → BitCursor → Except Interrupted (Array UInt8 × BitCursor)
  | 0, buffer, cursor => .ok (buffer, cursor)
  | count + 1, buffer, cursor =>
    let slice := layout.slice (layout.lowestByte + count)
    match cursor.readBits slice.width with
    | .error error => .error ⟨error, buffer⟩
    | .ok (value, cursor) =>
      unpackBytes layout base count
        (buffer.setIfInBounds (base + slice.index) (value <<< UInt8.ofNat slice.shift)) cursor

def unpack (layout : PackedAtomic) (base : Nat) (buffer : Array UInt8) (cursor : BitCursor) :
    Except Interrupted (Array UInt8 × BitCursor) :=
  layout.unpackBytes base layout.byteCount buffer cursor

theorem size_unpackBytes {layout : PackedAtomic} {base count : Nat} {buffer bytes : Array UInt8}
    {cursor next : BitCursor}
    (h : layout.unpackBytes base count buffer cursor = .ok (bytes, next)) :
    bytes.size = buffer.size := by
  induction count generalizing buffer cursor with
  | zero =>
    simp only [unpackBytes, Except.ok.injEq, Prod.mk.injEq] at h
    obtain ⟨rfl, -⟩ := h
    rfl
  | succ count ih =>
    simp only [unpackBytes] at h
    split at h
    · cases h
    · rw [ih h, Array.size_setIfInBounds]

theorem size_unpack {layout : PackedAtomic} {base : Nat} {buffer bytes : Array UInt8}
    {cursor next : BitCursor} (h : layout.unpack base buffer cursor = .ok (bytes, next)) :
    bytes.size = buffer.size :=
  size_unpackBytes h

end PackedAtomic

/-- Copies whole bytes of the packed string, which need not be aligned to its bytes, to the `count`
positions from `base` on. -/
def BitCursor.copyBytes (base : Nat) :
    Nat → Array UInt8 → BitCursor → Except Interrupted (Array UInt8 × BitCursor)
  | 0, buffer, cursor => .ok (buffer, cursor)
  | count + 1, buffer, cursor =>
    match cursor.readBits 8 with
    | .error error => .error ⟨error, buffer⟩
    | .ok (value, cursor) =>
      copyBytes (base + 1) count (buffer.setIfInBounds base value) cursor

theorem BitCursor.size_copyBytes {base count : Nat} {buffer bytes : Array UInt8}
    {cursor next : BitCursor} (h : copyBytes base count buffer cursor = .ok (bytes, next)) :
    bytes.size = buffer.size := by
  induction count generalizing base buffer cursor with
  | zero =>
    simp only [copyBytes, Except.ok.injEq, Prod.mk.injEq] at h
    obtain ⟨rfl, -⟩ := h
    rfl
  | succ count ih =>
    simp only [copyBytes] at h
    split at h
    · cases h
    · rw [ih h, Array.size_setIfInBounds]

end ChunkFilters
