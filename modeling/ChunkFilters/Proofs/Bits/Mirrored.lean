import ChunkFilters.Proofs.Bits.Slices

/-!
# Unpacking in the other byte order

The byte order of a packed element says where its bytes go and nothing else. The bits are read in
the same order and in the same portions, so that unpacking in the two orders goes on and stops
together, and one element has the bytes of the other in reverse.

* `fill_mirrored`: slices of the bytes counted from the end fill a buffer that is reversed;
* `slices_big`: the slices of an element in one byte order are those of the other, counted from the
  end of the element.
-/

namespace ChunkFilters

open PackedAtomic

/-- The slice of the byte at the same distance from the other end of `size` bytes. -/
def PackedAtomic.Slice.mirrored (size : Nat) (slice : Slice) : Slice :=
  { slice with index := size - 1 - slice.index }

theorem reverse_set {α : Type} {items : List α} {index : Nat} (h : index < items.length)
    (item : α) :
    (items.set index item).reverse = items.reverse.set (items.length - 1 - index) item := by
  apply List.ext_getElem
  · rw [List.length_reverse, List.length_set, List.length_set, List.length_reverse]
  · intro place hPlace _
    rw [List.length_reverse, List.length_set] at hPlace
    have hSame : index = items.length - 1 - place ↔ items.length - 1 - index = place := by omega
    simp only [List.getElem_reverse, List.getElem_set, List.length_set, hSame]

theorem reverse_setIfInBounds {buffer : Array UInt8} {index : Nat} (h : index < buffer.size)
    (value : UInt8) :
    (buffer.setIfInBounds index value).reverse =
      buffer.reverse.setIfInBounds (buffer.size - 1 - index) value := by
  apply Array.toList_inj.mp
  rw [Array.toList_reverse, Array.toList_setIfInBounds, Array.toList_setIfInBounds,
    Array.toList_reverse, reverse_set h, Array.length_toList]

/-- What is read into a reversed buffer from its other end is the same, reversed. -/
theorem fill_mirrored {size : Nat} {slices : List Slice}
    (hInside : ∀ slice ∈ slices, slice.index < size) {buffer : Array UInt8}
    (hSize : buffer.size = size) (cursor : BitCursor) :
    fill (slices.map (Slice.mirrored size)) (buffer.reverse, cursor) =
      (fill slices (buffer, cursor)).map fun state => (state.1.reverse, state.2) := by
  induction slices generalizing buffer cursor with
  | nil => rfl
  | cons slice rest ih =>
    have hRest : ∀ other ∈ rest, other.index < size := fun other hOther =>
      hInside other (List.mem_cons_of_mem slice hOther)
    rw [List.map_cons, fill, fill]
    simp only [Slice.mirrored]
    cases cursor.readBits slice.width with
    | error error => rfl
    | ok result =>
      obtain ⟨value, next⟩ := result
      have hIndex : slice.index < buffer.size := hSize ▸ hInside slice List.mem_cons_self
      dsimp only
      rw [← hSize, ← reverse_setIfInBounds hIndex, hSize]
      apply ih hRest
      rw [Array.size_setIfInBounds, hSize]

namespace PackedAtomic

theorem slicesBelow_big {layout : PackedAtomic} (hOrder : layout.order = .little) (count : Nat) :
    slicesBelow { layout with order := .big } 0 count =
      (layout.slicesBelow 0 count).map (Slice.mirrored layout.size) := by
  induction count with
  | zero => rfl
  | succ count ih =>
    have hFirst : (slice { layout with order := .big } (layout.lowestByte + count)).moved 0 =
        ((layout.slice (layout.lowestByte + count)).moved 0).mirrored layout.size := by
      simp only [Slice.moved, Slice.mirrored, slice, hOrder, Nat.zero_add]
    rw [slicesBelow, slicesBelow, List.map_cons, ih, ← hFirst]
    rfl

theorem slices_big {layout : PackedAtomic} (hOrder : layout.order = .little) :
    slices { layout with order := .big } 0 =
      (layout.slices 0).map (Slice.mirrored layout.size) :=
  slicesBelow_big hOrder layout.byteCount

end PackedAtomic

end ChunkFilters
