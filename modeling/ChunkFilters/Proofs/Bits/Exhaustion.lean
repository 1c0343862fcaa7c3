import ChunkFilters.Proofs.Bits.Position
import ChunkFilters.Proofs.Nbit.Leaves

/-!
# Where packed bits run out

Reads that begin in a byte string stay in it, and the one that fails does so at the end of the
string. The same holds of all that is put together from reads, whatever is made of the bits.

* `staysIn_readBits`: one read of up to eight bits;
* `staysIn_fill`, `staysIn_unpackLeaves`: the bytes of an element, of any layout;
* `staysIn_readMany`: many items.

Nothing is assumed of layouts. Even one that makes no sense fills at most eight bits at a time.
-/

namespace ChunkFilters

namespace BitCursor

/-- Reads of a byte string that end at one of its bits, or fail at its end. -/
def StaysIn {α : Type} (input : Bytes) : Except Exhausted (α × BitCursor) → Prop
  | .ok (_, next) => Reachable input next
  | .error error => error = exhaustedAt input

theorem StaysIn.eq_of_error {α : Type} {input : Bytes} {x : Except Exhausted (α × BitCursor)}
    (h : StaysIn input x) {error : Exhausted} (hError : x = .error error) :
    error = exhaustedAt input := by
  rw [hError] at h
  exact h

section
variable {input : Bytes} {cursor : BitCursor} (hCursor : Reachable input cursor)
include hCursor

theorem staysIn_readBits {count : Nat} (hMax : count ≤ 8) :
    StaysIn input (cursor.readBits count) := by
  obtain ⟨position, hPosition, rfl⟩ := reachable_iff.mp hCursor
  cases hRead : (ofPosition input position).readBits count with
  | error error => exact error_of_readBits hPosition hRead
  | ok result =>
    rcases Nat.eq_zero_or_pos count with rfl | hPos
    · -- a read of no bits leaves the cursor where it is
      have hSame := eq_ofPosition_of_readBits hMax hRead
      rw [Nat.add_zero] at hSame
      show Reachable input result.2
      rwa [hSame]
    · exact .read hPos hMax hCursor hRead

theorem staysIn_readMany {α : Type} {read : BitCursor → Except Exhausted (α × BitCursor)}
    (hRead : ∀ {cursor}, Reachable input cursor → StaysIn input (read cursor)) (count : Nat)
    (done : Array α) : StaysIn input (readMany read count cursor done) := by
  induction count generalizing cursor done with
  | zero => exact hCursor
  | succ count ih =>
    have hFirst := hRead hCursor
    rw [readMany]
    cases hItem : read cursor with
    | error error =>
      rw [hItem] at hFirst
      exact hFirst
    | ok result =>
      rw [hItem] at hFirst
      exact ih hFirst (done.push result.1)

end

theorem StaysIn.map {α β : Type} {input : Bytes} {x : Except Exhausted (α × BitCursor)}
    (h : StaysIn input x) (make : α → β) :
    StaysIn input (x.map fun result => (make result.1, result.2)) := by
  cases x with
  | error error => exact h
  | ok result => exact h

end BitCursor

open BitCursor

/-! ## Elements -/

theorem PackedAtomic.width_slice_le (layout : PackedAtomic) (significance : Nat) :
    (layout.slice significance).width ≤ 8 := by
  simp only [slice]
  omega

theorem Nbit.Leaf.width_le_of_mem_slices {leaf : Leaf} {slice : PackedAtomic.Slice}
    (h : slice ∈ leaf.slices) : slice.width ≤ 8 := by
  cases leaf with
  | atomic start layout =>
    obtain ⟨i, -, rfl⟩ := PackedAtomic.mem_slicesBelow.mp h
    exact layout.width_slice_le _
  | verbatim start size =>
    obtain ⟨index, -, -, rfl⟩ := mem_wholeBytes.mp h
    exact Nat.le_refl 8

section
variable {input : Bytes} {before : Array UInt8 × BitCursor}
  (hBefore : Reachable input before.2)
include hBefore

theorem staysIn_fill {slices : List PackedAtomic.Slice}
    (hWidths : ∀ slice ∈ slices, slice.width ≤ 8) : StaysIn input (fill slices before) := by
  induction slices generalizing before with
  | nil => exact hBefore
  | cons slice rest ih =>
    obtain ⟨hWidth, hRest⟩ := List.forall_mem_cons.mp hWidths
    have hFirst := staysIn_readBits hBefore hWidth
    obtain ⟨buffer, cursor⟩ := before
    rw [fill]
    cases hRead : cursor.readBits slice.width with
    | error error =>
      rw [hRead] at hFirst
      exact hFirst
    | ok result =>
      rw [hRead] at hFirst
      exact ih hFirst hRest

theorem Nbit.staysIn_unpackLeaves (leaves : List Leaf) :
    StaysIn input (unpackLeaves leaves before) := by
  rw [unpackLeaves_eq_fill]
  refine staysIn_fill hBefore ?_
  intro slice hSlice
  obtain ⟨leaf, -, hSlice⟩ := List.mem_flatMap.mp hSlice
  exact leaf.width_le_of_mem_slices hSlice

theorem Nbit.Layout.staysIn_unpack (layout : Layout) (start : Nat) :
    StaysIn input (layout.unpack start before) := by
  rw [unpack_eq_unpackLeaves]
  exact staysIn_unpackLeaves hBefore _

end

end ChunkFilters
