import ChunkFilters.Proofs.Nbit.Leaves

/-!
# Strings that go on

A read that has its bits does not depend on what the string holds after them, so it gives the same
on a string that goes on, and leaves the cursor at the same bit. This carries over to all that is
put together from reads. Items that are read one after the other do not depend on those that follow
them either.

* `readBits_extend`, `fill_extend`, `unpack_extend`, `readMany_extend`: the same on a longer string;
* `readMany_fewer`: the first of many items are the items of a shorter run.

Reads that fail are excluded: on a longer string they may succeed.
-/

namespace ChunkFilters

namespace BitCursor

/-- The cursor at the same bit of a string that goes on with `extra`. -/
def extend (extra : Bytes) (cursor : BitCursor) : BitCursor :=
  { cursor with rest := cursor.rest ++ extra }

theorem start_append (input extra : Bytes) :
    start (input ++ extra) = (start input).extend extra := rfl

theorem readBits_extend {count : Nat} {cursor next : BitCursor} {value : UInt8}
    (h : cursor.readBits count = .ok (value, next)) (extra : Bytes) :
    (cursor.extend extra).readBits count = .ok (value, next.extend extra) := by
  obtain ⟨byteIndex, bitsLeft, rest⟩ := cursor
  cases rest with
  | nil => cases h
  | cons byte rest =>
    have hExtended : extend extra ⟨byteIndex, bitsLeft, byte :: rest⟩ =
        ⟨byteIndex, bitsLeft, byte :: (rest ++ extra)⟩ := rfl
    rw [hExtended]
    simp only [readBits, nextByte] at h ⊢
    by_cases hWithin : count < bitsLeft
    · rw [if_pos hWithin] at h ⊢
      obtain ⟨rfl, rfl⟩ := Prod.mk.inj (Except.ok.inj h)
      rfl
    · rw [if_neg hWithin] at h ⊢
      by_cases hWhole : count = bitsLeft
      · rw [if_pos hWhole] at h ⊢
        obtain ⟨rfl, rfl⟩ := Prod.mk.inj (Except.ok.inj h)
        rfl
      · rw [if_neg hWhole] at h ⊢
        cases rest with
        | nil => cases h
        | cons following rest =>
          obtain ⟨rfl, rfl⟩ := Prod.mk.inj (Except.ok.inj h)
          rfl

/-! ## Many items -/

section
variable {ε α : Type} {read : BitCursor → Except ε (α × BitCursor)}

theorem readMany_extend {extra : Bytes}
    (hRead : ∀ {cursor next item}, read cursor = .ok (item, next) →
      read (cursor.extend extra) = .ok (item, next.extend extra))
    {count : Nat} {cursor next : BitCursor} {done items : Array α}
    (h : readMany read count cursor done = .ok (items, next)) :
    readMany read count (cursor.extend extra) done = .ok (items, next.extend extra) := by
  induction count generalizing cursor done with
  | zero =>
    obtain ⟨rfl, rfl⟩ := Prod.mk.inj (Except.ok.inj h)
    rfl
  | succ count ih =>
    rw [readMany] at h ⊢
    cases hFirst : read cursor with
    | error error =>
      rw [hFirst] at h
      cases h
    | ok result =>
      rw [hFirst] at h
      rw [hRead hFirst]
      exact ih h

/-- Items that were read are there after any fewer reads, and have what every item has. -/
theorem readMany_fewer {P : α → Prop}
    (hRead : ∀ {cursor next item}, read cursor = .ok (item, next) → P item)
    {count : Nat} {cursor next : BitCursor} {done items : Array α}
    (h : readMany read count cursor done = .ok (items, next)) :
    ∃ new : List α, items.toList = done.toList ++ new ∧ new.length = count ∧
      (∀ item ∈ new, P item) ∧
      ∀ fewer ≤ count, ∃ last, readMany read fewer cursor done =
        .ok ((done.toList ++ new.take fewer).toArray, last) := by
  induction count generalizing cursor done with
  | zero =>
    obtain ⟨rfl, rfl⟩ := Prod.mk.inj (Except.ok.inj h)
    refine ⟨[], (List.append_nil _).symm, rfl, List.forall_mem_nil _, ?_⟩
    intro fewer hFewer
    rw [Nat.le_zero.mp hFewer]
    exact ⟨cursor, by simp [readMany]⟩
  | succ count ih =>
    rw [readMany] at h
    cases hFirst : read cursor with
    | error error =>
      rw [hFirst] at h
      cases h
    | ok result =>
      obtain ⟨item, middle⟩ := result
      rw [hFirst] at h
      obtain ⟨new, hItems, hLength, hNew, hFewer⟩ := ih h
      refine ⟨item :: new, ?_, ?_, ?_, ?_⟩
      · rw [hItems, Array.toList_push, List.append_assoc, List.singleton_append]
      · rw [List.length_cons, hLength]
      · exact List.forall_mem_cons.mpr ⟨hRead hFirst, hNew⟩
      · intro fewer hLe
        cases fewer with
        | zero => exact ⟨cursor, by simp [readMany]⟩
        | succ fewer =>
          obtain ⟨last, hLast⟩ := hFewer fewer (Nat.le_of_succ_le_succ hLe)
          refine ⟨last, ?_⟩
          rw [readMany, hFirst, List.take_succ_cons]
          rw [Array.toList_push, List.append_assoc, List.singleton_append] at hLast
          exact hLast

end

end BitCursor

/-! ## Elements -/

theorem fill_extend {slices : List PackedAtomic.Slice} {before after : Array UInt8 × BitCursor}
    (h : fill slices before = .ok after) (extra : Bytes) :
    fill slices (before.1, before.2.extend extra) = .ok (after.1, after.2.extend extra) := by
  induction slices generalizing before with
  | nil =>
    cases h
    rfl
  | cons slice rest ih =>
    obtain ⟨buffer, cursor⟩ := before
    rw [fill] at h ⊢
    cases hRead : cursor.readBits slice.width with
    | error error =>
      rw [hRead] at h
      cases h
    | ok result =>
      rw [hRead] at h
      rw [BitCursor.readBits_extend hRead]
      exact ih h

theorem Nbit.Layout.unpack_extend {layout : Layout} {start : Nat} {before after : Unpacking}
    (h : layout.unpack start before = .ok after) (extra : Bytes) :
    layout.unpack start (before.1, before.2.extend extra) =
      .ok (after.1, after.2.extend extra) := by
  rw [unpack_eq_unpackLeaves, unpackLeaves_eq_fill] at h ⊢
  exact fill_extend h extra

end ChunkFilters
