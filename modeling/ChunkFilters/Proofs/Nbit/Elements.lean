import ChunkFilters.Nbit
import ChunkFilters.Proofs.Nbit.Leaves

/-!
# The elements of a chunk

The elements of a chunk are unpacked one after the other from a single bit string. What holds of
the leaves of one element holds of any number of elements by induction on how many there are.

* `unpackElements_isOk_iff`: without a fault in the description, the elements can be unpacked if
  and only if there are enough bits for all of them.
* `unpackElements_ok`: packed again, the elements are the front of the input.
* `eq_of_flatMap_pack_eq`: as many clean elements with the same packed bits are the same elements.
-/

namespace ChunkFilters.Nbit

/-! ## One element after the other -/

section
variable {layout : Layout} (hValid : ∀ leaf ∈ layout.leaves 0, leaf.Valid)
include hValid

/-- There is enough to read for all elements or there is not. -/
theorem readMany_cases (size count : Nat) (cursor : BitCursor) (hWell : cursor.WellFormed)
    (done : Array (Array UInt8)) :
    (∃ unpacked after, BitCursor.readMany (unpackElement layout size) count cursor done =
        .ok (unpacked, after)) ∧ count * bitCount (layout.leaves 0) ≤ cursor.unread.length ∨
      (∃ error, BitCursor.readMany (unpackElement layout size) count cursor done =
        .error error) ∧ cursor.unread.length < count * bitCount (layout.leaves 0) := by
  induction count generalizing cursor done with
  | zero =>
    rw [Nat.zero_mul]
    exact Or.inl ⟨⟨done, cursor, rfl⟩, Nat.zero_le _⟩
  | succ count ih =>
    have hCount : (count + 1) * bitCount (layout.leaves 0) =
        count * bitCount (layout.leaves 0) + bitCount (layout.leaves 0) := Nat.succ_mul _ _
    rw [BitCursor.readMany, unpackElement, layout.unpack_eq_unpackLeaves]
    have hCases := unpackLeaves_cases hValid (Array.replicate size 0, cursor) hWell
    rcases hCases with ⟨⟨item, next⟩, hOk, hNext, hLength⟩ | ⟨⟨error, hError⟩, hShort⟩
    · have hLength : cursor.unread.length =
          bitCount (layout.leaves 0) + next.unread.length := hLength
      rw [hOk]
      rcases ih next hNext (done.push item) with ⟨hRest, hLe⟩ | ⟨hRest, hLt⟩
      · exact Or.inl ⟨hRest, by omega⟩
      · exact Or.inr ⟨hRest, by omega⟩
    · have hShort : cursor.unread.length < bitCount (layout.leaves 0) := hShort
      rw [hError]
      exact Or.inr ⟨⟨error, rfl⟩, by omega⟩

/-- The elements that were read are clean, and their packed bits come first in what was unread. -/
theorem readMany_ok {size : Nat} (hSeparate : Separate (layout.leaves 0) size) {count : Nat}
    {cursor after : BitCursor} (hWell : cursor.WellFormed) {done unpacked : Array (Array UInt8)}
    (h : BitCursor.readMany (unpackElement layout size) count cursor done =
      .ok (unpacked, after)) :
    ∃ elements : List Bytes,
      unpacked.toList.map Array.toList = done.toList.map Array.toList ++ elements ∧
      elements.length = count ∧
      (∀ element ∈ elements, element.length = size ∧ Clean (layout.leaves 0) element) ∧
      cursor.unread = elements.flatMap (pack (layout.leaves 0)) ++ after.unread := by
  induction count generalizing cursor done with
  | zero =>
    rw [BitCursor.readMany, Except.ok.injEq, Prod.mk.injEq] at h
    obtain ⟨rfl, rfl⟩ := h
    exact ⟨[], (List.append_nil _).symm, rfl, List.forall_mem_nil _, rfl⟩
  | succ count ih =>
    rw [BitCursor.readMany, unpackElement, layout.unpack_eq_unpackLeaves] at h
    cases hFirst : unpackLeaves (layout.leaves 0) (Array.replicate size 0, cursor) with
    | error error =>
      rw [hFirst] at h
      cases h
    | ok state =>
      obtain ⟨item, next⟩ := state
      rw [hFirst] at h
      obtain ⟨hNext, hLength, hClean, hUnread⟩ := unpackLeaves_ok hValid hSeparate hWell hFirst
      obtain ⟨elements, hUnpacked, hCount, hElements, hRest⟩ := ih hNext h
      refine ⟨item.toList :: elements, ?_, ?_, ?_, ?_⟩
      · rw [hUnpacked, Array.toList_push, List.map_append, List.append_assoc]
        rfl
      · rw [List.length_cons, hCount]
      · intro element hMem
        rcases List.mem_cons.mp hMem with rfl | hMem
        · exact ⟨hLength, hClean⟩
        · exact hElements element hMem
      · rw [hUnread, hRest, List.flatMap_cons, List.append_assoc]

end

/-! ## The elements of a walk -/

section
variable {walk : Walk} (hValid : ∀ leaf ∈ walk.layout.leaves 0, leaf.Valid)
include hValid

/-- The elements of a walk without a fault can be unpacked exactly if there are enough bits. -/
theorem unpackElements_isOk_iff {count : Nat} (hFault : walk.fault? count = none)
    (size elements : Nat) (input : Bytes) :
    (∃ out, unpackElements walk size count elements input = .ok out) ↔
      elements * bitCount (walk.layout.leaves 0) ≤ 8 * input.length := by
  have hLength : (BitCursor.start input).unread.length = 8 * input.length :=
    Bytes.length_bits input
  by_cases hNone : elements = 0
  · rw [unpackElements, if_pos hNone, hNone, Nat.zero_mul]
    exact ⟨fun _ => Nat.zero_le _, fun _ => ⟨[], rfl⟩⟩
  · rw [unpackElements, if_neg hNone, hFault, ← hLength]
    rcases readMany_cases hValid size elements (.start input)
        (BitCursor.wellFormed_start input) #[] with
      ⟨⟨unpacked, after, hOk⟩, hLe⟩ | ⟨⟨error, hError⟩, hLt⟩
    · rw [hOk]
      exact ⟨fun _ => hLe, fun _ => ⟨_, rfl⟩⟩
    · rw [hError]
      refine ⟨?_, fun hLe => absurd hLe (Nat.not_le.mpr hLt)⟩
      rintro ⟨out, hOut⟩
      cases hOut

/-- Unpacked elements are clean and pack to the front of the input. -/
theorem unpackElements_ok {count : Nat} (hFault : walk.fault? count = none) {size : Nat}
    (hSeparate : Separate (walk.layout.leaves 0) size) {elements : Nat} {input out : Bytes}
    (h : unpackElements walk size count elements input = .ok out) :
    ∃ unpacked : List Bytes, out = unpacked.flatten ∧ unpacked.length = elements ∧
      (∀ element ∈ unpacked, element.length = size ∧ Clean (walk.layout.leaves 0) element) ∧
      unpacked.flatMap (pack (walk.layout.leaves 0)) <+: Bytes.bits input := by
  by_cases hNone : elements = 0
  · rw [unpackElements, if_pos hNone, Except.ok.injEq] at h
    exact ⟨[], h.symm, hNone.symm, List.forall_mem_nil _, List.nil_prefix⟩
  · rw [unpackElements, if_neg hNone, hFault] at h
    dsimp only at h
    cases hRead : BitCursor.readMany (unpackElement walk.layout size) elements (.start input)
        #[] with
    | error error =>
      rw [hRead] at h
      cases h
    | ok result =>
      obtain ⟨items, after⟩ := result
      rw [hRead] at h
      obtain ⟨unpacked, hItems, hCount, hElements, hUnread⟩ :=
        readMany_ok hValid hSeparate (BitCursor.wellFormed_start input) hRead
      have hItems : items.toList.map Array.toList = unpacked := hItems
      refine ⟨unpacked, ?_, hCount, hElements, after.unread, hUnread.symm⟩
      rw [← hItems]
      exact (Except.ok.inj h).symm

end

/-! ## Packed elements -/

section
variable {leaves : List Leaf} (hValid : ∀ leaf ∈ leaves, leaf.Valid)
include hValid

/-- The packed bits of clean elements determine the elements. -/
theorem eq_of_flatMap_pack_eq {size : Nat} (hSeparate : Separate leaves size)
    {first second : List Bytes} (hLength : first.length = second.length)
    (hFirst : ∀ element ∈ first, element.length = size ∧ Clean leaves element)
    (hSecond : ∀ element ∈ second, element.length = size ∧ Clean leaves element)
    (h : first.flatMap (pack leaves) = second.flatMap (pack leaves)) :
    first = second := by
  induction first generalizing second with
  | nil => exact (List.length_eq_zero_iff.mp hLength.symm).symm
  | cons head rest ih =>
    cases second with
    | nil => cases hLength
    | cons other others =>
      obtain ⟨hHead, hHeadClean⟩ := hFirst head List.mem_cons_self
      obtain ⟨hOther, hOtherClean⟩ := hSecond other List.mem_cons_self
      have hPacked : (pack leaves head).length =
          (pack leaves other).length := by
        rw [length_pack hValid (hHead.symm ▸ hSeparate.inside),
          length_pack hValid (hOther.symm ▸ hSeparate.inside)]
      rw [List.flatMap_cons, List.flatMap_cons] at h
      obtain ⟨hSame, hRest⟩ := List.append_inj h hPacked
      rw [eq_of_pack_eq hValid hSeparate hHead hOther hHeadClean hOtherClean hSame,
        ih (Nat.succ.inj hLength)
          (fun element hMem => hFirst element (List.mem_cons_of_mem head hMem))
          (fun element hMem => hSecond element (List.mem_cons_of_mem other hMem)) hRest]

theorem length_flatMap_pack {size : Nat} (hSeparate : Separate leaves size)
    {elements : List Bytes} (hElements : ∀ element ∈ elements, element.length = size) :
    (elements.flatMap (pack leaves)).length =
      elements.length * bitCount leaves := by
  induction elements with
  | nil => rw [List.length_nil, Nat.zero_mul]; rfl
  | cons element rest ih =>
    have hElement := hElements element List.mem_cons_self
    rw [List.flatMap_cons, List.length_append,
      length_pack hValid (hElement.symm ▸ hSeparate.inside),
      ih fun other hMem => hElements other (List.mem_cons_of_mem element hMem), List.length_cons,
      Nat.succ_mul, Nat.add_comm]

end

end ChunkFilters.Nbit
