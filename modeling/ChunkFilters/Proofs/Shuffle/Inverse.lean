import ChunkFilters.Shuffle

/-!
# Shuffling by positions

`Shuffled` says where each byte of a chunk is stored: byte `k` of element `i` is stored at position
`k * count + i`, where `count` is the number of whole elements, and the bytes that form no whole
element stay where they are. Elements of at most one byte are not moved.

* `shuffled_shuffle`: `shuffle` stores bytes in this way;
* `unshuffle_of_shuffled`: `unshuffle` gives back whatever was stored in this way. Nothing is
  assumed of the width, which need not divide the length and may be zero or exceed it.
-/

namespace ChunkFilters.Shuffle

/-- The bytes `stored` are those of a chunk with elements of `width` bytes, shuffled. -/
structure Shuffled (width : Nat) (bytes stored : Bytes) : Prop where
  length_eq : stored.length = bytes.length
  of_narrow : width ≤ 1 → stored = bytes
  moved : 1 < width → ∀ i k, i < bytes.length / width → k < width →
    stored[k * (bytes.length / width) + i]? = bytes[i * width + k]?
  kept : 1 < width → ∀ position, width * (bytes.length / width) ≤ position →
    stored[position]? = bytes[position]?

/-! ## Positions -/

theorem mul_add_lt_mul {i k count width : Nat} (hi : i < count) (hk : k < width) :
    i * width + k < count * width := by
  have hStep : i * width + width ≤ count * width := by
    rw [← Nat.succ_mul]
    exact Nat.mul_le_mul_right width hi
  omega

theorem shuffledPosition_of_lt {size count i k : Nat} (hi : i < count) (hk : k < size) :
    shuffledPosition size count (i * size + k) = k * count + i := by
  have hLt : i * size + k < size * count := by
    rw [Nat.mul_comm size count]
    exact mul_add_lt_mul hi hk
  have hMod : (i * size + k) % size = k := by
    rw [Nat.mul_add_mod_self_right, Nat.mod_eq_of_lt hk]
  have hDiv : (i * size + k) / size = i := by
    rw [Nat.mul_comm i size, Nat.mul_add_div (by omega), Nat.div_eq_of_lt hk, Nat.add_zero]
  rw [shuffledPosition, if_pos hLt, hMod, hDiv]

theorem shuffledPosition_of_le {size count position : Nat} (h : size * count ≤ position) :
    shuffledPosition size count position = position :=
  if_neg (Nat.not_lt.mpr h)

/-- The whole elements do not reach beyond the end. -/
theorem whole_le (width : Nat) (bytes : Bytes) :
    width * (bytes.length / width) ≤ bytes.length :=
  Nat.mul_div_le bytes.length width

theorem isTrivial_iff (width : Nat) (bytes : Bytes) :
    isTrivial width bytes = true ↔ width ≤ 1 ∨ bytes.length / width < 2 := by
  unfold isTrivial
  rw [Bool.or_eq_true, decide_eq_true_eq, decide_eq_true_eq]
  exact Iff.rfl

/-! ## Shuffling -/

theorem shuffled_shuffle (width : Nat) (bytes : Bytes) :
    Shuffled width bytes (shuffle width bytes) := by
  have hWhole := whole_le width bytes
  unfold shuffle
  by_cases hTrivial : isTrivial width bytes = true
  · rw [if_pos hTrivial]
    refine ⟨rfl, fun _ => rfl, ?_, fun _ _ _ => rfl⟩
    intro hWidth i k hi hk
    rw [isTrivial_iff] at hTrivial
    -- With more than one byte to an element there is a single element, and its bytes are in place.
    have hCount : bytes.length / width = 1 := by omega
    rw [hCount] at hi ⊢
    have hZero : i = 0 := by omega
    rw [hZero, Nat.mul_one, Nat.zero_mul, Nat.zero_add, Nat.add_zero]
  · rw [if_neg hTrivial]
    rw [isTrivial_iff, not_or] at hTrivial
    refine ⟨length_gather _ _, fun hWidth => absurd hWidth hTrivial.1, ?_, ?_⟩
    · intro _ i k hi hk
      have hTarget : k * (bytes.length / width) + i < width * (bytes.length / width) :=
        mul_add_lt_mul hk hi
      have hSource : i * width + k < bytes.length / width * width := mul_add_lt_mul hi hk
      rw [Nat.mul_comm (bytes.length / width)] at hSource
      have hPosition : shuffledPosition (elementCount width bytes) width
          (k * (bytes.length / width) + i) = i * width + k := shuffledPosition_of_lt hk hi
      rw [getElem?_gather (by omega) (by omega), hPosition]
    · intro _ position hPosition
      by_cases hLt : position < bytes.length
      · have hSame : shuffledPosition (elementCount width bytes) width position = position :=
          shuffledPosition_of_le (by rw [Nat.mul_comm]; exact hPosition)
        rw [getElem?_gather hLt (by omega), hSame]
      · rw [List.getElem?_eq_none (by rw [length_gather]; omega),
          List.getElem?_eq_none (by omega)]

/-! ## Unshuffling -/

/-- Fewer than two elements are in place. -/
theorem Shuffled.eq_of_lt_two {width : Nat} {bytes stored : Bytes}
    (h : Shuffled width bytes stored) (hCount : bytes.length / width < 2) : stored = bytes := by
  rcases Nat.lt_or_ge 1 width with hWidth | hWidth
  · apply List.ext_getElem?
    intro position
    by_cases hKept : width * (bytes.length / width) ≤ position
    · exact h.kept hWidth position hKept
    · have hOne : bytes.length / width = 1 := by
        have hNonzero : bytes.length / width ≠ 0 := by
          intro hZero
          rw [hZero, Nat.mul_zero] at hKept
          exact hKept (Nat.zero_le position)
        exact Nat.le_antisymm (Nat.le_of_lt_succ hCount) (Nat.one_le_iff_ne_zero.mpr hNonzero)
      rw [hOne, Nat.mul_one] at hKept
      have hMoved := h.moved hWidth 0 position (by omega) (by omega)
      rwa [hOne, Nat.mul_one, Nat.add_zero, Nat.zero_mul, Nat.zero_add] at hMoved
  · exact h.of_narrow hWidth

theorem unshuffle_of_shuffled {width : Nat} {bytes stored : Bytes}
    (h : Shuffled width bytes stored) : unshuffle width stored = bytes := by
  have hWhole := whole_le width bytes
  have hCount : elementCount width stored = bytes.length / width := by
    rw [elementCount, h.length_eq]
  unfold unshuffle
  by_cases hTrivial : isTrivial width stored = true
  · rw [if_pos hTrivial]
    rw [isTrivial_iff, h.length_eq] at hTrivial
    rcases hTrivial with hWidth | hFew
    · exact h.of_narrow hWidth
    · exact h.eq_of_lt_two hFew
  · rw [if_neg hTrivial, hCount]
    rw [isTrivial_iff, not_or] at hTrivial
    have hWidth : 1 < width := by omega
    apply List.ext_getElem?
    intro position
    by_cases hLt : position < width * (bytes.length / width)
    · -- The position is that of byte `k` of element `i`.
      have hk : position % width < width := Nat.mod_lt position (by omega)
      have hi : position / width < bytes.length / width :=
        Nat.div_lt_of_lt_mul hLt
      have hSplit : position / width * width + position % width = position := by
        rw [Nat.mul_comm]
        exact Nat.div_add_mod position width
      have hSource : shuffledPosition width (bytes.length / width) position =
          position % width * (bytes.length / width) + position / width := if_pos hLt
      have hBound : position % width * (bytes.length / width) + position / width <
          width * (bytes.length / width) := mul_add_lt_mul hk hi
      have hMoved := h.moved hWidth _ _ hi hk
      rw [getElem?_gather (by rw [h.length_eq]; omega) (by rw [h.length_eq, hSource]; omega),
        hSource, hMoved, hSplit]
    · have hSame : shuffledPosition width (bytes.length / width) position = position :=
        shuffledPosition_of_le (Nat.not_lt.mp hLt)
      by_cases hEnd : position < bytes.length
      · rw [getElem?_gather (by rw [h.length_eq]; exact hEnd)
          (by rw [h.length_eq, hSame]; exact hEnd), hSame]
        exact h.kept hWidth position (Nat.not_lt.mp hLt)
      · rw [List.getElem?_eq_none (by rw [length_gather, h.length_eq]; omega),
          List.getElem?_eq_none (by omega)]

end ChunkFilters.Shuffle
