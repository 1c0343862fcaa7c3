import ChunkFilters.Proofs.Shuffle.Inverse
import Mathlib.Data.List.Nodup

/-!
# Shuffling by writing

The bytes of the whole elements are a table with a row for each element; shuffled, they are the
same table column by column, in stripes. Shuffling and unshuffling are written here as loops over
the rows or the stripes that put each byte where it belongs: `toStripes` and `fromStripes`. One such
loop is `put` with the writes of `transposing`, and all that is said of it is that no position is
written twice (`nodup_transposing`), so that every byte put stays (`getElem?_put_of_mem`).

* `shuffled_toStripes`, `shuffled_fromStripes`: both loops agree with the positions of `Shuffled`;
* `unshuffle_eq_fromStripes`: hence `unshuffle` is the loop over the stripes;
* `Shuffled.unique`: and `toStripes` undoes it, because bytes are shuffled in one way only.
-/

namespace ChunkFilters.Shuffle

/-! ## Writing bytes one at a time -/

/-- Puts bytes at positions of a buffer, one after the other. -/
def put (buffer : Bytes) (writes : List (Nat × UInt8)) : Bytes :=
  writes.foldl (fun buffer write => buffer.set write.1 write.2) buffer

theorem put_cons (buffer : Bytes) (write : Nat × UInt8) (rest : List (Nat × UInt8)) :
    put buffer (write :: rest) = put (buffer.set write.1 write.2) rest := rfl

theorem length_put (buffer : Bytes) (writes : List (Nat × UInt8)) :
    (put buffer writes).length = buffer.length := by
  induction writes generalizing buffer with
  | nil => rfl
  | cons write rest ih => rw [put_cons, ih, List.length_set]

theorem getElem?_put_of_notMem {buffer : Bytes} {writes : List (Nat × UInt8)} {position : Nat}
    (h : position ∉ writes.map Prod.fst) : (put buffer writes)[position]? = buffer[position]? := by
  induction writes generalizing buffer with
  | nil => rfl
  | cons write rest ih =>
    rw [List.map_cons, List.mem_cons, not_or] at h
    rw [put_cons, ih h.2, List.getElem?_set_ne (Ne.symm h.1)]

theorem getElem?_put_of_mem {buffer : Bytes} {writes : List (Nat × UInt8)} {position : Nat}
    {byte : UInt8} (hNodup : (writes.map Prod.fst).Nodup) (hMem : (position, byte) ∈ writes)
    (hPosition : position < buffer.length) : (put buffer writes)[position]? = some byte := by
  induction writes generalizing buffer with
  | nil => cases hMem
  | cons write rest ih =>
    rw [List.map_cons, List.nodup_cons] at hNodup
    rw [put_cons]
    rcases List.mem_cons.mp hMem with rfl | hRest
    · rw [getElem?_put_of_notMem hNodup.1, List.getElem?_set_self hPosition]
    · exact ih hNodup.2 hRest (by rwa [List.length_set])

/-! ## Tables -/

/-- The writes of a loop over a table with `rows` rows, which stand one after the other: byte `j` of
row `i` becomes byte `i` of column `j`. -/
def transposing (rows columns : Nat) (bytes : Bytes) : List (Nat × UInt8) :=
  (List.range rows).flatMap fun i =>
    ((bytes.drop (i * columns)).take columns).mapIdx fun j byte => (j * rows + i, byte)

theorem mem_transposing {rows columns : Nat} {bytes : Bytes} {i j : Nat} {byte : UInt8}
    (hi : i < rows) (hj : j < columns) (hByte : bytes[i * columns + j]? = some byte) :
    (j * rows + i, byte) ∈ transposing rows columns bytes := by
  apply List.mem_flatMap.mpr
  refine ⟨i, List.mem_range.mpr hi, ?_⟩
  have hRow : ((bytes.drop (i * columns)).take columns)[j]? = some byte := by
    rw [List.getElem?_take_of_lt hj, List.getElem?_drop, hByte]
  obtain ⟨hBound, hSame⟩ := List.getElem_of_getElem? hRow
  exact List.mem_mapIdx.mpr ⟨j, hBound, by rw [hSame]⟩

/-- Every position that is written belongs to the table. -/
theorem lt_of_mem_positions {rows columns : Nat} {bytes : Bytes} {position : Nat}
    (h : position ∈ (transposing rows columns bytes).map Prod.fst) : position < rows * columns := by
  obtain ⟨write, hWrite, rfl⟩ := List.mem_map.mp h
  obtain ⟨i, hi, hRow⟩ := List.mem_flatMap.mp hWrite
  obtain ⟨j, hj, rfl⟩ := List.mem_mapIdx.mp hRow
  have hColumn : j < columns := Nat.lt_of_lt_of_le hj (List.length_take_le columns _)
  rw [Nat.mul_comm rows]
  exact mul_add_lt_mul hColumn (List.mem_range.mp hi)

/-- No position is written twice: the row is the remainder of a position, and the columns of a row
ascend. -/
theorem nodup_transposing (rows columns : Nat) (bytes : Bytes) :
    ((transposing rows columns bytes).map Prod.fst).Nodup := by
  have hRow : ∀ i < rows, ∀ position ∈ (((bytes.drop (i * columns)).take columns).mapIdx
      fun j byte => (j * rows + i, byte)).map Prod.fst, position % rows = i := by
    intro i hi position hMem
    obtain ⟨write, hWrite, rfl⟩ := List.mem_map.mp hMem
    obtain ⟨j, _, rfl⟩ := List.mem_mapIdx.mp hWrite
    rw [Nat.mul_add_mod_self_right, Nat.mod_eq_of_lt hi]
  rw [transposing, List.map_flatMap, List.nodup_flatMap]
  constructor
  · intro i hi
    have hRows : 0 < rows := Nat.zero_lt_of_lt (List.mem_range.mp hi)
    apply List.pairwise_iff_getElem.mpr
    intro first second hFirst hSecond hLt
    rw [List.getElem_map, List.getElem_map, List.getElem_mapIdx, List.getElem_mapIdx]
    have hStep : first * rows < second * rows := Nat.mul_lt_mul_of_pos_right hLt hRows
    dsimp only
    omega
  · apply List.pairwise_lt_range.imp_of_mem
    intro first second hFirst hSecond hLt position hInFirst hInSecond
    have hSame := hRow first (List.mem_range.mp hFirst) position hInFirst
    have hOther := hRow second (List.mem_range.mp hSecond) position hInSecond
    omega

section
variable {rows columns : Nat} {bytes buffer : Bytes}

/-- What a loop over a table makes of a buffer: the other order of the table. -/
theorem getElem?_put_transposing (hTable : rows * columns ≤ bytes.length)
    (hBuffer : rows * columns ≤ buffer.length) {i j : Nat} (hi : i < rows) (hj : j < columns) :
    (put buffer (transposing rows columns bytes))[j * rows + i]? = bytes[i * columns + j]? := by
  have hSource : i * columns + j < rows * columns := mul_add_lt_mul hi hj
  have hTarget : j * rows + i < columns * rows := mul_add_lt_mul hj hi
  rw [Nat.mul_comm columns] at hTarget
  have hByte : bytes[i * columns + j]? = some bytes[i * columns + j] :=
    List.getElem?_eq_getElem (by omega)
  rw [hByte]
  exact getElem?_put_of_mem (nodup_transposing rows columns bytes)
    (mem_transposing hi hj hByte) (by omega)

theorem getElem?_put_transposing_of_le {position : Nat} (h : rows * columns ≤ position) :
    (put buffer (transposing rows columns bytes))[position]? = buffer[position]? :=
  getElem?_put_of_notMem fun hMem => Nat.not_lt.mpr h (lt_of_mem_positions hMem)

end

/-! ## The loops -/

/-- Shuffles by reading element after element. -/
def toStripes (size : Nat) (bytes : Bytes) : Bytes :=
  if size ≤ 1 then bytes else put bytes (transposing (elementCount size bytes) size bytes)

/-- Unshuffles by reading stripe after stripe into a buffer of zeros, and copying what is left. -/
def fromStripes (size : Nat) (bytes : Bytes) : Bytes :=
  if isTrivial size bytes then bytes
  else
    let count := elementCount size bytes
    let buffer := put (List.replicate bytes.length 0) (transposing size count bytes)
    buffer.take (size * count) ++ bytes.drop (size * count)

theorem shuffled_toStripes (size : Nat) (bytes : Bytes) :
    Shuffled size bytes (toStripes size bytes) := by
  have hWhole := whole_le size bytes
  have hTable : bytes.length / size * size ≤ bytes.length := Nat.div_mul_le_self _ _
  unfold toStripes
  split
  · next hNarrow =>
    exact ⟨rfl, fun _ => rfl, fun hWide => absurd hNarrow (Nat.not_le.mpr hWide),
      fun hWide => absurd hNarrow (Nat.not_le.mpr hWide)⟩
  · next hWide =>
    refine ⟨length_put _ _, fun hNarrow => absurd hNarrow hWide, ?_, ?_⟩
    · intro _ i k hi hk
      exact getElem?_put_transposing hTable hTable hi hk
    · intro _ position hPosition
      rw [Nat.mul_comm] at hPosition
      exact getElem?_put_transposing_of_le hPosition

theorem length_fromStripes (size : Nat) (bytes : Bytes) :
    (fromStripes size bytes).length = bytes.length := by
  have hWhole : size * elementCount size bytes ≤ bytes.length := whole_le size bytes
  unfold fromStripes
  split
  · rfl
  · simp only [List.length_append, List.length_take, List.length_drop, length_put,
      List.length_replicate]
    omega

/-- The stripes of a chunk are those of the elements that the loop makes of them. -/
theorem shuffled_fromStripes (size : Nat) (bytes : Bytes) :
    Shuffled size (fromStripes size bytes) bytes := by
  have hLength := length_fromStripes size bytes
  have hWhole := whole_le size bytes
  refine ⟨hLength.symm, ?_, ?_, ?_⟩
  · intro hNarrow
    have hTrivial : isTrivial size bytes = true := (isTrivial_iff size bytes).mpr (.inl hNarrow)
    rw [fromStripes, if_pos hTrivial]
  · rw [hLength]
    intro hWide i k hi hk
    have hTarget : i * size + k < bytes.length / size * size := mul_add_lt_mul hi hk
    rw [Nat.mul_comm (bytes.length / size)] at hTarget
    unfold fromStripes
    split
    · next hTrivial =>
      -- There is a single element, and its bytes are in place.
      rw [isTrivial_iff] at hTrivial
      have hCount : bytes.length / size = 1 := by omega
      have hZero : i = 0 := by omega
      rw [hZero, hCount, Nat.mul_one, Nat.zero_mul, Nat.zero_add, Nat.add_zero]
    · have hZeros : size * (bytes.length / size) ≤
          (List.replicate bytes.length (0 : UInt8)).length := by
        rwa [List.length_replicate]
      simp only [elementCount]
      rw [List.getElem?_append_left, List.getElem?_take_of_lt hTarget]
      · exact (getElem?_put_transposing hWhole hZeros hk hi).symm
      · rw [List.length_take, length_put, List.length_replicate]
        omega
  · rw [hLength]
    intro _ position hPosition
    unfold fromStripes
    split
    · rfl
    · have hTaken : ((put (List.replicate bytes.length 0)
          (transposing size (elementCount size bytes) bytes)).take
            (size * elementCount size bytes)).length = size * (bytes.length / size) := by
        rw [List.length_take, length_put, List.length_replicate, elementCount]
        omega
      dsimp only
      rw [List.getElem?_append_right (by rwa [hTaken]), hTaken, List.getElem?_drop, elementCount,
        Nat.add_sub_cancel' hPosition]

/-! ## Undoing -/

/-- Bytes are shuffled in one way only. -/
theorem Shuffled.unique {size : Nat} {bytes first second : Bytes}
    (hFirst : Shuffled size bytes first) (hSecond : Shuffled size bytes second) :
    first = second := by
  rcases Nat.lt_or_ge 1 size with hWide | hNarrow
  · apply List.ext_getElem?
    intro position
    by_cases hKept : size * (bytes.length / size) ≤ position
    · exact (hFirst.kept hWide position hKept).trans (hSecond.kept hWide position hKept).symm
    · -- The position is that of byte `i` of stripe `k`.
      obtain ⟨count, hCount⟩ : ∃ count, bytes.length / size = count := ⟨_, rfl⟩
      rw [hCount, Nat.not_le] at hKept
      have hPos : 0 < count := Nat.pos_of_ne_zero fun hZero => by simp [hZero] at hKept
      have hi : position % count < count := Nat.mod_lt position hPos
      have hk : position / count < size :=
        Nat.div_lt_of_lt_mul (by rwa [Nat.mul_comm])
      have hSplit : position / count * count + position % count = position := by
        rw [Nat.mul_comm]
        exact Nat.div_add_mod position count
      have hMoved := (hFirst.moved hWide _ _ (hCount ▸ hi) hk).trans
        (hSecond.moved hWide _ _ (hCount ▸ hi) hk).symm
      rwa [hCount, hSplit] at hMoved
  · exact (hFirst.of_narrow hNarrow).trans (hSecond.of_narrow hNarrow).symm

theorem unshuffle_eq_fromStripes (size : Nat) (bytes : Bytes) :
    unshuffle size bytes = fromStripes size bytes :=
  unshuffle_of_shuffled (shuffled_fromStripes size bytes)

theorem shuffled_unshuffle (size : Nat) (bytes : Bytes) :
    Shuffled size (unshuffle size bytes) bytes :=
  unshuffle_eq_fromStripes size bytes ▸ shuffled_fromStripes size bytes

theorem unshuffle_of_few {size : Nat} {bytes : Bytes}
    (h : ¬(2 ≤ size ∧ 2 ≤ bytes.length / size)) : unshuffle size bytes = bytes := by
  have hTrivial : isTrivial size bytes = true := (isTrivial_iff size bytes).mpr (by omega)
  rw [unshuffle, if_pos hTrivial]

/-- With the number of elements for the size, unshuffling goes the other way. -/
theorem shuffled_count {size count : Nat} {bytes : Bytes} (h : bytes.length = size * count) :
    Shuffled count bytes (unshuffle size bytes) := by
  have hLength := length_unshuffle size bytes
  refine ⟨hLength, ?_, ?_, ?_⟩
  · intro hNarrow
    refine unshuffle_of_few fun hMany => ?_
    have hCount : bytes.length / size = count := by
      rw [h]
      exact Nat.mul_div_cancel_left count (by omega)
    omega
  · intro hWide i k hi hk
    have hSize : bytes.length / count = size := by
      rw [h]
      exact Nat.mul_div_cancel size (by omega)
    rw [hSize] at hi ⊢
    rcases Nat.lt_or_ge 1 size with hMany | hNarrow
    · have hMoved := (shuffled_unshuffle size bytes).moved hMany k i
      rw [hLength, h, Nat.mul_div_cancel_left count (by omega)] at hMoved
      exact (hMoved hk hi).symm
    · have hOne : size = 1 := by omega
      have hZero : i = 0 := by omega
      rw [unshuffle_of_few (by omega), hOne, hZero, Nat.mul_one, Nat.zero_mul, Nat.zero_add,
        Nat.add_zero]
  · intro hWide position hPosition
    rw [h, Nat.mul_div_cancel size (by omega), Nat.mul_comm, ← h] at hPosition
    rw [List.getElem?_eq_none hPosition, List.getElem?_eq_none (by rwa [hLength])]

/-- The bytes that form no whole element. -/
theorem drop_unshuffle (size : Nat) (bytes : Bytes) :
    (unshuffle size bytes).drop (bytes.length - bytes.length % size) =
      bytes.drop (bytes.length - bytes.length % size) := by
  by_cases hWide : 1 < size
  · apply List.ext_getElem?
    intro position
    have hSplit := Nat.div_add_mod bytes.length size
    have hKept := (shuffled_unshuffle size bytes).kept hWide
      (bytes.length - bytes.length % size + position)
    rw [length_unshuffle] at hKept
    rw [List.getElem?_drop, List.getElem?_drop]
    exact (hKept (by omega)).symm
  · rw [unshuffle_of_few (by omega)]

section
variable {memory : Memory} {request : DecodeRequest} {width : UInt32} {rest : List UInt32}
  (hReverse : request.flags.contains .reverse = true) (hParams : request.params = width :: rest)
include hReverse hParams

/-- The filter leaves the bytes where they are, or makes the same bytes anew. -/
theorem decode_eq (hMemory : ¬(2 ≤ width.toNat ∧ 2 ≤ request.input.length / width.toNat) ∨
      memory.allows request.input.length = true) :
    ∃ decoded, (filter memory).decode request = .ok decoded ∧
      (decoded = .unchanged request.input ∨
        decoded = .fresh (unshuffle width.toNat request.input)) ∧
      decoded.bytes request.input = unshuffle width.toNat request.input := by
  have hDecode : (filter memory).decode request = decode memory request :=
    Filter.decodeOnly_of_reverse hReverse _
  rw [hDecode, decode, hParams, List.head?_cons]
  dsimp only
  split
  · next hTrivial =>
    refine ⟨_, rfl, .inl rfl, ?_⟩
    rw [Decoded.bytes_unchanged, unshuffle, if_pos hTrivial]
  · next hMany =>
    rw [isTrivial_iff] at hMany
    rw [unshuffleCopy_of_allows (hMemory.resolve_left (not_not_intro (by omega)))]
    exact ⟨_, rfl, .inr rfl, rfl⟩

/-- Bytes that move need a buffer to move to. -/
theorem decode_of_not_allows (hWide : 2 ≤ width.toNat)
    (hMany : 2 ≤ request.input.length / width.toNat)
    (hMemory : memory.allows request.input.length = false) :
    (filter memory).decode request = .error (.allocation request.input.length) := by
  have hDecode : (filter memory).decode request = decode memory request :=
    Filter.decodeOnly_of_reverse hReverse _
  have hMoves : ¬isTrivial width.toNat request.input = true := by
    rw [isTrivial_iff]
    omega
  rw [hDecode, decode, hParams, List.head?_cons]
  dsimp only
  rw [if_neg hMoves, unshuffleCopy_of_not_allows hMemory]
  rfl

end

/-! ## Main statement -/

/-- Unshuffling undoes shuffling and is undone by it, whatever the size of an element and the length
of the chunk. It keeps the length; byte `k` of element `i` comes from stripe `k`; the bytes at the
end that form no whole element stay, and so does everything if there are fewer than two elements or
bytes to an element. It is what the loop over the stripes writes. Where all elements are whole, the
number of elements as a size undoes it too. The filter unshuffles by its first parameter, on both of
its ways, unless bytes have to move and there is no memory for a copy. -/
theorem unshuffle_undoes_stripes (size : Nat) (bytes : Bytes) :
    (unshuffle size bytes).length = bytes.length ∧
      (2 ≤ size → 2 ≤ bytes.length / size →
        (∀ i < bytes.length / size, ∀ k < size,
          (unshuffle size bytes)[i * size + k]? = bytes[k * (bytes.length / size) + i]?) ∧
        (unshuffle size bytes).drop (bytes.length - bytes.length % size) =
          bytes.drop (bytes.length - bytes.length % size)) ∧
      (¬(2 ≤ size ∧ 2 ≤ bytes.length / size) → unshuffle size bytes = bytes) ∧
      unshuffle size bytes = fromStripes size bytes ∧
      unshuffle size (toStripes size bytes) = bytes ∧
      toStripes size (unshuffle size bytes) = bytes ∧
      (∀ count, bytes.length = size * count → unshuffle count (unshuffle size bytes) = bytes) ∧
      ∀ (memory : Memory) (request : DecodeRequest) (width : UInt32) (rest : List UInt32),
        request.flags.contains .reverse = true → request.params = width :: rest →
        width.toNat = size → request.input = bytes →
          (¬(2 ≤ size ∧ 2 ≤ bytes.length / size) ∨ memory.allows bytes.length = true →
            ∃ decoded, (filter memory).decode request = .ok decoded ∧
              (decoded = .unchanged bytes ∨ decoded = .fresh (unshuffle size bytes)) ∧
              decoded.bytes bytes = unshuffle size bytes) ∧
          (2 ≤ size → 2 ≤ bytes.length / size → memory.allows bytes.length = false →
            (filter memory).decode request = .error (.allocation bytes.length)) := by
  refine ⟨length_unshuffle size bytes, ?_, unshuffle_of_few, unshuffle_eq_fromStripes size bytes,
    unshuffle_of_shuffled (shuffled_toStripes size bytes), ?_, ?_, ?_⟩
  · intro hWide _
    refine ⟨?_, drop_unshuffle size bytes⟩
    intro i hi k hk
    have hMoved := (shuffled_unshuffle size bytes).moved hWide i k
    rw [length_unshuffle] at hMoved
    exact (hMoved hi hk).symm
  · exact (shuffled_toStripes size _).unique (shuffled_unshuffle size bytes)
  · intro count hLength
    exact unshuffle_of_shuffled (shuffled_count hLength)
  · rintro memory request width rest hReverse hParams rfl rfl
    exact ⟨decode_eq hReverse hParams, decode_of_not_allows hReverse hParams⟩

/-- Two elements of four bytes and three bytes more, with and without memory for eleven bytes, and
four elements of two bytes. -/
theorem unshuffle_undoes_stripes_leftover :
    let stored : Bytes := [0, 4, 1, 5, 2, 6, 3, 7, 8, 9, 10]
    let bytes : Bytes := [0, 1, 2, 3, 4, 5, 6, 7, 8, 9, 10]
    let request : DecodeRequest :=
      { flags := .reverse, params := [4], input := stored, sizeHint := 0, options := ⟨true⟩ }
    2 ≤ stored.length / 4 ∧ request.flags.contains .reverse = true ∧
      (unshuffle 4 stored)[1 * 4 + 2]? = stored[2 * (stored.length / 4) + 1]? ∧
      unshuffle 4 stored = bytes ∧ toStripes 4 bytes = stored ∧
      Memory.standard.allows stored.length = true ∧
      (∃ decoded, (filter .standard).decode request = .ok decoded ∧
        decoded.bytes stored = bytes) ∧
      (filter (.below 11 (by decide) (by decide))).decode request = .error (.allocation 11) ∧
      unshuffle 4 (unshuffle 2 [0, 2, 4, 6, 1, 3, 5, 7]) = [0, 2, 4, 6, 1, 3, 5, 7] := by
  intro stored bytes request
  have hReverse : request.flags.contains .reverse = true := by decide
  have hBytes : unshuffle 4 stored = bytes := by decide
  obtain ⟨_, hMoved, _, _, _, hBack, _, hDecode⟩ := unshuffle_undoes_stripes 4 stored
  have hTwice := (unshuffle_undoes_stripes 2 [0, 2, 4, 6, 1, 3, 5, 7]).2.2.2.2.2.2.1 4 rfl
  have hMemory : Memory.standard.allows stored.length = true := by decide
  obtain ⟨decoded, hDecoded, _, hSame⟩ :=
    (hDecode .standard request 4 [] hReverse rfl rfl rfl).1 (.inr hMemory)
  have hRefused := (hDecode (.below 11 (by decide) (by decide)) request 4 [] hReverse rfl rfl rfl).2
    (by decide) (by decide) (by decide)
  exact ⟨by decide, hReverse, (hMoved (by decide) (by decide)).1 1 (by decide) 2 (by decide),
    hBytes, hBytes ▸ hBack, hMemory, ⟨decoded, hDecoded, hSame.trans hBytes⟩, hRefused, hTwice⟩

end ChunkFilters.Shuffle
