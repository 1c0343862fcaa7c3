import ChunkFilters.Proofs.Element
import ChunkFilters.Proofs.Nbit.Leaves
import ChunkFilters.ScaleOffset

/-!
# Packed values unpacked

A packed value is an element with a single atomic part that starts at its lowest bit, so what holds
of the leaves of an element holds of it. Its bytes are read as a word again, and that word is the
value.

* `unpackValue_ok`: the next bits, as many as a value has, are unpacked into the value;
* `readMany_unpackValue`: values that are packed end to end are unpacked one after the other;
* `unpackValues_ok`: the same for a whole payload, which may go on behind the values;
* `decodeElements_of_codes`, `decodeElements_verbatim`: the elements of such a payload, and of one
  whose values are as wide as the elements.
-/

namespace ChunkFilters.ScaleOffset

/-- The only leaf of a packed value. -/
def packedLeaf (kind : ElementKind) (packedBits : Nat) : Nbit.Leaf :=
  .atomic 0 (packedLayout kind packedBits)

theorem unpackValue_eq_map (kind : ElementKind) (packedBits : Nat) (cursor : BitCursor) :
    unpackValue kind packedBits cursor =
      (Nbit.unpackLeaves [packedLeaf kind packedBits] (Array.replicate kind.size 0, cursor)).map
        fun state => (Word.read state.1.toList, state.2) := by
  unfold unpackValue Nbit.unpackLeaves Nbit.Leaf.unpack packedLeaf
  dsimp only
  cases (packedLayout kind packedBits).unpack 0 (Array.replicate kind.size 0) cursor <;> rfl

theorem separate_packedLeaf (kind : ElementKind) (packedBits : Nat) :
    Nbit.Separate [packedLeaf kind packedBits] kind.size where
  inside := by
    intro leaf hLeaf
    rw [List.mem_singleton.mp hLeaf]
    exact Nat.le_of_eq (Nat.zero_add kind.size)
  apart := List.pairwise_singleton _ _

theorem bitCount_packedLeaf (kind : ElementKind) (packedBits : Nat) :
    Nbit.bitCount [packedLeaf kind packedBits] = packedBits := Nat.add_zero _

theorem pack_packedLeaf {kind : ElementKind} {element : Bytes} (h : element.length = kind.size)
    (packedBits : Nat) :
    Nbit.pack [packedLeaf kind packedBits] element =
      numberBits packedBits (Bytes.littleEndian element) := by
  have hRange : element.range 0 kind.size = element := by
    rw [Bytes.range, List.drop_zero, ← h, List.take_length]
  show numberBits packedBits (Bytes.littleEndian (element.range 0 kind.size) >>> 0) ++ [] = _
  rw [List.append_nil, hRange, Nat.shiftRight_zero]

/-- The bits of a clean element that are not significant are not set. -/
theorem testBit_of_clean {kind : ElementKind} {packedBits : Nat} {element : Bytes}
    (hClean : Nbit.Clean [packedLeaf kind packedBits] element) {bit : Nat}
    (hBit : packedBits ≤ bit) : (Bytes.littleEndian element).testBit bit = false := by
  rw [Bool.eq_false_iff, Bytes.testBit_littleEndian]
  intro hSet
  obtain ⟨leaf, hLeaf, hSignificant⟩ := hClean _ _ hSet
  rw [List.mem_singleton.mp hLeaf] at hSignificant
  obtain ⟨position, -, hBelow, hIndex, hRest⟩ := hSignificant
  have hBelow : position < packedBits := hBelow
  have hIndex : bit / 8 = 0 + position / 8 := hIndex
  omega

section
variable {kind : ElementKind} {packedBits : Nat} (hPos : 0 < packedBits)
  (hBits : packedBits ≤ kind.bits)
include hPos hBits

theorem valid_packedLeaf : ∀ leaf ∈ [packedLeaf kind packedBits], leaf.Valid := by
  intro leaf hLeaf
  rw [List.mem_singleton.mp hLeaf]
  exact ⟨kind.size_pos, hPos, hBits⟩

/-- The next value is unpacked, and nothing behind it is read. -/
theorem unpackValue_ok {cursor : BitCursor} (hWell : cursor.WellFormed) {code : Nat}
    (hCode : code < 2 ^ packedBits) {rest : List Bool}
    (hUnread : cursor.unread = numberBits packedBits code ++ rest) :
    ∃ next, unpackValue kind packedBits cursor = .ok (code, next) ∧ next.WellFormed ∧
      next.unread = rest := by
  have hValid := valid_packedLeaf hPos hBits
  rcases Nbit.unpackLeaves_cases hValid (Array.replicate kind.size 0, cursor) hWell with
    ⟨⟨bytes, next⟩, hOk, -⟩ | ⟨-, hShort⟩
  · obtain ⟨hNext, hLength, hClean, hPacked⟩ :=
      Nbit.unpackLeaves_ok hValid (separate_packedLeaf kind packedBits) hWell hOk
    have hLength : bytes.toList.length = kind.size := hLength
    have hPacked : cursor.unread =
        numberBits packedBits (Bytes.littleEndian bytes.toList) ++ next.unread := by
      rw [hPacked, pack_packedLeaf hLength]
    obtain ⟨hBitsEq, hRest⟩ := List.append_inj (hPacked.symm.trans hUnread)
      ((length_numberBits _ _).trans (length_numberBits _ _).symm)
    have hValue : Bytes.littleEndian bytes.toList = code := by
      apply Nat.eq_of_testBit_eq
      intro bit
      by_cases hBit : bit < packedBits
      · exact testBit_eq_of_numberBits_eq hBitsEq hBit
      · have hPow : 2 ^ packedBits ≤ 2 ^ bit := Nat.pow_le_pow_right Nat.two_pos (by omega)
        rw [testBit_of_clean hClean (Nat.not_lt.mp hBit),
          Nat.testBit_lt_two_pow (Nat.lt_of_lt_of_le hCode hPow)]
    have hRead : Word.read bytes.toList = code := by
      rw [Word.read_of_length_le (hLength ▸ kind.size_le_maxSize), hValue]
    refine ⟨next, ?_, hNext, hRest⟩
    rw [unpackValue_eq_map, hOk]
    show Except.ok (Word.read bytes.toList, next) = _
    rw [hRead]
  · have hShort : cursor.unread.length < packedBits := by
      rw [bitCount_packedLeaf] at hShort
      exact hShort
    rw [hUnread, List.length_append, length_numberBits] at hShort
    omega

/-- The induction is on the values that are still packed. -/
theorem readMany_unpackValue {codes : List Nat} (hCodes : ∀ code ∈ codes, code < 2 ^ packedBits)
    {cursor : BitCursor} (hWell : cursor.WellFormed) {rest : List Bool}
    (hUnread : cursor.unread = codes.flatMap (numberBits packedBits) ++ rest)
    (done : Array Nat) :
    ∃ values next, BitCursor.readMany (unpackValue kind packedBits) codes.length cursor done =
        .ok (values, next) ∧ values.toList = done.toList ++ codes := by
  induction codes generalizing cursor done with
  | nil => exact ⟨done, cursor, rfl, (List.append_nil _).symm⟩
  | cons code others ih =>
    rw [List.flatMap_cons, List.append_assoc] at hUnread
    obtain ⟨next, hOk, hNext, hRest⟩ :=
      unpackValue_ok hPos hBits hWell (hCodes code List.mem_cons_self) hUnread
    obtain ⟨values, last, hRead, hValues⟩ :=
      ih (fun other hOther => hCodes other (List.mem_cons_of_mem code hOther)) hNext hRest
        (done.push code)
    refine ⟨values, last, ?_, ?_⟩
    · rw [List.length_cons, BitCursor.readMany, hOk]
      exact hRead
    · rw [hValues, Array.toList_push, List.append_assoc]
      rfl

end

/-- Values that take no bits are all zero. -/
theorem unpackValues_ok {kind : ElementKind} {packedBits : Nat} (hBits : packedBits ≤ kind.bits)
    {codes : List Nat} (hCodes : ∀ code ∈ codes, code < 2 ^ packedBits) {payload : Bytes}
    (hPayload : codes.flatMap (numberBits packedBits) <+: Bytes.bits payload) :
    ∃ values, unpackValues kind packedBits codes.length payload = .ok values ∧
      values.toList = codes := by
  unfold unpackValues
  by_cases hZero : packedBits = 0
  · rw [if_pos hZero]
    refine ⟨Array.replicate codes.length 0, rfl, ?_⟩
    rw [Array.toList_replicate]
    symm
    apply List.eq_replicate_iff.mpr
    refine ⟨rfl, ?_⟩
    intro code hCode
    have hLt := hCodes code hCode
    rw [hZero, Nat.pow_zero] at hLt
    exact Nat.lt_one_iff.mp hLt
  · obtain ⟨rest, hRest⟩ := hPayload
    obtain ⟨values, next, hRead, hValues⟩ :=
      readMany_unpackValue (Nat.pos_of_ne_zero hZero) hBits hCodes
        (BitCursor.wellFormed_start payload) hRest.symm #[]
    rw [if_neg hZero, hRead]
    exact ⟨values, rfl, hValues⟩

/-! ## Elements -/

/-- Elements are reconstructed one by one from the values that are packed. -/
theorem decodeElements_of_codes {parameters : Parameters} {header : Header}
    (hBits : header.packedBits < parameters.kind.bits) {codes : List Nat}
    (hCount : codes.length = parameters.elements)
    (hCodes : ∀ code ∈ codes, code < 2 ^ header.packedBits) {payload : Bytes}
    (hPayload : codes.flatMap (numberBits header.packedBits) <+: Bytes.bits payload) :
    decodeElements parameters header payload =
      .ok (codes.flatMap fun code => Bytes.toLittleEndian parameters.kind.size
        (reconstruct parameters header.packedBits header.minimum code)) := by
  obtain ⟨values, hUnpack, hValues⟩ := unpackValues_ok (Nat.le_of_lt hBits) hCodes hPayload
  rw [hCount] at hUnpack
  unfold decodeElements
  dsimp only
  rw [if_neg (Nat.ne_of_lt hBits), if_neg (Nat.not_lt.mpr (Nat.le_of_lt hBits)), hUnpack]
  dsimp only
  rw [hValues]

/-- Values as wide as the elements are not changed. -/
theorem decodeElements_verbatim {parameters : Parameters} {header : Header}
    (hBits : header.packedBits = parameters.kind.bits) {payload : Bytes}
    (hPayload : parameters.elements * parameters.kind.size ≤ payload.length) :
    decodeElements parameters header payload =
      .ok (payload.take (parameters.elements * parameters.kind.size)) := by
  unfold decodeElements
  dsimp only
  rw [if_pos hBits, if_neg (Nat.not_lt.mpr hPayload)]

end ChunkFilters.ScaleOffset
