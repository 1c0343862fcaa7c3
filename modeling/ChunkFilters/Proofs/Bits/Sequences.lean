import ChunkFilters.Bits.Packed
import ChunkFilters.Proofs.Bits.Position
import Mathlib.Algebra.GroupWithZero.Nat
import Mathlib.Data.List.Forall2

/-!
# Sequences of reads

Reads follow each other whether or not they succeed. What they give is the bit string cut into
pieces of their widths, for as long as there are enough bits. The first read that lacks some leaves
the cursor at the end of the string, where it stays.

* `cursor_reads`: the position after any reads, which is the sum of their widths or the end;
* `reads_ofPosition`: reads that have their bits are a cut of the bit string;
* `reads_exhausted`: reads at the end of the string, of any width;
* `copyBytes_eq_reads`: whole bytes are copied by reads of eight bits;
* `reads_slice`: all of this for the reads of a new cursor.

Widths outside one to eight are excluded until the string is exhausted; after that any will do.
-/

namespace ChunkFilters.BitCursor

/-! ## Reads that may fail -/

/-- One read, and where it leaves the cursor. -/
def attempt (width : Nat) (cursor : BitCursor) : Except Exhausted UInt8 × BitCursor :=
  match cursor.readBits width with
  | .ok (value, next) => (.ok value, next)
  | .error error => (.error error, error.cursor)

/-- Reads of the given widths, one after the other: what each of them gives, and the cursor after
the last. -/
def reads : List Nat → BitCursor → List (Except Exhausted UInt8) × BitCursor
  | [], cursor => ([], cursor)
  | width :: rest, cursor =>
    let (result, next) := cursor.attempt width
    let (results, last) := reads rest next
    (result :: results, last)

/-- Values that were read, each written with its width. -/
def written : List Nat → List UInt8 → List Bool
  | width :: widths, value :: values => numberBits width value.toNat ++ written widths values
  | _, _ => []

theorem reads_cons (width : Nat) (rest : List Nat) (cursor : BitCursor) :
    cursor.reads (width :: rest) =
      ((cursor.attempt width).1 :: ((cursor.attempt width).2.reads rest).1,
        ((cursor.attempt width).2.reads rest).2) := rfl

theorem reads_append (first second : List Nat) (cursor : BitCursor) :
    cursor.reads (first ++ second) =
      ((cursor.reads first).1 ++ ((cursor.reads first).2.reads second).1,
        ((cursor.reads first).2.reads second).2) := by
  induction first generalizing cursor with
  | nil => rfl
  | cons width rest ih =>
    rw [List.cons_append, reads_cons, reads_cons, ih]
    rfl

/-- After a read that has failed every read fails, whatever its width, and the cursor stays where
that read has left it. -/
theorem reads_exhausted {count : Nat} {cursor : BitCursor} {error : Exhausted}
    (h : cursor.readBits count = .error error) (widths : List Nat) :
    error.cursor.reads widths = (List.replicate widths.length (.error error), error.cursor) := by
  induction widths with
  | nil => rfl
  | cons width rest ih =>
    have hAttempt : error.cursor.attempt width = (.error error, error.cursor) := by
      rw [attempt, readBits_of_error h]
    rw [reads_cons, hAttempt, ih, List.length_cons, List.replicate_succ]

/-! ## Reads from a position -/

section
variable {input : Bytes} {position width : Nat} (hPos : 1 ≤ width) (hMax : width ≤ 8)
include hPos hMax

theorem attempt_ofPosition (hEnough : position + width ≤ 8 * input.length) :
    ∃ value, (ofPosition input position).attempt width =
        (.ok value, ofPosition input (position + width)) ∧
      Read width (ofPosition input position) value (ofPosition input (position + width)) := by
  obtain ⟨value, hOk, hRead⟩ := readBits_ofPosition hPos hMax hEnough
  refine ⟨value, ?_, hRead⟩
  unfold attempt
  rw [hOk]

theorem attempt_ofPosition_end (hPosition : position ≤ 8 * input.length)
    (hShort : 8 * input.length < position + width) :
    (ofPosition input position).attempt width =
      (.error (exhaustedAt input), ofPosition input (8 * input.length)) := by
  unfold attempt
  rw [readBits_ofPosition_end hPos hMax hPosition hShort]
  rfl

/-- The reads of which the first goes past the end all fail as it does. -/
theorem reads_ofPosition_end (hPosition : position ≤ 8 * input.length)
    (hShort : 8 * input.length < position + width) (rest : List Nat) :
    (ofPosition input position).reads (width :: rest) =
      (List.replicate (rest.length + 1) (.error (exhaustedAt input)),
        ofPosition input (8 * input.length)) := by
  have hRest : (ofPosition input (8 * input.length)).reads rest = _ :=
    reads_exhausted (readBits_ofPosition_end hPos hMax hPosition hShort) rest
  rw [reads_cons, attempt_ofPosition_end hPos hMax hPosition hShort, hRest,
    List.replicate_succ]
  rfl

end

section
variable {input : Bytes} {widths : List Nat} (hWidths : ∀ width ∈ widths, 1 ≤ width ∧ width ≤ 8)
include hWidths

/-- Reads move the cursor by their widths, but not beyond the end. -/
theorem cursor_reads {position : Nat} (hPosition : position ≤ 8 * input.length) :
    ((ofPosition input position).reads widths).2 =
      ofPosition input (min (position + widths.sum) (8 * input.length)) := by
  induction widths generalizing position with
  | nil =>
    rw [List.sum_nil, Nat.add_zero, Nat.min_eq_left hPosition]
    rfl
  | cons width rest ih =>
    obtain ⟨⟨hPos, hMax⟩, hRest⟩ := List.forall_mem_cons.mp hWidths
    rw [reads_cons, List.sum_cons, ← Nat.add_assoc]
    by_cases hEnough : position + width ≤ 8 * input.length
    · obtain ⟨value, hAttempt, -⟩ := attempt_ofPosition hPos hMax hEnough
      rw [hAttempt]
      exact ih hRest hEnough
    · have hShort := Nat.lt_of_not_le hEnough
      rw [← reads_cons, reads_ofPosition_end hPos hMax hPosition hShort,
        Nat.min_eq_right (by omega)]

/-- Reads that have their bits take them off the front of what is unread. -/
theorem reads_ofPosition {position : Nat} (hEnough : position + widths.sum ≤ 8 * input.length) :
    ∃ values, (ofPosition input position).reads widths =
        (values.map .ok, ofPosition input (position + widths.sum)) ∧
      List.Forall₂ (fun width (value : UInt8) => value.toNat < 2 ^ width) widths values ∧
      written widths values = (ofPosition input position).unread.take widths.sum := by
  induction widths generalizing position with
  | nil => exact ⟨[], rfl, .nil, rfl⟩
  | cons width rest ih =>
    obtain ⟨⟨hPos, hMax⟩, hRest⟩ := List.forall_mem_cons.mp hWidths
    rw [List.sum_cons, ← Nat.add_assoc] at hEnough
    obtain ⟨value, hAttempt, hRead⟩ :=
      attempt_ofPosition hPos hMax (Nat.le_of_add_right_le hEnough)
    obtain ⟨values, hReads, hValues, hWritten⟩ := ih hRest hEnough
    refine ⟨value :: values, ?_, .cons (Nat.lt_pow_two_of_testBit _ hRead.testBit_eq_false) hValues,
      ?_⟩
    · rw [reads_cons, hAttempt, hReads, List.sum_cons, Nat.add_assoc]
      rfl
    · have hFirst : (numberBits width value.toNat).take (width + rest.sum) =
          numberBits width value.toNat := by
        apply List.take_of_length_le
        rw [length_numberBits]
        exact Nat.le_add_right width rest.sum
      rw [written, hWritten, hRead.unread_eq, List.sum_cons, List.take_append, hFirst,
        length_numberBits, Nat.add_sub_cancel_left]

end

/-! ## Two reads in place of one -/

section
variable {input : Bytes} {position first second : Nat}
  (hFirst : 1 ≤ first) (hSecond : 1 ≤ second) (hMax : first + second ≤ 8)
include hFirst hSecond hMax

/-- Two reads that have their bits give the number that one read of all the bits gives. -/
theorem reads_pair_values (hEnough : position + (first + second) ≤ 8 * input.length) :
    ∃ high low value : UInt8,
      ((ofPosition input position).reads [first, second]).1 = [.ok high, .ok low] ∧
      ((ofPosition input position).reads [first + second]).1 = [.ok value] ∧
      value.toNat = high.toNat * 2 ^ second + low.toNat := by
  have hPairWidths : ∀ width ∈ [first, second], 1 ≤ width ∧ width ≤ 8 := by
    intro width hWidth
    rcases List.mem_pair.mp hWidth with rfl | rfl <;> omega
  have hWholeWidths : ∀ width ∈ [first + second], 1 ≤ width ∧ width ≤ 8 := by
    intro width hWidth
    rw [List.mem_singleton.mp hWidth]
    omega
  have hPairSum : [first, second].sum = first + second := by simp
  have hWholeSum : [first + second].sum = first + second := by simp
  obtain ⟨values, hPair, hValues, hWritten⟩ :=
    reads_ofPosition hPairWidths (hPairSum ▸ hEnough)
  obtain ⟨joined, hWhole, hJoined, hSame⟩ :=
    reads_ofPosition hWholeWidths (hWholeSum ▸ hEnough)
  match values, joined, hValues, hJoined with
  | [high, low], [value], .cons hHigh (.cons hLow .nil), .cons hValue .nil =>
    -- Both ways write the same bits, so they write the same number.
    rw [hPairSum, ← hWholeSum, ← hSame] at hWritten
    simp only [written, List.append_nil] at hWritten
    have hNumber := congrArg numberOfBits hWritten
    rw [numberOfBits_append, length_numberBits, numberOfBits_numberBits hHigh,
      numberOfBits_numberBits hLow, numberOfBits_numberBits hValue] at hNumber
    exact ⟨high, low, value, congrArg Prod.fst hPair, congrArg Prod.fst hWhole, hNumber.symm⟩

/-- One read that lacks some of its bits fails, and so does one of two reads in its place. -/
theorem reads_pair_end (hPosition : position ≤ 8 * input.length)
    (hShort : 8 * input.length < position + (first + second)) :
    ((ofPosition input position).reads [first + second]).1 = [.error (exhaustedAt input)] ∧
      ∀ high low, ((ofPosition input position).reads [first, second]).1 ≠ [.ok high, .ok low] := by
  refine ⟨?_, ?_⟩
  · rw [reads_cons,
      attempt_ofPosition_end (Nat.le_add_right_of_le hFirst) hMax hPosition hShort]
    rfl
  · intro high low hPair
    -- The first read may have its bits, but then the second has not.
    by_cases hHigh : position + first ≤ 8 * input.length
    · obtain ⟨other, hAttempt, -⟩ := attempt_ofPosition hFirst (by omega) hHigh
      simp only [reads_cons, hAttempt, attempt_ofPosition_end hSecond (by omega) hHigh
        (by omega : 8 * input.length < position + first + second)] at hPair
      simp at hPair
    · simp only [reads_cons, attempt_ofPosition_end hFirst (by omega) hPosition
        (Nat.lt_of_not_le hHigh)] at hPair
      simp at hPair

/-- Two reads that follow each other, or one of all their bits. -/
theorem reads_pair (hPosition : position ≤ 8 * input.length) :
    let pair := (ofPosition input position).reads [first, second]
    let whole := (ofPosition input position).reads [first + second]
    pair.2 = whole.2 ∧ ∀ value, whole.1 = [.ok value] ↔
      ∃ high low, pair.1 = [.ok high, .ok low] ∧
        value.toNat = high.toNat * 2 ^ second + low.toNat := by
  intro pair whole
  refine ⟨?_, ?_⟩
  · have hPair : pair.2 = _ := cursor_reads (by simp; omega) hPosition
    have hWhole : whole.2 = _ := cursor_reads (by simp; omega) hPosition
    rw [hPair, hWhole, List.sum_cons, List.sum_singleton, List.sum_singleton]
  intro value
  by_cases hEnough : position + (first + second) ≤ 8 * input.length
  · obtain ⟨high, low, joined, hPair, hWhole, hNumber⟩ :=
      reads_pair_values hFirst hSecond hMax hEnough
    rw [hPair, hWhole]
    constructor
    · intro hValue
      obtain rfl : joined = value := by simpa using hValue
      exact ⟨high, low, rfl, hNumber⟩
    · rintro ⟨otherHigh, otherLow, hOther, hSum⟩
      obtain ⟨rfl, rfl⟩ : high = otherHigh ∧ low = otherLow := by simpa using hOther
      rw [UInt8.toNat_inj.mp (hSum.trans hNumber.symm)]
  · obtain ⟨hWhole, hPair⟩ :=
      reads_pair_end hFirst hSecond hMax hPosition (Nat.lt_of_not_le hEnough)
    rw [hWhole]
    constructor
    · intro hValue
      simp at hValue
    · rintro ⟨high, low, hBoth, -⟩
      exact absurd hBoth (hPair high low)

end

/-! ## Copies of whole bytes -/

/-- To copy bytes is to read eight bits for each of them. -/
theorem copyBytes_eq_reads {base count : Nat} {buffer : Array UInt8}
    (hInside : base + count ≤ buffer.size) (cursor : BitCursor) :
    (∃ values bytes, (cursor.reads (List.replicate count 8)).1 = values.map .ok ∧
        copyBytes base count buffer cursor =
          .ok (bytes, (cursor.reads (List.replicate count 8)).2) ∧
        bytes.toList = buffer.toList.take base ++ values ++ buffer.toList.drop (base + count)) ∨
      ∃ error bytes, .error error ∈ (cursor.reads (List.replicate count 8)).1 ∧
        copyBytes base count buffer cursor = .error ⟨error, bytes⟩ ∧
        (cursor.reads (List.replicate count 8)).2 = error.cursor := by
  induction count generalizing base buffer cursor with
  | zero =>
    refine Or.inl ⟨[], buffer, rfl, rfl, ?_⟩
    rw [List.append_nil, Nat.add_zero, List.take_append_drop]
  | succ count ih =>
    rw [List.replicate_succ, reads_cons, copyBytes]
    unfold attempt
    cases hRead : cursor.readBits 8 with
    | error error =>
      refine Or.inr ⟨error, buffer, List.mem_cons_self, rfl, ?_⟩
      rw [reads_exhausted hRead]
    | ok result =>
      obtain ⟨value, next⟩ := result
      have hRest : base + 1 + count ≤ (buffer.setIfInBounds base value).size := by
        rw [Array.size_setIfInBounds]
        omega
      rcases ih hRest next with ⟨values, bytes, hReads, hCopy, hBytes⟩ |
        ⟨error, bytes, hError, hCopy, hCursor⟩
      · refine Or.inl ⟨value :: values, bytes, ?_, hCopy, ?_⟩
        · rw [hReads, List.map_cons]
        · have hBase : base < buffer.toList.length := by
            rw [Array.length_toList]
            omega
          have hTake : (buffer.toList.set base value).take (base + 1) =
              buffer.toList.take base ++ [value] := by
            rw [List.take_set, List.take_succ_eq_append_getElem hBase,
              List.set_append_right _ _ (List.length_take_le _ _), List.length_take,
              Nat.min_eq_left (Nat.le_of_lt hBase), Nat.sub_self, List.set_cons_zero]
          have hDrop : (buffer.toList.set base value).drop (base + 1 + count) =
              buffer.toList.drop (base + (count + 1)) := by
            rw [List.drop_set_of_lt (by omega), Nat.add_right_comm, ← Nat.add_assoc]
          rw [hBytes, Array.toList_setIfInBounds, hTake, hDrop,
            List.append_assoc (buffer.toList.take base), List.singleton_append]
      · exact Or.inr ⟨error, bytes, List.mem_cons_of_mem _ hError, hCopy, hCursor⟩

/-! ## The reads of a new cursor -/

/-- The first read that lacks some bits, and the reads after it. -/
theorem reads_end {input : Bytes} {before after : List Nat} {width : Nat}
    (hBefore : ∀ width ∈ before, 1 ≤ width ∧ width ≤ 8) (hPos : 1 ≤ width) (hMax : width ≤ 8)
    (hEnough : before.sum ≤ 8 * input.length) (hShort : 8 * input.length < before.sum + width) :
    ∃ values : List UInt8, values.length = before.length ∧
      (start input).reads (before ++ width :: after) =
        (values.map .ok ++ List.replicate (after.length + 1) (.error (exhaustedAt input)),
          ofPosition input (8 * input.length)) := by
  rw [← Nat.zero_add before.sum] at hEnough hShort
  obtain ⟨values, hReads, hValues, -⟩ := reads_ofPosition hBefore hEnough
  refine ⟨values, hValues.length_eq.symm, ?_⟩
  rw [← ofPosition_zero, reads_append, hReads, reads_ofPosition_end hPos hMax hEnough hShort]

/-- What the reads of a new cursor give is the bit string in pieces, two neighbouring pieces may be
read as one, and whole bytes are read to be copied. The first read that goes past the end fails
there, and all others after it. -/
theorem reads_slice (input : Bytes) {widths : List Nat}
    (hWidths : ∀ width ∈ widths, 1 ≤ width ∧ width ≤ 8) :
    let run := (start input).reads widths
    (1 ≤ run.2.bitsLeft ∧ run.2.bitsLeft ≤ 8 ∧ run.2.byteIndex ≤ input.length) ∧
    (widths.sum ≤ 8 * input.length →
      ∃ values, run.1 = values.map .ok ∧
        List.Forall₂ (fun width (value : UInt8) => value.toNat < 2 ^ width) widths values ∧
        written widths values = (Bytes.bits input).take widths.sum ∧
        8 * run.2.byteIndex + 8 - run.2.bitsLeft = widths.sum) ∧
    (∀ first second, 1 ≤ first → 1 ≤ second → first + second ≤ 8 →
      (run.2.reads [first, second]).2 = (run.2.reads [first + second]).2 ∧
      ∀ value, (run.2.reads [first + second]).1 = [.ok value] ↔
        ∃ high low, (run.2.reads [first, second]).1 = [.ok high, .ok low] ∧
          value.toNat = high.toNat * 2 ^ second + low.toNat) ∧
    (∀ base count (buffer : Array UInt8), base + count ≤ buffer.size →
      let bytes := run.2.reads (List.replicate count 8)
      (∃ values copied, bytes.1 = values.map .ok ∧
        run.2.copyBytes base count buffer = .ok (copied, bytes.2) ∧
        copied.toList = buffer.toList.take base ++ values ++ buffer.toList.drop (base + count)) ∨
      ∃ error copied, .error error ∈ bytes.1 ∧
        run.2.copyBytes base count buffer = .error ⟨error, copied⟩ ∧ bytes.2 = error.cursor) ∧
    ∀ before width after, widths = before ++ width :: after → before.sum ≤ 8 * input.length →
      8 * input.length < before.sum + width →
        ∃ values : List UInt8, values.length = before.length ∧
          run.1 = values.map .ok ++ List.replicate (after.length + 1) (.error (exhaustedAt input)) ∧
          run.2.byteIndex = input.length ∧
          ∀ more, run.2.reads more =
            (List.replicate more.length (.error (exhaustedAt input)), run.2) := by
  intro run
  have hCursor : run.2 = ofPosition input (min widths.sum (8 * input.length)) := by
    have hLast := cursor_reads hWidths (Nat.zero_le (8 * input.length))
    rwa [Nat.zero_add, ofPosition_zero] at hLast
  have hWithin : min widths.sum (8 * input.length) ≤ 8 * input.length := Nat.min_le_right _ _
  refine ⟨?_, ?_, ?_, ?_, ?_⟩
  · rw [hCursor, ofPosition]
    dsimp only
    omega
  · intro hEnough
    rw [← Nat.zero_add widths.sum] at hEnough
    obtain ⟨values, hReads, hValues, hWritten⟩ := reads_ofPosition hWidths hEnough
    rw [ofPosition_zero] at hReads hWritten
    refine ⟨values, congrArg Prod.fst hReads, hValues, hWritten, ?_⟩
    rw [hCursor, ofPosition]
    dsimp only
    omega
  · intro first second hFirst hSecond hMax
    rw [hCursor]
    exact reads_pair hFirst hSecond hMax hWithin
  · intro base count buffer hInside
    exact copyBytes_eq_reads hInside run.2
  · rintro before width after rfl hEnough hShort
    obtain ⟨hBefore, hRest⟩ := List.forall_mem_append.mp hWidths
    obtain ⟨hPos, hMax⟩ := hRest width List.mem_cons_self
    obtain ⟨values, hLength, hReads⟩ := reads_end hBefore hPos hMax hEnough hShort
    have hLast : run.2 = ofPosition input (8 * input.length) := congrArg Prod.snd hReads
    refine ⟨values, hLength, congrArg Prod.fst hReads, ?_, ?_⟩
    · rw [hLast, ofPosition_end]
    · intro more
      rw [hLast]
      exact reads_exhausted (readBits_ofPosition_end hPos hMax hEnough hShort) more

/-- Three reads take all of two bytes, and the fourth fails. -/
theorem reads_slice_two_bytes :
    let widths := [3, 8, 5, 1]
    (∀ width ∈ widths, 1 ≤ width ∧ width ≤ 8) ∧
      ∃ values : List UInt8, values.length = 3 ∧
        ((start [0xb4, 0xb0]).reads widths).1 = values.map .ok ++ [.error ⟨2, 2, 8, []⟩] := by
  intro widths
  have hWidths : ∀ width ∈ widths, 1 ≤ width ∧ width ≤ 8 := by decide
  obtain ⟨-, -, -, -, hEnd⟩ := reads_slice [0xb4, 0xb0] hWidths
  obtain ⟨values, hLength, hReads, -⟩ := hEnd [3, 8, 5] 1 [] rfl (by decide) (by decide)
  exact ⟨hWidths, values, hLength, hReads⟩

end ChunkFilters.BitCursor
