import ChunkFilters.Bytes

/-!
# Bit cursors

A cursor walks through a packed byte string, most significant bit first, one to eight bits at a
time. A read takes a *span* of the current byte and, where it straddles a byte boundary, a second
span of the next one. Spans are computed before any byte is looked at, so what is shifted by how
much depends on the position alone.

`unread` is the bit string that a cursor has still to read. Reads outside one to eight bits are
excluded. `budget` bounds the reads that are still possible, which is what loops over a packed
string end by.
-/

namespace ChunkFilters

/-- A position in a packed byte string, with the part of the string from the current byte on. -/
structure BitCursor where
  byteIndex : Nat
  /-- The number of unread bits of the current byte. -/
  bitsLeft : Nat
  rest : Bytes
deriving DecidableEq, Repr

/-- A read went past the end of the string: there is no byte at `byteIndex`. -/
structure Exhausted where
  byteIndex : Nat
  /-- Where the read leaves its cursor. A read that straddles a byte boundary has moved past it
  before it fails; any other has not moved. -/
  cursor : BitCursor
deriving DecidableEq, Repr

def Exhausted.message (error : Exhausted) : String :=
  s!"packed input exhausted at byte {error.byteIndex}"

/-! ## Spans -/

/-- Some neighbouring bits of a byte: dropping the `down` bits below them leaves `width` bits, which
land `up` bits above the bottom of the result. -/
structure BitSpan where
  down : Nat
  width : Nat
  up : Nat
deriving DecidableEq, Repr

namespace BitSpan

/-- The byte whose lowest `width` bits are set. -/
def mask (width : Nat) : UInt8 := if 8 ≤ width then 255 else (1 <<< UInt8.ofNat width) - 1

/-- The bits of the span, moved to where they land. -/
def extract (span : BitSpan) (byte : UInt8) : UInt8 :=
  ((byte >>> UInt8.ofNat span.down) &&& mask span.width) <<< UInt8.ofNat span.up

/-- The next `count` bits, all of them in a byte with more than `count` unread bits. -/
def within (bitsLeft count : Nat) : BitSpan := ⟨bitsLeft - count, count, 0⟩

/-- All unread bits of a byte, as the upper part of a read of `count` bits. -/
def upper (bitsLeft count : Nat) : BitSpan := ⟨0, bitsLeft, count - bitsLeft⟩

/-- The first bits of the next byte, as the lower part of a read of `count` bits. -/
def lower (bitsLeft count : Nat) : BitSpan := ⟨8 - (count - bitsLeft), count - bitsLeft, 0⟩

end BitSpan

namespace BitCursor

/-! ## Reading -/

/-- The cursor at the first bit of a byte string. -/
def start (input : Bytes) : BitCursor := ⟨0, 8, input⟩

def nextByte (cursor : BitCursor) (rest : Bytes) : BitCursor := ⟨cursor.byteIndex + 1, 8, rest⟩

/-- Reads the next `count` bits, one to eight, into the low bits of a byte. -/
def readBits (count : Nat) (cursor : BitCursor) : Except Exhausted (UInt8 × BitCursor) :=
  match cursor.rest with
  | [] => .error ⟨cursor.byteIndex, cursor⟩
  | byte :: rest =>
    if count < cursor.bitsLeft then
      .ok ((BitSpan.within cursor.bitsLeft count).extract byte,
        { cursor with bitsLeft := cursor.bitsLeft - count })
    else
      let upper := (BitSpan.upper cursor.bitsLeft count).extract byte
      let next := cursor.nextByte rest
      if count = cursor.bitsLeft then .ok (upper, next)
      else match rest with
        | [] => .error ⟨next.byteIndex, next⟩
        | following :: _ =>
          .ok (upper ||| (BitSpan.lower cursor.bitsLeft count).extract following,
            { next with bitsLeft := 8 - (count - cursor.bitsLeft) })

/-! ## Views -/

def position (cursor : BitCursor) : Nat := 8 * cursor.byteIndex + (8 - cursor.bitsLeft)

def unread (cursor : BitCursor) : List Bool :=
  (Bytes.bits cursor.rest).drop (8 - cursor.bitsLeft)

theorem unread_start (input : Bytes) : (start input).unread = Bytes.bits input := rfl

theorem position_start (input : Bytes) : (start input).position = 0 := rfl

/-- Where no byte is left every read fails, and does not move. -/
theorem readBits_end (count byteIndex bitsLeft : Nat) :
    readBits count ⟨byteIndex, bitsLeft, []⟩ = .error ⟨byteIndex, byteIndex, bitsLeft, []⟩ := rfl

/-- A read that fails leaves its cursor where no byte is left, so any read after it fails in the
same way and leaves the cursor where it is. -/
theorem readBits_of_error {count : Nat} {cursor : BitCursor} {error : Exhausted}
    (h : cursor.readBits count = .error error) (other : Nat) :
    error.cursor.readBits other = .error error := by
  obtain ⟨byteIndex, bitsLeft, rest⟩ := cursor
  unfold readBits at h
  split at h
  · next hRest =>
    obtain rfl : rest = [] := hRest
    cases h
    exact readBits_end other byteIndex bitsLeft
  · split at h
    · cases h
    · dsimp only at h
      split at h
      · cases h
      · split at h
        · cases h
          exact readBits_end other (byteIndex + 1) 8
        · cases h

/-! ## Progress -/

/-- A bound on the number of reads to come: it goes down with every read. -/
def budget (cursor : BitCursor) : Nat := cursor.bitsLeft + 8 * cursor.rest.length

theorem budget_readBits_lt {count : Nat} {cursor next : BitCursor} {value : UInt8}
    (hCount : 0 < count) (h : cursor.readBits count = .ok (value, next)) :
    next.budget < cursor.budget := by
  unfold readBits at h
  split at h
  · cases h
  · next hRest =>
    split at h
    · simp only [Except.ok.injEq, Prod.mk.injEq] at h
      obtain ⟨-, rfl⟩ := h
      simp only [budget]
      omega
    · dsimp only at h
      split at h
      · simp only [Except.ok.injEq, Prod.mk.injEq] at h
        obtain ⟨-, rfl⟩ := h
        simp only [budget, nextByte, hRest, List.length_cons]
        omega
      · split at h
        · cases h
        · simp only [Except.ok.injEq, Prod.mk.injEq] at h
          obtain ⟨-, rfl⟩ := h
          simp only [budget, nextByte, hRest, List.length_cons]
          omega

/-! ## Repetition -/

/-- Reads `count` items one after the other and appends them to those in `done`. -/
def readMany {ε α : Type} (read : BitCursor → Except ε (α × BitCursor)) :
    Nat → BitCursor → Array α → Except ε (Array α × BitCursor)
  | 0, cursor, done => .ok (done, cursor)
  | count + 1, cursor, done =>
    match read cursor with
    | .error error => .error error
    | .ok (item, cursor) => readMany read count cursor (done.push item)

theorem readMany_size {ε α : Type} {read : BitCursor → Except ε (α × BitCursor)} {count : Nat}
    {cursor next : BitCursor} {done items : Array α}
    (h : readMany read count cursor done = .ok (items, next)) :
    items.size = done.size + count := by
  induction count generalizing cursor done with
  | zero =>
    simp only [readMany, Except.ok.injEq, Prod.mk.injEq] at h
    obtain ⟨rfl, -⟩ := h
    rfl
  | succ count ih =>
    simp only [readMany] at h
    split at h
    · cases h
    · rw [ih h, Array.size_push]
      omega

theorem budget_readMany_le {ε α : Type} {read : BitCursor → Except ε (α × BitCursor)}
    (hRead : ∀ {cursor next : BitCursor} {item : α}, read cursor = .ok (item, next) →
      next.budget ≤ cursor.budget) {count : Nat} {cursor next : BitCursor} {done items : Array α}
    (h : readMany read count cursor done = .ok (items, next)) : next.budget ≤ cursor.budget := by
  induction count generalizing cursor done with
  | zero =>
    simp only [readMany, Except.ok.injEq, Prod.mk.injEq] at h
    obtain ⟨-, rfl⟩ := h
    exact Nat.le_refl _
  | succ count ih =>
    simp only [readMany] at h
    split at h
    · cases h
    · next hFirst => exact Nat.le_trans (ih h) (hRead hFirst)

/-! ## Numbers -/

/-- Reads a number of `count` bits, the highest bit first, eight of them at a time. -/
def readNumber (count : Nat) (cursor : BitCursor) : Except Exhausted (Nat × BitCursor) :=
  if count = 0 then .ok (0, cursor)
  else if count ≤ 8 then
    match cursor.readBits count with
    | .error error => .error error
    | .ok (value, cursor) => .ok (value.toNat, cursor)
  else
    match cursor.readBits 8 with
    | .error error => .error error
    | .ok (high, cursor) =>
      match readNumber (count - 8) cursor with
      | .error error => .error error
      | .ok (low, cursor) => .ok ((high.toNat <<< (count - 8)) + low, cursor)
termination_by count

/-- Why a number of unset bits could not be read. -/
inductive UnaryFault where
  | exhausted
  /-- There are more unset bits than are allowed. -/
  | tooLong
deriving DecidableEq, Repr

/-- Reads up to the first bit that is set, and adds the number of bits before it to `zeros`. More
than `limit` unset bits are not read. -/
def readUnaryFrom (limit zeros : Nat) (cursor : BitCursor) :
    Except UnaryFault (Nat × BitCursor) :=
  match h : cursor.readBits 1 with
  | .error _ => .error .exhausted
  | .ok (bit, next) =>
    have := budget_readBits_lt Nat.one_pos h
    if bit ≠ 0 then .ok (zeros, next)
    else if zeros = limit then .error .tooLong
    else readUnaryFrom limit (zeros + 1) next
termination_by cursor.budget

/-- Reads a number, at most `limit`, written as that many unset bits before a set one. -/
def readUnary (limit : Nat) (cursor : BitCursor) : Except UnaryFault (Nat × BitCursor) :=
  readUnaryFrom limit 0 cursor

theorem budget_readNumber_lt {count value : Nat} {cursor next : BitCursor} (hCount : 0 < count)
    (h : cursor.readNumber count = .ok (value, next)) : next.budget < cursor.budget := by
  induction count using Nat.strongRecOn generalizing cursor value with
  | ind count ih =>
    rw [readNumber, if_neg (by omega)] at h
    split at h
    · split at h
      · cases h
      · next hBits =>
        simp only [Except.ok.injEq, Prod.mk.injEq] at h
        obtain ⟨-, rfl⟩ := h
        exact budget_readBits_lt hCount hBits
    · split at h
      · cases h
      · next hHigh =>
        split at h
        · cases h
        · next hLow =>
          simp only [Except.ok.injEq, Prod.mk.injEq] at h
          obtain ⟨-, rfl⟩ := h
          exact Nat.lt_trans (ih _ (by omega) (by omega) hLow)
            (budget_readBits_lt (by decide) hHigh)

theorem budget_readNumber_le {count value : Nat} {cursor next : BitCursor}
    (h : cursor.readNumber count = .ok (value, next)) : next.budget ≤ cursor.budget := by
  rcases Nat.eq_zero_or_pos count with rfl | hCount
  · rw [readNumber, if_pos rfl] at h
    simp only [Except.ok.injEq, Prod.mk.injEq] at h
    exact h.2 ▸ Nat.le_refl _
  · exact Nat.le_of_lt (budget_readNumber_lt hCount h)

theorem budget_readUnaryFrom_lt {limit zeros value : Nat} {cursor next : BitCursor}
    (h : cursor.readUnaryFrom limit zeros = .ok (value, next)) : next.budget < cursor.budget := by
  fun_induction readUnaryFrom limit zeros cursor with
  | case1 => cases h
  | case2 _ _ _ _ _ hLess _ =>
    simp only [Except.ok.injEq, Prod.mk.injEq] at h
    obtain ⟨-, rfl⟩ := h
    exact hLess
  | case3 => cases h
  | case4 _ _ _ _ _ hLess _ _ ih => exact Nat.lt_trans (ih h) hLess

theorem budget_readUnary_lt {limit value : Nat} {cursor next : BitCursor}
    (h : cursor.readUnary limit = .ok (value, next)) : next.budget < cursor.budget :=
  budget_readUnaryFrom_lt h

end BitCursor

end ChunkFilters
