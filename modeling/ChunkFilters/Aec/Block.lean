import ChunkFilters.Aec.Sample
import ChunkFilters.Bits.Cursor

/-!
# Blocks of an adaptive entropy code

Samples are coded in blocks of a fixed size. An identifier at the front of a block says how: a run
of blocks of zeros, pairs of numbers (the second extension), raw samples, or numbers split into a
unary and a binary part. With preprocessing a block may start with a reference sample, which stands
for itself and takes the place of the first coded number.

`readBlock_budget_lt` is why reading blocks ends: each takes something from the input.
-/

namespace ChunkFilters.Aec

inductive Error where
  | unsupportedBlockSize
  /-- The input ended after that many samples. They are not counted where it ended among pairs of
  numbers. -/
  | exhausted (written : Option Nat)
  /-- A pair of numbers has a code that stands for none. -/
  | extensionTooLarge
  | unaryTooLong
deriving DecidableEq, Repr

def Error.message (bits : Nat) : Error → String
  | unsupportedBlockSize => "unsupported: block_size must be one of 8,16,32,64"
  | exhausted (some written) => s!"unexpected end of input at bit {bits} (wrote {written} samples)"
  | exhausted none => s!"unexpected end of input at bit {bits}"
  | extensionTooLarge => "invalid input: Second Extension unary symbol too large"
  | unaryTooLong => "invalid input: unary run too long"

/-- What a number that cannot be read means for the input. -/
def Error.ofUnary (written : Option Nat) : BitCursor.UnaryFault → Error
  | .exhausted => exhausted written
  | .tooLong => unaryTooLong

structure State where
  cursor : BitCursor
  samples : Samples
  block : Nat

/-- What is decoded: the parameters of the code and the number of samples that are wanted. -/
structure Task where
  parameters : Parameters
  wanted : Nat

/-! ## Unary numbers -/

def maxUnary : Nat := 1000000

def readUnary : BitCursor → Except BitCursor.UnaryFault (Nat × BitCursor) :=
  BitCursor.readUnary maxUnary

/-! ## Identifiers -/

inductive BlockKind where
  | zeroRun
  | secondExtension
  | raw
  /-- Numbers with `low` binary bits after the unary part. -/
  | split (low : Nat)
deriving DecidableEq, Repr

def idLength (parameters : Parameters) : Nat :=
  if parameters.bits ≤ 8 then 3 else if parameters.bits ≤ 16 then 4 else 5

theorem idLength_pos (parameters : Parameters) : 0 < idLength parameters := by
  unfold idLength
  split
  · decide
  · split <;> decide

/-- The kinds with an identifier of zero are told apart by one more bit. -/
def readLowEntropyKind (cursor : BitCursor) : Except Exhausted (BlockKind × BitCursor) :=
  match cursor.readNumber 1 with
  | .error error => .error error
  | .ok (0, cursor) => .ok (.zeroRun, cursor)
  | .ok (_, cursor) => .ok (.secondExtension, cursor)

def readKind (parameters : Parameters) (cursor : BitCursor) :
    Except Exhausted (BlockKind × BitCursor) :=
  match cursor.readNumber (idLength parameters) with
  | .error error => .error error
  | .ok (id, cursor) =>
    if id = 0 then readLowEntropyKind cursor
    else if id = (1 <<< idLength parameters) - 1 then .ok (.raw, cursor)
    else .ok (.split (id - 1), cursor)

theorem budget_readKind_lt {parameters : Parameters} {cursor next : BitCursor} {kind : BlockKind}
    (h : readKind parameters cursor = .ok (kind, next)) : next.budget < cursor.budget := by
  unfold readKind at h
  split at h
  · cases h
  · next hId =>
    have hLess := BitCursor.budget_readNumber_lt (idLength_pos parameters) hId
    split at h
    · unfold readLowEntropyKind at h
      split at h
      · cases h
      · next hBit =>
        simp only [Except.ok.injEq, Prod.mk.injEq] at h
        obtain ⟨-, rfl⟩ := h
        exact Nat.lt_of_le_of_lt (BitCursor.budget_readNumber_le hBit) hLess
      · next hBit =>
        simp only [Except.ok.injEq, Prod.mk.injEq] at h
        obtain ⟨-, rfl⟩ := h
        exact Nat.lt_of_le_of_lt (BitCursor.budget_readNumber_le hBit) hLess
    · split at h <;>
      · simp only [Except.ok.injEq, Prod.mk.injEq] at h
        obtain ⟨-, rfl⟩ := h
        exact hLess

/-! ## Second extension -/

def maxPair : Nat := 90

/-- The least sum of a pair, from `sum` on, for which there is a pair with the given number; pairs
are numbered by ascending sums, with `sum + 1` pairs to a sum. -/
def pairSum (sum : Nat) (number : Nat) : Nat :=
  if sum + 1 ≤ number then pairSum (sum + 1) (number - (sum + 1)) else sum
termination_by number
decreasing_by omega

def pairOf (number : Nat) : Nat × Nat :=
  let sum := pairSum 0 number
  let second := number - sum * (sum + 1) / 2
  (sum - second, second)

/-- Reads pairs until `count` numbers have been coded or all samples are there. After a reference,
the first pair codes its second number only. -/
def readPairs (task : Task) (skipFirst : Bool) :
    Nat → BitCursor → Samples → Except Error (BitCursor × Samples)
  | 0, cursor, samples => .ok (cursor, samples)
  | count + 1, cursor, samples =>
    if samples.isComplete task.wanted then .ok (cursor, samples)
    else match readUnary cursor with
      | .error fault => .error (.ofUnary none fault)
      | .ok (number, cursor) =>
        if maxPair < number then .error .extensionTooLarge
        else
          let (first, second) := pairOf number
          if skipFirst then
            readPairs task false count cursor (samples.put task.parameters task.wanted second)
          else
            let samples := samples.put task.parameters task.wanted first
            match count with
            | 0 => .ok (cursor, samples)
            | count + 1 =>
              readPairs task false count cursor (samples.put task.parameters task.wanted second)

/-! ## Raw samples -/

/-- Reads `count` raw samples, or fewer if that completes them. -/
def readRaw (task : Task) : Nat → BitCursor → Samples → Except Error (BitCursor × Samples)
  | 0, cursor, samples => .ok (cursor, samples)
  | count + 1, cursor, samples =>
    if samples.isComplete task.wanted then .ok (cursor, samples)
    else match cursor.readNumber task.parameters.bits with
      | .error _ => .error (.exhausted (some samples.values.size))
      | .ok (value, cursor) =>
        readRaw task count cursor (samples.put task.parameters task.wanted value)

/-! ## Split numbers -/

/-- The number with the given unary and binary part, in 32 bits. -/
def joinParts (low unary binary : Nat) : Nat := (unary <<< low) % UInt32.size ||| binary

/-- Reads `count` split numbers: all unary parts, then all binary parts. -/
def readSplit (low count : Nat) (cursor : BitCursor) :
    Except BitCursor.UnaryFault (List Nat × BitCursor) :=
  match BitCursor.readMany readUnary count cursor #[] with
  | .error fault => .error fault
  | .ok (unaries, cursor) =>
    match BitCursor.readMany (BitCursor.readNumber low) count cursor #[] with
    | .error _ => .error .exhausted
    | .ok (binaries, cursor) =>
      .ok (List.zipWith (joinParts low) unaries.toList binaries.toList, cursor)

/-! ## Runs of zeros -/

/-- The number of unary parts that stands for the rest of a segment of 64 blocks. -/
def restOfSegment : Nat := 5

/-- The number of blocks in a run, given its unary code and the block where it starts. -/
def runLength (parameters : Parameters) (block unary : Nat) : Nat :=
  let coded := unary + 1
  if coded = restOfSegment then min (parameters.interval - block) (64 - block % 64)
  else if restOfSegment < coded then coded - 1
  else coded

/-! ## Blocks -/

/-- Reads the reference sample, if the block starts with one. -/
def readReference (task : Task) (block : Nat) (cursor : BitCursor) :
    Except Exhausted (Option Nat × BitCursor) :=
  if task.parameters.preprocessed && block == 0 then
    match cursor.readNumber task.parameters.bits with
    | .error error => .error error
    | .ok (value, cursor) => .ok (some value, cursor)
  else .ok (none, cursor)

/-- The number of the block after one that is no run of zeros. -/
def nextBlock (parameters : Parameters) (block : Nat) : Nat :=
  if parameters.preprocessed ∧ parameters.interval ≤ block + 1 then 0 else block + 1

def readZeroRun (task : Task) (hasReference : Bool) (state : State) : Except Error State :=
  match readUnary state.cursor with
  | .error fault => .error (.ofUnary (some state.samples.values.size) fault)
  | .ok (unary, cursor) =>
    let length := runLength task.parameters state.block unary
    let zeros := length * task.parameters.blockSize - hasReference.toNat
    let missing := task.wanted - state.samples.values.size
    let block := state.block + length
    let interval := task.parameters.interval
    .ok {
      cursor
      samples := state.samples.putZeros task.parameters task.wanted (min zeros missing)
      block := if interval ≤ block then block % interval else block }

def readCoded (task : Task) (kind : BlockKind) (hasReference : Bool) (state : State) :
    Except Error State :=
  let count := task.parameters.blockSize - hasReference.toNat
  let block := nextBlock task.parameters state.block
  match kind with
  | .zeroRun => readZeroRun task hasReference state
  | .secondExtension =>
    match readPairs task hasReference count state.cursor state.samples with
    | .error error => .error error
    | .ok (cursor, samples) => .ok { cursor, samples, block }
  | .raw =>
    match readRaw task count state.cursor state.samples with
    | .error error => .error error
    | .ok (cursor, samples) => .ok { cursor, samples, block }
  | .split low =>
    match readSplit low count state.cursor with
    | .error fault => .error (.ofUnary (some state.samples.values.size) fault)
    | .ok (coded, cursor) =>
      .ok { cursor, samples := state.samples.putAll task.parameters task.wanted coded, block }

/-- Reads a block, or only its reference if that completes the samples. -/
def readBlock (task : Task) (state : State) : Except Error State :=
  let ⟨cursor, samples, block⟩ := state
  match readKind task.parameters cursor with
  | .error _ => .error (.exhausted (some samples.values.size))
  | .ok (kind, cursor) =>
    match readReference task block cursor with
    | .error _ => .error (.exhausted (some samples.values.size))
    | .ok (none, cursor) => readCoded task kind false ⟨cursor, samples, block⟩
    | .ok (some value, cursor) =>
      let samples := samples.putReference value
      if samples.isComplete task.wanted then .ok ⟨cursor, samples, block⟩
      else readCoded task kind true ⟨cursor, samples, block⟩

/-! ## Progress -/

theorem budget_readUnary_le {cursor next : BitCursor} {value : Nat}
    (h : readUnary cursor = .ok (value, next)) : next.budget ≤ cursor.budget :=
  Nat.le_of_lt (BitCursor.budget_readUnary_lt h)

theorem budget_readPairs_le {task : Task} {skipFirst : Bool} {count : Nat}
    {cursor next : BitCursor} {samples after : Samples}
    (h : readPairs task skipFirst count cursor samples = .ok (next, after)) :
    next.budget ≤ cursor.budget := by
  fun_induction readPairs task skipFirst count cursor samples with
  | case1 | case2 =>
    simp only [Except.ok.injEq, Prod.mk.injEq] at h
    exact h.1 ▸ Nat.le_refl _
  | case3 | case4 => cases h
  | case5 _ _ _ _ _ _ hUnary _ _ _ _ ih => exact Nat.le_trans (ih h) (budget_readUnary_le hUnary)
  | case6 _ _ _ _ _ _ hUnary =>
    simp only [Except.ok.injEq, Prod.mk.injEq] at h
    exact h.1 ▸ budget_readUnary_le hUnary
  | case7 _ _ _ _ _ _ hUnary _ _ _ _ _ _ _ ih =>
    exact Nat.le_trans (ih h) (budget_readUnary_le hUnary)

theorem budget_readRaw_le {task : Task} {count : Nat} {cursor next : BitCursor}
    {samples after : Samples} (h : readRaw task count cursor samples = .ok (next, after)) :
    next.budget ≤ cursor.budget := by
  induction count generalizing cursor samples with
  | zero =>
    simp only [readRaw, Except.ok.injEq, Prod.mk.injEq] at h
    exact h.1 ▸ Nat.le_refl _
  | succ count ih =>
    simp only [readRaw] at h
    split at h
    · simp only [Except.ok.injEq, Prod.mk.injEq] at h
      exact h.1 ▸ Nat.le_refl _
    · split at h
      · cases h
      · next hValue => exact Nat.le_trans (ih h) (BitCursor.budget_readNumber_le hValue)

theorem budget_readSplit_le {low count : Nat} {cursor next : BitCursor} {coded : List Nat}
    (h : readSplit low count cursor = .ok (coded, next)) : next.budget ≤ cursor.budget := by
  unfold readSplit at h
  split at h
  · cases h
  · next hUnaries =>
    split at h
    · cases h
    · next hBinaries =>
      simp only [Except.ok.injEq, Prod.mk.injEq] at h
      obtain ⟨-, rfl⟩ := h
      exact Nat.le_trans (BitCursor.budget_readMany_le BitCursor.budget_readNumber_le hBinaries)
        (BitCursor.budget_readMany_le budget_readUnary_le hUnaries)

theorem budget_readCoded_le {task : Task} {kind : BlockKind} {hasReference : Bool}
    {state after : State} (h : readCoded task kind hasReference state = .ok after) :
    after.cursor.budget ≤ state.cursor.budget := by
  unfold readCoded at h
  dsimp only at h
  split at h
  · unfold readZeroRun at h
    split at h
    · cases h
    · next hUnary =>
      simp only [Except.ok.injEq] at h
      subst h
      exact budget_readUnary_le hUnary
  · split at h
    · cases h
    · next hPairs =>
      simp only [Except.ok.injEq] at h
      subst h
      exact budget_readPairs_le hPairs
  · split at h
    · cases h
    · next hRaw =>
      simp only [Except.ok.injEq] at h
      subst h
      exact budget_readRaw_le hRaw
  · split at h
    · cases h
    · next hSplit =>
      simp only [Except.ok.injEq] at h
      subst h
      exact budget_readSplit_le hSplit

theorem budget_readReference_le {task : Task} {block : Nat} {cursor next : BitCursor}
    {reference : Option Nat} (h : readReference task block cursor = .ok (reference, next)) :
    next.budget ≤ cursor.budget := by
  unfold readReference at h
  split at h
  · split at h
    · cases h
    · next hValue =>
      simp only [Except.ok.injEq, Prod.mk.injEq] at h
      exact h.2 ▸ BitCursor.budget_readNumber_le hValue
  · simp only [Except.ok.injEq, Prod.mk.injEq] at h
    exact h.2 ▸ Nat.le_refl _

theorem readBlock_budget_lt {task : Task} {state after : State}
    (h : readBlock task state = .ok after) : after.cursor.budget < state.cursor.budget := by
  unfold readBlock at h
  dsimp only at h
  split at h
  · cases h
  · next hKind =>
    have hLess := budget_readKind_lt hKind
    split at h
    · cases h
    · next hReference =>
      have hReference := budget_readReference_le hReference
      have hCoded := budget_readCoded_le h
      dsimp only at hCoded
      omega
    · next hReference =>
      have hReference := budget_readReference_le hReference
      split at h
      · simp only [Except.ok.injEq] at h
        subst h
        exact Nat.lt_of_le_of_lt hReference hLess
      · have hCoded := budget_readCoded_le h
        dsimp only at hCoded
        omega

end ChunkFilters.Aec
