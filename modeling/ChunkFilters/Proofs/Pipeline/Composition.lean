import ChunkFilters.Proofs.Pipeline.PlainLoop
import Mathlib.Data.List.Basic

/-!
# Pipelines put one after the other

The filters of two pipelines, put into one list, are undone by undoing those of the second pipeline
and then those of the first. The entries of the second pipeline have moved up by the length of the
first, so its mask, its errors and the bits that it sets move with them.

* `plainTurn_join`: what was skipped and put to the handler before has no influence on a turn, as
  long as the handler decides by the failure alone, and a turn at a moved index is reported moved;
* `plainLoop_join`: the same for a loop over entries that stand among others;
* `plainRun_append`: so the two runs follow each other;
* `apply_append`: the same for `Pipeline.apply`, in both directions, with the errors and failures.

A handler that considers the failures before is excluded: the first pipeline alone would show it
fewer of them.
-/

namespace ChunkFilters

namespace FilterMask

/-- The bits of the entries below `count`. -/
def lower (count : Nat) (mask : FilterMask) : FilterMask :=
  BitVec.ofNat 32 (mask.toNat % 1 <<< count)

theorem skips_lower (count : Nat) (mask : FilterMask) (index : Nat) :
    (mask.lower count).skips index = (decide (index < count) && mask.skips index) := by
  have hBound : 32 ≤ index → mask.getLsbD index = false := BitVec.getLsbD_of_ge mask index
  rw [skips, lower, BitVec.getLsbD_ofNat, Nat.one_shiftLeft, Nat.testBit_mod_two_pow,
    BitVec.testBit_toNat, skips]
  by_cases hIndex : index < 32
  · rw [decide_eq_true hIndex, Bool.true_and]
  · rw [hBound (by omega), Bool.and_false, Bool.and_false]

theorem skips_shiftRight (mask : FilterMask) (count index : Nat) :
    skips (mask >>> count) index = mask.skips (count + index) :=
  BitVec.getLsbD_ushiftRight mask count index

theorem only_shiftLeft (count index : Nat) : only index <<< count = only (index + count) := by
  rw [only, only, BitVec.twoPow, BitVec.twoPow, BitVec.shiftLeft_add]

/-- A mask is put together again from its bits above and below a cut. -/
theorem join_or_join (mask upper lower : FilterMask) (count : Nat) :
    (mask >>> count ||| upper) <<< count ||| (mask.lower count ||| lower) =
      mask ||| (upper <<< count ||| lower) := by
  apply BitVec.eq_of_getLsbD_eq
  intro index hIndex
  have hLower : (mask.lower count).getLsbD index = (decide (index < count) && mask.getLsbD index) :=
    skips_lower count mask index
  simp only [BitVec.getLsbD_or, BitVec.getLsbD_shiftLeft, BitVec.getLsbD_ushiftRight, hLower]
  by_cases hBelow : index < count
  · simp [hBelow]
  · have hBack : count + (index - count) = index := by omega
    simp [hBelow, hIndex, hBack, Bool.or_assoc]

end FilterMask

/-- The error of a run, where `count` entries have been put in front. -/
def PipelineError.moved (count : Nat) : PipelineError → PipelineError
  | illegalOperation => illegalOperation
  | unregisteredFilter index id => unregisteredFilter (index + count) id
  | filterFailed index id source => filterFailed (index + count) id source

/-- Decides by the failure alone. -/
def FailureHandler.ofFailure (respond : Failure → FailureResponse) : FailureHandler :=
  fun _ failure => respond failure

namespace Pipeline

/-- The entries of both pipelines, those of the first in front. -/
def append (first second : Pipeline)
    (h : first.entries.length + second.entries.length ≤ maxFilters) : Pipeline where
  entries := first.entries ++ second.entries
  length_le := by
    rw [List.length_append]
    exact h

/-! ## Loops that go on -/

/-- The state of a loop over the entries from `base` on that follows another loop. -/
def Plain.join (earlier : Plain) (base : Nat) (later : Plain) : Plain :=
  { later with
    skipped := earlier.skipped ||| later.skipped <<< base
    failures := earlier.failures ++ later.failures }

def Plain.joinStopped (earlier : Plain) (base : Nat) (stopped : Stopped) : Stopped :=
  ⟨stopped.error.moved base, earlier.failures ++ stopped.failures⟩

/-- A loop that has done nothing yet adds nothing to the one that it follows. -/
theorem join_fresh (earlier : Plain) (base : Nat) :
    earlier.join base ⟨earlier.bytes, 0, []⟩ = earlier := by
  have hSkipped : earlier.skipped ||| 0#32 <<< base = earlier.skipped := by
    rw [BitVec.zero_shiftLeft, BitVec.or_zero]
  show (⟨earlier.bytes, earlier.skipped ||| 0#32 <<< base, earlier.failures ++ []⟩ : Plain) =
    earlier
  rw [hSkipped, List.append_nil]

section
variable (registry : Registry) {invocation : Invocation}
  {respond : Option (Failure → FailureResponse)}
  (hHandler : invocation.handler = respond.map FailureHandler.ofFailure)
include hHandler

/-- What has been before has no influence on a turn, and is kept. -/
theorem plainTurn_join (mask : FilterMask) (base index : Nat) (entry : Entry)
    (earlier plain : Plain) :
    plainTurn registry invocation (base + index) entry (earlier.join base plain) =
      ((plainTurn registry { invocation with mask } index entry plain).mapError
        (earlier.joinStopped base)).map (earlier.join base) := by
  have hBytes : (earlier.join base plain).bytes = plain.bytes := rfl
  have hFailures : (earlier.join base plain).failures = earlier.failures ++ plain.failures := rfl
  unfold plainTurn
  rw [hBytes, hFailures, hHandler]
  cases registry.lookup entry.filterId with
  | none =>
    dsimp only
    rw [Nat.add_comm base index]
    rfl
  | some filter =>
    dsimp only
    cases plainDecode filter invocation.options entry plain.bytes with
    | ok bytes => rfl
    | error source =>
      dsimp only
      rw [Nat.add_comm base index]
      cases source.isFatal with
      | true => rfl
      | false =>
        cases respond with
        | none => rfl
        | some respond =>
          simp only [Option.map_some, FailureHandler.ofFailure, List.append_assoc]
          cases respond ⟨entry.filterId, plain.bytes⟩ with
          | stop => rfl
          | skip =>
            have hSkipped : (earlier.join base plain).skipped ||| FilterMask.only (index + base) =
                earlier.skipped ||| (plain.skipped ||| FilterMask.only index) <<< base := by
              rw [Plain.join, BitVec.or_assoc, BitVec.shiftLeft_or_distrib,
                FilterMask.only_shiftLeft]
            simp only [hSkipped]
            rfl

/-- A loop over entries that stand at `base` among others is a part of the loop over all. -/
theorem plainLoop_join {mask : FilterMask} {all entries : List Entry} {base count : Nat}
    (hEntries : ∀ index < count, all[base + index]? = entries[index]?)
    (hMask : ∀ index < count, invocation.mask.skips (base + index) = mask.skips index)
    (earlier plain : Plain) :
    plainLoop registry invocation all (base + count) (earlier.join base plain) =
      (((plainLoop registry { invocation with mask } entries count plain).mapError
        (earlier.joinStopped base)).map (earlier.join base)).bind
          (plainLoop registry invocation all base) := by
  induction count generalizing plain with
  | zero => rfl
  | succ index ih =>
    have hRest := fun plain => ih (fun lower hLower => hEntries lower (by omega))
      (fun lower hLower => hMask lower (by omega)) plain
    rw [← Nat.add_assoc]
    simp only [plainLoop, hEntries index (by omega), hMask index (by omega)]
    cases entries[index]? with
    | none => exact hRest plain
    | some entry =>
      dsimp only
      split
      · exact hRest plain
      · rw [plainTurn_join registry hHandler mask]
        cases plainTurn registry { invocation with mask } index entry plain with
        | error stopped => rfl
        | ok next => exact hRest next

end

/-! ## One run after the other -/

/-- The loop over the entries behind the first `first.length`. -/
theorem plainLoop_upper (registry : Registry) {invocation : Invocation}
    {respond : Option (Failure → FailureResponse)}
    (hHandler : invocation.handler = respond.map FailureHandler.ofFailure)
    (first second : List Entry) (fresh : Plain) :
    plainLoop registry invocation (first ++ second) (first.length + second.length)
        (fresh.join first.length ⟨fresh.bytes, 0, []⟩) =
      (((plainLoop registry { invocation with mask := invocation.mask >>> first.length } second
        second.length ⟨fresh.bytes, 0, []⟩).mapError (fresh.joinStopped first.length)).map
          (fresh.join first.length)).bind
            (plainLoop registry invocation (first ++ second) first.length) := by
  apply plainLoop_join registry hHandler
  · intro index _
    rw [List.getElem?_append_right (Nat.le_add_right _ _), Nat.add_sub_cancel_left]
  · intro index _
    exact (FilterMask.skips_shiftRight _ _ _).symm

/-- The loop over the first `first.length` entries. -/
theorem plainLoop_lower (registry : Registry) {invocation : Invocation}
    {respond : Option (Failure → FailureResponse)}
    (hHandler : invocation.handler = respond.map FailureHandler.ofFailure)
    (first second : List Entry) (earlier : Plain) :
    plainLoop registry invocation (first ++ second) first.length earlier =
      ((plainLoop registry { invocation with mask := invocation.mask.lower first.length } first
        first.length ⟨earlier.bytes, 0, []⟩).mapError (earlier.joinStopped 0)).map
          (earlier.join 0) := by
  have hLoop : plainLoop registry invocation (first ++ second) (0 + first.length)
      (earlier.join 0 ⟨earlier.bytes, 0, []⟩) =
        (((plainLoop registry { invocation with mask := invocation.mask.lower first.length } first
          first.length ⟨earlier.bytes, 0, []⟩).mapError (earlier.joinStopped 0)).map
            (earlier.join 0)).bind (plainLoop registry invocation (first ++ second) 0) := by
    apply plainLoop_join registry hHandler
    · intro index hIndex
      rw [Nat.zero_add, List.getElem?_append_left hIndex]
    · intro index hIndex
      rw [Nat.zero_add, FilterMask.skips_lower, decide_eq_true hIndex, Bool.true_and]
  rw [join_fresh, Nat.zero_add] at hLoop
  rw [hLoop]
  cases (plainLoop registry { invocation with mask := invocation.mask.lower first.length } first
    first.length ⟨earlier.bytes, 0, []⟩).mapError (earlier.joinStopped 0) <;> rfl

theorem moved_zero (error : PipelineError) : error.moved 0 = error := by
  cases error <;> rfl

/-- The plain run of both pipelines is that of the second, and on its bytes that of the first. -/
theorem plainRun_append (registry : Registry) {invocation : Invocation}
    {respond : Option (Failure → FailureResponse)}
    (hHandler : invocation.handler = respond.map FailureHandler.ofFailure)
    (first second : Pipeline)
    (hLength : first.entries.length + second.entries.length ≤ maxFilters) (buffer : Bytes) :
    (first.append second hLength).plainRun registry invocation buffer =
      let count := first.entries.length
      let upper := second.plainRun registry
        { invocation with mask := invocation.mask >>> count } buffer
      let lower := first.plainRun registry
        { invocation with mask := invocation.mask.lower count } upper.buffer
      match upper.result, lower.result with
      | .error error, _ => ⟨.error (error.moved count), buffer, upper.failures⟩
      | .ok _, .error error => ⟨.error error, buffer, upper.failures ++ lower.failures⟩
      | .ok mask, .ok more =>
        ⟨.ok (mask <<< count ||| more), lower.buffer, upper.failures ++ lower.failures⟩ := by
  have hUpper := plainLoop_upper registry hHandler first.entries second.entries ⟨buffer, 0, []⟩
  have hLower := plainLoop_lower registry hHandler first.entries second.entries
  rw [join_fresh] at hUpper
  have hEntries : (first.append second hLength).entries = first.entries ++ second.entries := rfl
  simp only [plainRun, hEntries, List.length_append, hUpper]
  cases plainLoop registry { invocation with mask := invocation.mask >>> first.entries.length }
    second.entries second.entries.length ⟨buffer, 0, []⟩ with
  | error stopped => rfl
  | ok upper =>
    have hBytes : (Plain.join ⟨buffer, 0, []⟩ first.entries.length upper).bytes = upper.bytes := rfl
    have hKept : (Except.ok upper : Except Stopped Plain).mapError
        (Plain.joinStopped ⟨buffer, 0, []⟩ first.entries.length) = .ok upper := rfl
    simp only [hKept, Except.map, Except.bind, hLower, hBytes]
    cases plainLoop registry { invocation with mask := invocation.mask.lower first.entries.length }
      first.entries first.entries.length ⟨upper.bytes, 0, []⟩ with
    | error stopped =>
      show Outcome.mk (.error (stopped.error.moved 0)) buffer (upper.failures ++ stopped.failures) =
        ⟨.error stopped.error, buffer, upper.failures ++ stopped.failures⟩
      rw [moved_zero]
    | ok lower =>
      have hMask : invocation.mask |||
            (0#32 ||| upper.skipped <<< first.entries.length ||| lower.skipped <<< 0) =
          (invocation.mask >>> first.entries.length ||| upper.skipped) <<< first.entries.length |||
            (invocation.mask.lower first.entries.length ||| lower.skipped) := by
        rw [FilterMask.join_or_join, BitVec.zero_or, BitVec.shiftLeft_zero]
      exact congrArg (fun mask : FilterMask =>
        (⟨.ok mask, lower.bytes, upper.failures ++ lower.failures⟩ : Outcome)) hMask

/-! ## Main statement -/

theorem registered_upper {registry : Registry} {mask : FilterMask} {first second : List Entry}
    (h : Registered registry mask (first ++ second)) :
    Registered registry (mask >>> first.length) second := by
  intro index entry hEntry hSkips
  apply h (first.length + index)
  · rw [List.getElem?_append_right (Nat.le_add_right _ _), Nat.add_sub_cancel_left]
    exact hEntry
  · rw [← FilterMask.skips_shiftRight]
    exact hSkips

theorem registered_lower {registry : Registry} {mask : FilterMask} {first second : List Entry}
    (h : Registered registry mask (first ++ second)) :
    Registered registry (mask.lower first.length) first := by
  intro index entry hEntry hSkips
  have hIndex : index < first.length := (List.getElem?_eq_some_iff.mp hEntry).1
  apply h index
  · rw [List.getElem?_append_left hIndex]
    exact hEntry
  · rwa [FilterMask.skips_lower, decide_eq_true hIndex, Bool.true_and] at hSkips

/-- What a run of both pipelines returns, which bytes it leaves and what it puts to the handler, by
the runs of the second pipeline and then of the first. -/
theorem apply_append {registry : Registry} (hHint : registry.IgnoresSizeHint)
    (first second : Pipeline)
    (hLength : first.entries.length + second.entries.length ≤ maxFilters) (mask : FilterMask)
    (hRegistered : Registered registry mask (first.append second hLength).entries)
    (respond : Option (Failure → FailureResponse)) (options : CodecOptions) (buffer : Bytes)
    (spare upperSpare lowerSpare : Nat) :
    let count := first.entries.length
    let invocation (mask : FilterMask) (spare : Nat) : Invocation :=
      { direction := .decode, mask, handler := respond.map FailureHandler.ofFailure, options,
        spare }
    let joint := (first.append second hLength).apply registry (invocation mask spare) buffer
    let upper := second.apply registry (invocation (mask >>> count) upperSpare) buffer
    let lower (middle : Bytes) :=
      first.apply registry (invocation (mask.lower count) lowerSpare) middle
    (∀ (returned : FilterMask) (out : Bytes),
      joint.result = .ok returned ∧ joint.buffer = out ↔
        ∃ (high low : FilterMask) (middle : Bytes),
          upper.result = .ok high ∧ upper.buffer = middle ∧
            (lower middle).result = .ok low ∧ (lower middle).buffer = out ∧
              returned = high <<< count ||| low) ∧
    (∀ (index : Nat) (id : FilterId) (source : CodecError),
      upper.result = .error (.filterFailed index id source) →
        joint.result = .error (.filterFailed (index + count) id source) ∧
          joint.failures = upper.failures) ∧
    ∀ high : FilterMask, upper.result = .ok high →
      joint.failures = upper.failures ++ (lower upper.buffer).failures ∧
        ∀ error : PipelineError, (lower upper.buffer).result = .error error →
          joint.result = .error error := by
  intro count invocation joint upper lower
  have hUpper : upper = second.plainRun registry (invocation (mask >>> count) spare) buffer :=
    apply_plain_spare hHint (invocation (mask >>> count) spare) rfl second
      (registered_upper hRegistered) upperSpare buffer
  have hLower : ∀ middle, lower middle =
      first.plainRun registry (invocation (mask.lower count) spare) middle :=
    apply_plain_spare hHint (invocation (mask.lower count) spare) rfl first
      (registered_lower hRegistered) lowerSpare
  have hJoint : joint =
      match upper.result, (lower upper.buffer).result with
      | .error error, _ => ⟨.error (error.moved count), buffer, upper.failures⟩
      | .ok _, .error error =>
        ⟨.error error, buffer, upper.failures ++ (lower upper.buffer).failures⟩
      | .ok high, .ok low =>
        ⟨.ok (high <<< count ||| low), (lower upper.buffer).buffer,
          upper.failures ++ (lower upper.buffer).failures⟩ := by
    rw [hLower, hUpper]
    exact (apply_plain hHint rfl _ hRegistered buffer).trans
      (plainRun_append registry (by rfl) first second hLength buffer)
  refine ⟨?_, ?_, ?_⟩
  · intro returned out
    rw [hJoint]
    constructor
    · rintro ⟨hResult, hOut⟩
      cases hHigh : upper.result with
      | error error =>
        rw [hHigh] at hResult
        cases hResult
      | ok high =>
        cases hLow : (lower upper.buffer).result with
        | error error =>
          rw [hHigh, hLow] at hResult
          cases hResult
        | ok low =>
          rw [hHigh, hLow] at hResult hOut
          exact ⟨high, low, upper.buffer, rfl, rfl, hLow, hOut, (Except.ok.inj hResult).symm⟩
    · rintro ⟨high, low, middle, hHigh, rfl, hLow, hOut, hReturned⟩
      rw [hHigh, hLow, hReturned]
      exact ⟨rfl, hOut⟩
  · intro index id source hError
    rw [hJoint, hError]
    exact ⟨rfl, rfl⟩
  · intro high hHigh
    rw [hJoint, hHigh]
    constructor
    · cases (lower upper.buffer).result <;> rfl
    · intro error hError
      rw [hError]

/-- The second pipeline drops a checksum and skips an entry without parameters, which is bit 1 of
its own mask and bit 3 of the joint one. The first pipeline orders the bytes that are left; the
chunk was stored without its last entry. The highest bit of the mask has no entry. -/
theorem apply_append_checkedShuffles :
    let first : Pipeline :=
      { entries := [⟨.shuffle, .none, none, [2]⟩, ⟨.shuffle, .none, none, [4]⟩] }
    let second : Pipeline :=
      { entries := [⟨.fletcher32, .none, none, []⟩, ⟨.shuffle, .none, none, []⟩] }
    let joint := (first.append second (by decide)).apply checkedShuffles
      { mask := 0x80000002#32, handler := some (.ofFailure fun _ => .skip), options := ⟨true⟩ }
      [1, 3, 2, 4, 7, 3, 10, 4]
    checkedShuffles.IgnoresSizeHint ∧
      Registered checkedShuffles 0x80000002#32 (first.append second (by decide)).entries ∧
      joint.result = .ok 0x8000000a#32 ∧ joint.buffer = [1, 2, 3, 4] := by
  intro first second joint
  have hRegistered :
      Registered checkedShuffles 0x80000002#32 (first.append second (by decide)).entries :=
    registered_of_forall (by decide) _
  have hAppend := apply_append ignoresSizeHint_checkedShuffles first second (by decide)
    0x80000002#32 hRegistered (some fun _ => .skip) ⟨true⟩ [1, 3, 2, 4, 7, 3, 10, 4] 0 3 4
  refine ⟨ignoresSizeHint_checkedShuffles, hRegistered, ?_⟩
  exact (hAppend.1 0x8000000a#32 [1, 2, 3, 4]).mpr
    ⟨0x20000002#32, 2#32, [1, 3, 2, 4], by cbv, by cbv, by cbv, by cbv, by decide⟩

end Pipeline

end ChunkFilters
