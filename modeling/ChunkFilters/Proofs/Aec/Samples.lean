import ChunkFilters.Aec
import ChunkFilters.Proofs.Element

/-!
# As many samples as are wanted

Every way of coding a block adds samples one at a time and stops adding them when there are as many
as are wanted (`Samples.Within`). Blocks are read until there are that many, so a decoder that comes
to its end has exactly so many samples, and writes each of them to the same number of bytes.

* `within_readBlock`: no block goes beyond the wanted samples;
* `length_decode`: the length of what has been decoded.
-/

namespace ChunkFilters.Aec

namespace Samples

/-- There are no more samples than are wanted. -/
def Within (wanted : Nat) (samples : Samples) : Prop := samples.values.size ≤ wanted

theorem isComplete_iff {samples : Samples} {wanted : Nat} :
    samples.isComplete wanted = true ↔ wanted ≤ samples.values.size := by
  rw [isComplete, decide_eq_true_eq]

section
variable {wanted : Nat} {samples : Samples}

theorem within_putReference (h : ¬ samples.isComplete wanted = true) (value : Nat) :
    (samples.putReference value).Within wanted := by
  rw [isComplete_iff] at h
  rw [Within, putReference, Array.size_push]
  omega

theorem within_put (parameters : Parameters) (coded : Nat) (h : samples.Within wanted) :
    (samples.put parameters wanted coded).Within wanted := by
  unfold put
  split
  · exact h
  · next hMissing => exact within_putReference hMissing _

theorem within_putAll (parameters : Parameters) (coded : List Nat) (h : samples.Within wanted) :
    (samples.putAll parameters wanted coded).Within wanted := by
  induction coded generalizing samples with
  | nil => exact h
  | cons first rest ih => exact ih (within_put parameters first h)

theorem within_putZeros (parameters : Parameters) (count : Nat) (h : samples.Within wanted) :
    (samples.putZeros parameters wanted count).Within wanted := by
  induction count generalizing samples with
  | zero => exact h
  | succ count ih => exact ih (within_put parameters 0 h)

end

end Samples

/-! ## Blocks -/

section
variable {task : Task}

theorem within_readPairs {skipFirst : Bool} {count : Nat} {cursor next : BitCursor}
    {samples after : Samples} (hSamples : samples.Within task.wanted)
    (h : readPairs task skipFirst count cursor samples = .ok (next, after)) :
    after.Within task.wanted := by
  fun_induction readPairs task skipFirst count cursor samples with
  | case1 | case2 =>
    obtain ⟨-, rfl⟩ := Prod.mk.inj (Except.ok.inj h)
    exact hSamples
  | case3 | case4 => cases h
  | case5 _ _ _ _ _ _ _ _ _ _ _ ih => exact ih (Samples.within_put _ _ hSamples) h
  | case6 =>
    obtain ⟨-, rfl⟩ := Prod.mk.inj (Except.ok.inj h)
    exact Samples.within_put _ _ hSamples
  | case7 _ _ _ _ _ _ _ _ _ _ _ _ _ _ ih =>
    exact ih (Samples.within_put _ _ (Samples.within_put _ _ hSamples)) h

theorem within_readRaw {count : Nat} {cursor next : BitCursor} {samples after : Samples}
    (hSamples : samples.Within task.wanted)
    (h : readRaw task count cursor samples = .ok (next, after)) : after.Within task.wanted := by
  fun_induction readRaw task count cursor samples with
  | case1 | case2 =>
    obtain ⟨-, rfl⟩ := Prod.mk.inj (Except.ok.inj h)
    exact hSamples
  | case3 => cases h
  | case4 _ _ _ _ _ _ _ ih => exact ih (Samples.within_put _ _ hSamples) h

theorem within_readCoded {kind : BlockKind} {hasReference : Bool} {state after : State}
    (hState : state.samples.Within task.wanted)
    (h : readCoded task kind hasReference state = .ok after) :
    after.samples.Within task.wanted := by
  cases kind with
  | zeroRun =>
    simp only [readCoded, readZeroRun] at h
    split at h
    · cases h
    · obtain rfl := Except.ok.inj h
      exact Samples.within_putZeros _ _ hState
  | secondExtension =>
    simp only [readCoded] at h
    split at h
    · cases h
    · next hPairs =>
      obtain rfl := Except.ok.inj h
      exact within_readPairs hState hPairs
  | raw =>
    simp only [readCoded] at h
    split at h
    · cases h
    · next hRaw =>
      obtain rfl := Except.ok.inj h
      exact within_readRaw hState hRaw
  | split low =>
    simp only [readCoded] at h
    split at h
    · cases h
    · obtain rfl := Except.ok.inj h
      exact Samples.within_putAll _ _ hState

/-- A block that is begun with samples missing does not go beyond those that are wanted. -/
theorem within_readBlock {state after : State}
    (hMissing : ¬ state.samples.isComplete task.wanted = true)
    (h : readBlock task state = .ok after) : after.samples.Within task.wanted := by
  obtain ⟨cursor, samples, block⟩ := state
  have hSamples : samples.Within task.wanted := by
    rw [Samples.isComplete_iff] at hMissing
    exact Nat.le_of_not_le hMissing
  simp only [readBlock] at h
  split at h
  · cases h
  · split at h
    · cases h
    · exact within_readCoded hSamples h
    · have hReference := Samples.within_putReference hMissing
      split at h
      · obtain rfl := Except.ok.inj h
        exact hReference _
      · exact within_readCoded (hReference _) h

/-- Blocks are read up to the last wanted sample and no further. -/
theorem size_readBlocks {state : State} {samples : Samples}
    (hState : state.samples.Within task.wanted) (h : readBlocks task state = .ok samples) :
    samples.values.size = task.wanted := by
  fun_induction readBlocks task state with
  | case1 state hComplete =>
    obtain rfl := Except.ok.inj h
    exact Nat.le_antisymm hState (Samples.isComplete_iff.mp hComplete)
  | case2 => cases h
  | case3 state hMissing next hBlock _ ih => exact ih (within_readBlock hMissing hBlock) h

end

/-! ## Bytes -/

theorem length_sampleBytes (parameters : Parameters) (sample : Nat) :
    (sampleBytes parameters sample).length = parameters.sampleSize := by
  unfold sampleBytes
  split
  · rw [List.length_reverse, Bytes.length_toLittleEndian]
  · exact Bytes.length_toLittleEndian _ _

/-- What has been decoded are as many samples as were wanted, of the same size each. -/
theorem length_decode {parameters : Parameters} {wanted : Nat} {input bytes : Bytes}
    (h : decode parameters wanted input = .ok bytes) :
    bytes.length = wanted * parameters.sampleSize := by
  unfold decode at h
  split at h
  · split at h
    · cases h
    · next samples hBlocks =>
      obtain rfl := Except.ok.inj h
      have hNone : Samples.Within wanted {} := Nat.zero_le wanted
      have hSize : samples.values.size = wanted := size_readBlocks hNone hBlocks
      rw [List.flatMap_def, Bytes.length_flatten, List.length_map, Array.length_toList, hSize]
      intro written hWritten
      obtain ⟨sample, -, rfl⟩ := List.mem_map.mp hWritten
      exact length_sampleBytes parameters _
  · cases h

end ChunkFilters.Aec
