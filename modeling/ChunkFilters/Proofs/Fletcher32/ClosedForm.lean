import ChunkFilters.Proofs.Fletcher32.Residue

/-!
# The checksum without wrapping

The running sums are kept in 32 bits, and nothing in their arithmetic checks that they fit. They do,
because they are folded after every block: a block starts with sums of little more than sixteen
bits, and adds no more than 360 words to the first and its running sums to the second (`Bounded`).
For the second sum this is tight. The bound after a whole block is within a third of a percent of
what 32 bits can hold.

The summation is taken apart into `steps`, each of which adds a word or folds both sums.

* `fits_add`, `fits_fold`: one step forms no sum that is too large and keeps the bounds;
* `fits_stepsFrom`: neither does any run of them;
* `represents_absorb`: the residues of the sums are those of the sums without folding;
* `checksum_eq_closedForm`: hence the checksum in terms of the words.
-/

namespace ChunkFilters.Fletcher32

/-! ## Steps of the summation -/

inductive Step where
  | add (word : UInt32)
  | fold

namespace Sums

def take (sums : Sums) : Step → Sums
  | .add word => sums.add word
  | .fold => sums.fold

/-- The sums that a step forms, before they are cut to 32 bits. -/
def formed (sums : Sums) : Step → List Nat
  | .add word => [sums.first.toNat + word.toNat, sums.second.toNat + (sums.first + word).toNat]
  | .fold =>
    [(sums.first &&& 0xffff).toNat + (sums.first >>> 16).toNat,
      (sums.second &&& 0xffff).toNat + (sums.second >>> 16).toNat]

/-- No sum that is formed on the way exceeds 32 bits. -/
def Fits : Sums → List Step → Prop
  | _, [] => True
  | sums, step :: rest => (∀ sum ∈ sums.formed step, sum ≤ 2 ^ 32 - 1) ∧ Fits (sums.take step) rest

theorem fits_append {sums : Sums} {first second : List Step} :
    Fits sums (first ++ second) ↔ Fits sums first ∧ Fits (first.foldl take sums) second := by
  induction first generalizing sums with
  | nil => exact (true_and _).symm.to_iff
  | cons step rest ih => rw [List.cons_append, Fits, Fits, ih, List.foldl_cons, and_assoc]

end Sums

/-- The steps that close a block which has been begun. -/
def closing (pending : Nat) : List Step := if pending = 0 then [] else [.fold]

/-- The steps over a byte string, after `pending` words of a block. A whole block is folded when its
last word has been added, an odd byte after the block before it. -/
def stepsFrom (pending : Nat) : Bytes → List Step
  | high :: low :: rest =>
    .add (word high low) ::
      if pending + 1 = blockLength then .fold :: stepsFrom 0 rest
      else stepsFrom (pending + 1) rest
  | [odd] => closing pending ++ [.add (word odd 0), .fold]
  | [] => closing pending

/-- All steps of a checksum: the sums are folded once more at the end. -/
def steps (bytes : Bytes) : List Step := stepsFrom 0 bytes ++ [.fold]

namespace Sums

theorem pending_add (sums : Sums) (word : UInt32) :
    (sums.add word).pending = sums.pending + 1 := rfl

theorem push_eq (sums : Sums) (word : UInt32) :
    sums.push word =
      if sums.pending + 1 = blockLength then (sums.add word).fold else sums.add word := rfl

theorem flush_eq (sums : Sums) : sums.flush = (closing sums.pending).foldl take sums := by
  unfold flush closing
  split <;> rfl

end Sums

/-- The induction is on the bytes, two at a time. -/
theorem absorb_eq (sums : Sums) (bytes : Bytes) :
    absorb sums bytes = (stepsFrom sums.pending bytes).foldl Sums.take sums := by
  fun_induction absorb sums bytes with
  | case1 sums high low rest ih =>
    rw [ih, stepsFrom, List.foldl_cons, Sums.push_eq]
    by_cases hBlock : sums.pending + 1 = blockLength
    · rw [if_pos hBlock, if_pos hBlock]
      rfl
    · rw [if_neg hBlock, if_neg hBlock]
      rfl
  | case2 sums odd =>
    have hPending : sums.flush.pending = 0 := by
      unfold Sums.flush
      split
      · assumption
      · rfl
    have hPush : sums.flush.push (word odd 0) = sums.flush.add (word odd 0) := by
      rw [Sums.push_eq, hPending, if_neg (by decide)]
    have hFold : (sums.flush.add (word odd 0)).flush = (sums.flush.add (word odd 0)).fold := by
      rw [Sums.flush, Sums.pending_add, if_neg (Nat.succ_ne_zero _)]
    rw [hPush, hFold, stepsFrom, List.foldl_append, ← Sums.flush_eq]
    rfl
  | case3 sums => exact sums.flush_eq

/-- The sums after the last step. -/
def finalSums (bytes : Bytes) : Sums := (steps bytes).foldl Sums.take {}

theorem finalSums_eq_fold (bytes : Bytes) :
    finalSums bytes = ((stepsFrom 0 bytes).foldl Sums.take {}).fold := by
  rw [finalSums, steps, List.foldl_append]
  rfl

theorem checksum_eq (bytes : Bytes) :
    checksum bytes = ((finalSums bytes).second <<< 16) ||| (finalSums bytes).first := by
  have hAbsorb : absorb {} bytes = (stepsFrom 0 bytes).foldl Sums.take {} := absorb_eq {} bytes
  rw [finalSums_eq_fold, ← hAbsorb]
  rfl

/-! ## Bounds -/

namespace Sums

/-- The most that the first sum can be after some words of a block: a folded sum and the words. -/
def firstLimit (pending : Nat) : Nat := 65895 + 65535 * pending

/-- The most that the second sum can be: a folded sum and all first sums of the block. -/
def secondLimit : Nat → Nat
  | 0 => 131070
  | pending + 1 => secondLimit pending + firstLimit (pending + 1)

theorem firstLimit_le {pending : Nat} (h : pending ≤ blockLength) :
    firstLimit pending ≤ 23658495 := by
  rw [blockLength] at h
  rw [firstLimit]
  omega

/-- A whole block leaves little room in 32 bits. -/
theorem secondLimit_le {pending : Nat} (h : pending ≤ blockLength) :
    secondLimit pending ≤ 4282317570 := by
  have hMonotone : Monotone secondLimit := monotone_nat_of_le_succ fun _ => Nat.le_add_right _ _
  have hBlock : secondLimit blockLength = 4282317570 := by decide +kernel
  exact hBlock ▸ hMonotone h

structure Bounded (sums : Sums) : Prop where
  pending_le : sums.pending ≤ blockLength
  first_le : sums.first.toNat ≤ firstLimit sums.pending
  second_le : sums.second.toNat ≤ secondLimit sums.pending

/-- The sums have the residues of the sum of some words and of their running sums. -/
structure Represents (sums : Sums) (total weighted : Nat) : Prop where
  first_eq : residue sums.first.toNat = residue total
  second_eq : residue sums.second.toNat = residue weighted

theorem bounded_start : Bounded {} := ⟨Nat.zero_le _, Nat.zero_le _, Nat.zero_le _⟩

theorem represents_start : Represents {} 0 0 := ⟨rfl, rfl⟩

/-! ## Adding a word -/

section
variable {sums : Sums} (hBounded : sums.Bounded) {word : UInt32} (hWord : word.toNat ≤ 65535)
include hBounded hWord

theorem first_add_le : sums.first.toNat + word.toNat ≤ firstLimit (sums.pending + 1) := by
  have hFirst := hBounded.first_le
  rw [firstLimit] at hFirst ⊢
  omega

theorem second_add_le : sums.second.toNat + (sums.first.toNat + word.toNat) ≤
    secondLimit (sums.pending + 1) :=
  Nat.add_le_add hBounded.second_le (first_add_le hBounded hWord)

variable (hPending : sums.pending < blockLength)
include hPending

theorem toNat_first_add : (sums.add word).first.toNat = sums.first.toNat + word.toNat := by
  have hFirst := first_add_le hBounded hWord
  have hLimit : firstLimit (sums.pending + 1) ≤ 23658495 := firstLimit_le hPending
  rw [add, UInt32.toNat_add]
  exact Nat.mod_eq_of_lt (by omega)

theorem toNat_second_add : (sums.add word).second.toNat =
    sums.second.toNat + (sums.first.toNat + word.toNat) := by
  have hFirst : (sums.first + word).toNat = sums.first.toNat + word.toNat :=
    toNat_first_add hBounded hWord hPending
  have hSecond := second_add_le hBounded hWord
  have hLimit : secondLimit (sums.pending + 1) ≤ 4282317570 := secondLimit_le hPending
  rw [add, UInt32.toNat_add, hFirst]
  exact Nat.mod_eq_of_lt (by omega)

theorem fits_add : ∀ sum ∈ sums.formed (.add word), sum ≤ 2 ^ 32 - 1 := by
  have hFirst := first_add_le hBounded hWord
  have hFirstLimit : firstLimit (sums.pending + 1) ≤ 23658495 := firstLimit_le hPending
  have hSecond := second_add_le hBounded hWord
  have hSecondLimit : secondLimit (sums.pending + 1) ≤ 4282317570 := secondLimit_le hPending
  have hSame : (sums.first + word).toNat = sums.first.toNat + word.toNat :=
    toNat_first_add hBounded hWord hPending
  simp only [formed, List.forall_mem_cons, hSame]
  exact ⟨by omega, by omega, List.forall_mem_nil _⟩

theorem bounded_add : (sums.add word).Bounded where
  pending_le := hPending
  first_le := by
    rw [toNat_first_add hBounded hWord hPending]
    exact first_add_le hBounded hWord
  second_le := by
    rw [toNat_second_add hBounded hWord hPending]
    exact second_add_le hBounded hWord

theorem represents_add {total weighted : Nat} (h : sums.Represents total weighted) :
    (sums.add word).Represents (total + word.toNat) (weighted + (total + word.toNat)) := by
  have hFirst := residue_add_congr h.first_eq (rfl : residue word.toNat = residue word.toNat)
  constructor
  · rw [toNat_first_add hBounded hWord hPending]
    exact hFirst
  · rw [toNat_second_add hBounded hWord hPending]
    exact residue_add_congr h.second_eq hFirst

end

/-! ## Folding -/

theorem toNat_low (sum : UInt32) : (sum &&& 0xffff).toNat = sum.toNat % 65536 := by
  rw [UInt32.toNat_and]
  exact Nat.and_two_pow_sub_one_eq_mod sum.toNat 16

theorem toNat_high (sum : UInt32) : (sum >>> 16).toNat = sum.toNat / 65536 := by
  rw [UInt32.toNat_shiftRight]
  exact Nat.shiftRight_eq_div_pow sum.toNat 16

theorem toNat_foldHalves (sum : UInt32) :
    (foldHalves sum).toNat = sum.toNat % 65536 + sum.toNat / 65536 := by
  have hLt := sum.toNat_lt
  rw [foldHalves, UInt32.toNat_add, toNat_low, toNat_high]
  omega

theorem residue_foldHalves (sum : UInt32) :
    residue (foldHalves sum).toNat = residue sum.toNat := by
  rw [toNat_foldHalves, residue_eq_iff]
  omega

theorem fits_fold (sums : Sums) : ∀ sum ∈ sums.formed .fold, sum ≤ 2 ^ 32 - 1 := by
  have hFirst := sums.first.toNat_lt
  have hSecond := sums.second.toNat_lt
  simp only [formed, List.forall_mem_cons, toNat_low, toNat_high]
  exact ⟨by omega, by omega, List.forall_mem_nil _⟩

theorem bounded_fold {sums : Sums} (h : sums.Bounded) : sums.fold.Bounded where
  pending_le := Nat.zero_le _
  first_le := by
    have hFirst := Nat.le_trans h.first_le (firstLimit_le h.pending_le)
    rw [fold, toNat_foldHalves]
    show _ ≤ 65895
    omega
  second_le := by
    have hSecond := sums.second.toNat_lt
    rw [fold, toNat_foldHalves]
    show _ ≤ 131070
    omega

theorem represents_fold {sums : Sums} {total weighted : Nat} (h : sums.Represents total weighted) :
    sums.fold.Represents total weighted :=
  ⟨(residue_foldHalves sums.first).trans h.first_eq,
    (residue_foldHalves sums.second).trans h.second_eq⟩

/-- Sums that have been folded already take sixteen bits when they are folded again. -/
theorem fold_le {sums : Sums} (h : sums.Bounded) (hPending : sums.pending = 0) :
    sums.fold.first.toNat ≤ 65535 ∧ sums.fold.second.toNat ≤ 65535 := by
  have hFirst : sums.first.toNat ≤ firstLimit 0 := hPending ▸ h.first_le
  have hSecond : sums.second.toNat ≤ secondLimit 0 := hPending ▸ h.second_le
  rw [firstLimit] at hFirst
  rw [secondLimit] at hSecond
  rw [fold, toNat_foldHalves, toNat_foldHalves]
  omega

/-! ## Runs -/

/-- What steps make of the sums: none that is formed on the way is too large, and at the end they
have been folded and represent given numbers. -/
structure Closes (sums : Sums) (steps : List Step) (total weighted : Nat) : Prop where
  fits : sums.Fits steps
  bounded : (steps.foldl take sums).Bounded
  pending_eq : (steps.foldl take sums).pending = 0
  represents : (steps.foldl take sums).Represents total weighted

theorem Closes.cons {sums : Sums} {step : Step} {rest : List Step} {total weighted : Nat}
    (hFits : ∀ sum ∈ sums.formed step, sum ≤ 2 ^ 32 - 1)
    (h : (sums.take step).Closes rest total weighted) :
    sums.Closes (step :: rest) total weighted :=
  ⟨⟨hFits, h.fits⟩, h.bounded, h.pending_eq, h.represents⟩

theorem Closes.append {sums : Sums} {first second : List Step} {total weighted : Nat}
    (hFirst : sums.Fits first) (h : (first.foldl take sums).Closes second total weighted) :
    sums.Closes (first ++ second) total weighted := by
  have hFold : (first ++ second).foldl take sums = second.foldl take (first.foldl take sums) :=
    List.foldl_append
  exact ⟨fits_append.mpr ⟨hFirst, h.fits⟩, hFold ▸ h.bounded, hFold ▸ h.pending_eq,
    hFold ▸ h.represents⟩

section
variable {sums : Sums} {total weighted : Nat} (hBounded : sums.Bounded)
  (hRepresents : sums.Represents total weighted)
include hBounded hRepresents

theorem closes_fold : sums.Closes [.fold] total weighted :=
  .cons sums.fits_fold
    ⟨trivial, bounded_fold hBounded, rfl, represents_fold hRepresents⟩

theorem closes_closing : sums.Closes (closing sums.pending) total weighted := by
  unfold closing
  split
  · next hPending => exact ⟨trivial, hBounded, hPending, hRepresents⟩
  · exact closes_fold hBounded hRepresents

end

/-- The induction is on the bytes, two at a time; the bounds carry it over the end of a block. -/
theorem closes_stepsFrom {sums : Sums} {total weighted : Nat} (hBounded : sums.Bounded)
    (hPending : sums.pending < blockLength) (hRepresents : sums.Represents total weighted)
    (bytes : Bytes) :
    sums.Closes (stepsFrom sums.pending bytes) (total + (words bytes).sum)
      (weighted + runningSum total (words bytes)) := by
  induction bytes using words.induct generalizing sums total weighted with
  | case1 high low rest ih =>
    have hWord := toNat_word_le high low
    have hAdded := bounded_add hBounded hWord hPending
    have hSums := represents_add hBounded hWord hPending hRepresents
    rw [toNat_word] at hSums
    rw [stepsFrom, words, List.sum_cons, runningSum, ← Nat.add_assoc, ← Nat.add_assoc weighted]
    apply Closes.cons (fits_add hBounded hWord hPending)
    by_cases hBlock : sums.pending + 1 = blockLength
    · have hStart : 0 < blockLength := by decide
      rw [if_pos hBlock]
      exact .cons (fits_fold _) (ih (bounded_fold hAdded) hStart (represents_fold hSums))
    · rw [if_neg hBlock]
      exact ih hAdded (Nat.lt_of_le_of_ne hPending hBlock) hSums
  | case2 odd =>
    have hClosed := closes_closing hBounded hRepresents
    have hStart : ((closing sums.pending).foldl take sums).pending < blockLength := by
      rw [hClosed.pending_eq]
      decide
    have hWord := toNat_word_le odd 0
    have hAdded := bounded_add hClosed.bounded hWord hStart
    have hSums := represents_add hClosed.bounded hWord hStart hClosed.represents
    have hOdd : (word odd 0).toNat = 256 * odd.toNat := toNat_word odd 0
    rw [hOdd] at hSums
    exact .append hClosed.fits
      (.cons (fits_add hClosed.bounded hWord hStart) (closes_fold hAdded hSums))
  | case3 => exact closes_closing hBounded hRepresents

end Sums

/-! ## Main statements -/

theorem closes_stepsFrom_start (bytes : Bytes) :
    Sums.Closes {} (stepsFrom 0 bytes) (words bytes).sum (runningSum 0 (words bytes)) := by
  have hClosed := Sums.closes_stepsFrom Sums.bounded_start (by decide) Sums.represents_start bytes
  rwa [Nat.zero_add, Nat.zero_add] at hClosed

/-- The final sums take sixteen bits each and are the residues. -/
theorem toNat_finalSums (bytes : Bytes) :
    (finalSums bytes).first.toNat = residue (words bytes).sum ∧
      (finalSums bytes).second.toNat = residue (runningSum 0 (words bytes)) := by
  have hClosed := closes_stepsFrom_start bytes
  obtain ⟨hFirst, hSecond⟩ := Sums.fold_le hClosed.bounded hClosed.pending_eq
  have hSums := Sums.represents_fold hClosed.represents
  rw [finalSums_eq_fold]
  exact ⟨(residue_of_le hFirst).symm.trans hSums.first_eq,
    (residue_of_le hSecond).symm.trans hSums.second_eq⟩

theorem checksum_eq_closedForm (bytes : Bytes) : (checksum bytes).toNat = closedForm bytes := by
  obtain ⟨hFirst, hSecond⟩ := toNat_finalSums bytes
  have hLow := residue_le (words bytes).sum
  have hHigh := residue_le (runningSum 0 (words bytes))
  have hFits : residue (runningSum 0 (words bytes)) <<< 16 < 2 ^ 32 := by
    rw [Nat.shiftLeft_eq]
    omega
  have hUpper : ((finalSums bytes).second <<< 16).toNat =
      residue (runningSum 0 (words bytes)) <<< 16 := by
    rw [UInt32.toNat_shiftLeft, hSecond]
    exact Nat.mod_eq_of_lt hFits
  rw [checksum_eq, UInt32.toNat_or, hUpper, hFirst, shiftLeft_or (by omega)]
  rfl

/-- No addition wraps, whatever the bytes: neither within a block, nor for an odd byte, nor when the
sums are folded. At the end both sums take sixteen bits, and the checksum is made of the residues of
two sums over the words, in the second of which a word counts once for itself and once for each word
after it. -/
theorem checksum_without_wrapping (bytes : Bytes) :
    Sums.Fits {} (steps bytes) ∧
      (finalSums bytes).first.toNat ≤ 65535 ∧ (finalSums bytes).second.toNat ≤ 65535 ∧
      checksum bytes = ((finalSums bytes).second <<< 16) ||| (finalSums bytes).first ∧
      (checksum bytes).toNat =
        residue ((words bytes).mapIdx fun i word => ((words bytes).length - i) * word).sum * 65536 +
          residue (words bytes).sum := by
  have hClosed := closes_stepsFrom_start bytes
  obtain ⟨hFirst, hSecond⟩ := toNat_finalSums bytes
  refine ⟨?_, ?_, ?_, checksum_eq bytes, ?_⟩
  · exact Sums.fits_append.mpr ⟨hClosed.fits, Sums.fits_fold _, trivial⟩
  · exact hFirst ▸ residue_le _
  · exact hSecond ▸ residue_le _
  · rw [checksum_eq_closedForm, closedForm, runningSum_eq, Nat.zero_mul, Nat.zero_add]
    rfl

end ChunkFilters.Fletcher32
