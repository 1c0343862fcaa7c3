import ChunkFilters.Fletcher32
import Mathlib.Tactic.Ring

/-!
# Sums modulo 65535

Folding the halves of a sum keeps two things: the sum modulo 65535, and whether it is zero. A
`residue` is just these two (`residue_eq_iff`), so it does not matter for the residue of a sum
whether its parts have been folded before (`residue_add_congr`).

The sum of the running sums counts each word as often as there are words from it on
(`runningSum_eq`).
-/

namespace ChunkFilters.Fletcher32

/-! ## Residues -/

theorem residue_eq_iff {first second : Nat} :
    residue first = residue second ↔
      (first = 0 ↔ second = 0) ∧ first % 65535 = second % 65535 := by
  unfold residue
  split <;> split <;> omega

theorem residue_add_congr {first second third fourth : Nat}
    (hFirst : residue first = residue second) (hThird : residue third = residue fourth) :
    residue (first + third) = residue (second + fourth) := by
  rw [residue_eq_iff] at hFirst hThird ⊢
  omega

/-- A sum of sixteen bits is its own residue. -/
theorem residue_of_le {sum : Nat} (h : sum ≤ 65535) : residue sum = sum := by
  unfold residue
  split <;> omega

/-! ## Words as numbers -/

/-- A number whose lowest `count` bits are clear, with a number of `count` bits put there. -/
theorem shiftLeft_or {count lower : Nat} (h : lower < 2 ^ count) (upper : Nat) :
    upper <<< count ||| lower = upper * 2 ^ count + lower := by
  rw [← Nat.shiftLeft_add_eq_or_of_lt h, Nat.shiftLeft_eq]

theorem toNat_word (high low : UInt8) :
    (word high low).toNat = 256 * high.toNat + low.toNat := by
  have hHigh : high.toNat < 2 ^ 8 := high.toNat_lt
  have hLow : low.toNat < 2 ^ 8 := low.toNat_lt
  have hFits : high.toNat <<< 8 < 2 ^ 32 := by
    rw [Nat.shiftLeft_eq]
    omega
  have hUpper : (high.toUInt32 <<< 8).toNat = high.toNat <<< 8 := by
    rw [UInt32.toNat_shiftLeft, UInt8.toNat_toUInt32]
    exact Nat.mod_eq_of_lt hFits
  rw [word, UInt32.toNat_or, hUpper, UInt8.toNat_toUInt32, shiftLeft_or hLow, Nat.mul_comm]
  rfl

theorem toNat_word_le (high low : UInt8) : (word high low).toNat ≤ 65535 := by
  have hHigh := high.toNat_lt
  have hLow := low.toNat_lt
  rw [toNat_word]
  omega

/-! ## Sums of words -/

theorem mapIdx_length_sub_cons (word : Nat) (rest : List Nat) :
    ((word :: rest).mapIdx fun i word => (rest.length + 1 - i) * word) =
      (rest.length + 1) * word :: rest.mapIdx fun i word => (rest.length - i) * word := by
  rw [List.mapIdx_cons]
  simp only [Nat.sub_zero, Nat.add_sub_add_right]

/-- The first word counts once for each word, the last one once. -/
theorem runningSum_eq (sum : Nat) (words : List Nat) :
    runningSum sum words =
      sum * words.length + (words.mapIdx fun i word => (words.length - i) * word).sum := by
  induction words generalizing sum with
  | nil => rfl
  | cons word rest ih =>
    rw [runningSum, ih, List.length_cons, mapIdx_length_sub_cons, List.sum_cons]
    ring

end ChunkFilters.Fletcher32
