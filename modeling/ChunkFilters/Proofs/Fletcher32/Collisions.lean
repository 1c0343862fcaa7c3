import ChunkFilters.Proofs.Fletcher32.ClosedForm
import Mathlib.Data.Nat.ModEq

/-!
# Collisions under local damage

Two byte strings have the same checksum exactly if both of their sums have the same residue
(`checksum_eq_iff`): they agree modulo 65535, and are zero together. A change in one place shows in
both sums, as the difference of two words in the first, and as a multiple of it in the second
(`runningSum_append_cons`). Two words agree modulo 65535 only if they are equal or are `0x0000` and
`0xffff`, and those two differ by whether they are zero, which any other word makes irrelevant.

* `checksum_eq_iff_of_one_word`: which changes of one word the checksum does not show;
* `exists_words_set`: the change of one byte is a change of one word, by less than `0xffff`;
* `checksum_eq_iff_of_exchange`: which exchanges of neighbours it does not show.
-/

namespace ChunkFilters.Fletcher32

/-! ## Words -/

theorem words_le {bytes : Bytes} {word : Nat} (h : word ∈ words bytes) : word ≤ 65535 := by
  induction bytes using words.induct with
  | case1 high low rest ih =>
    have hHigh := high.toNat_lt
    have hLow := low.toNat_lt
    rw [words, List.mem_cons] at h
    rcases h with rfl | hRest
    · omega
    · exact ih hRest
  | case2 odd =>
    have hOdd := odd.toNat_lt
    rw [words, List.mem_singleton] at h
    omega
  | case3 => cases h

theorem words_append {front : Bytes} (hEven : front.length % 2 = 0) (back : Bytes) :
    words (front ++ back) = words front ++ words back := by
  induction front using words.induct with
  | case1 high low rest ih =>
    rw [List.length_cons, List.length_cons] at hEven
    simp only [List.cons_append, words, ih (by omega)]
  | case2 odd => cases hEven
  | case3 => rfl

/-- What a byte of a word counts for, by its position. -/
def place (position : Nat) : Nat := if position % 2 = 0 then 256 else 1

theorem place_add_two (position : Nat) : place (position + 2) = place position := by
  rw [place, place, Nat.add_mod_right]

/-- A byte belongs to one word. -/
theorem exists_words_set {bytes : Bytes} {position : Nat} {old : UInt8}
    (hOld : bytes[position]? = some old) (new : UInt8) :
    ∃ front back one other,
      words bytes = front ++ one :: back ∧ words (bytes.set position new) = front ++ other :: back ∧
      front.length = position / 2 ∧
      one + place position * new.toNat = other + place position * old.toNat := by
  induction bytes using words.induct generalizing position with
  | case1 high low rest ih =>
    cases position with
    | zero =>
      obtain rfl : high = old := by simpa using hOld
      refine ⟨[], words rest, _, _, rfl, rfl, rfl, ?_⟩
      simp only [place, Nat.zero_mod, if_true]
      omega
    | succ position =>
      cases position with
      | zero =>
        obtain rfl : low = old := by simpa using hOld
        refine ⟨[], words rest, _, _, rfl, rfl, rfl, ?_⟩
        simp only [place, Nat.zero_add, Nat.reduceMod, Nat.one_ne_zero, if_false]
        omega
      | succ position =>
        obtain ⟨front, back, one, other, hWords, hSet, hLength, hSame⟩ :=
          ih (show rest[position]? = some old by simpa using hOld)
        refine ⟨(256 * high.toNat + low.toNat) :: front, back, one, other, ?_, ?_, ?_, ?_⟩
        · rw [words, hWords, List.cons_append]
        · rw [List.set_cons_succ, List.set_cons_succ, words, hSet, List.cons_append]
        · rw [List.length_cons, hLength]
          omega
        · rwa [place_add_two]
  | case2 odd =>
    cases position with
    | zero =>
      obtain rfl : odd = old := by simpa using hOld
      refine ⟨[], [], _, _, rfl, rfl, rfl, ?_⟩
      simp only [place, Nat.zero_mod, if_true]
      omega
    | succ position => cases hOld
  | case3 => cases hOld

/-! ## Sums -/

theorem runningSum_add (sum more : Nat) (words : List Nat) :
    runningSum (sum + more) words = runningSum sum words + words.length * more := by
  rw [runningSum_eq, runningSum_eq]
  ring

/-- A word counts once for itself and once for each word after it. -/
theorem runningSum_append_cons (sum : Nat) (front : List Nat) (word : Nat) (back : List Nat) :
    runningSum sum (front ++ word :: back) =
      runningSum sum (front ++ 0 :: back) + (back.length + 1) * word := by
  induction front generalizing sum with
  | nil =>
    simp only [List.nil_append, runningSum, Nat.add_zero, runningSum_add sum word]
    ring
  | cons first rest ih =>
    simp only [List.cons_append, runningSum, ih]
    ring

theorem runningSum_append_cons_cons (front : List Nat) (one other : Nat) (back : List Nat) :
    runningSum 0 (front ++ one :: other :: back) =
      runningSum 0 (front ++ 0 :: 0 :: back) + (back.length + 1) * (one + other) + one := by
  have hSecond := runningSum_append_cons 0 (front ++ [0]) other back
  simp only [List.append_assoc, List.singleton_append] at hSecond
  rw [runningSum_append_cons, hSecond, List.length_cons]
  ring

theorem runningSum_eq_zero_iff (words : List Nat) : runningSum 0 words = 0 ↔ words.sum = 0 := by
  induction words with
  | nil => exact Iff.rfl
  | cons word rest ih =>
    rw [runningSum, List.sum_cons, Nat.zero_add]
    rcases Nat.eq_zero_or_pos word with rfl | hPos
    · rw [Nat.zero_add, Nat.zero_add, ih]
    · omega

theorem exists_ne_zero_iff (words : List Nat) : (∃ word ∈ words, word ≠ 0) ↔ words.sum ≠ 0 := by
  rw [Ne, List.sum_eq_zero_iff_forall_eq_nat]
  simp only [not_forall, exists_prop, Ne]

/-! ## Equal checksums -/

theorem toNat_checksum (bytes : Bytes) :
    (checksum bytes).toNat =
      residue (runningSum 0 (words bytes)) * 65536 + residue (words bytes).sum :=
  checksum_eq_closedForm bytes

theorem checksum_eq_iff {first second : Bytes} :
    checksum first = checksum second ↔
      residue (words first).sum = residue (words second).sum ∧
        residue (runningSum 0 (words first)) = residue (runningSum 0 (words second)) := by
  have hFirst := residue_le (words first).sum
  have hSecond := residue_le (words second).sum
  rw [← UInt32.toNat_inj, toNat_checksum, toNat_checksum]
  omega

/-- A change of one word is not shown exactly if it exchanges the two words that are zero modulo
65535, and the sums are not zero with either. -/
theorem checksum_eq_iff_of_one_word {first second : Bytes} {front back : List Nat} {one other : Nat}
    (hFirst : words first = front ++ one :: back) (hSecond : words second = front ++ other :: back)
    (hNe : one ≠ other) :
    checksum first = checksum second ↔
      (one = 0 ∧ other = 0xffff ∨ one = 0xffff ∧ other = 0) ∧ ∃ word ∈ front ++ back, word ≠ 0 := by
  have hOne : one ≤ 65535 := words_le (show one ∈ words first by simp [hFirst])
  have hOther : other ≤ 65535 := words_le (show other ∈ words second by simp [hSecond])
  have hFirstSum : (words first).sum = (front ++ back).sum + one := by
    simp only [hFirst, List.sum_append, List.sum_cons]
    omega
  have hSecondSum : (words second).sum = (front ++ back).sum + other := by
    simp only [hSecond, List.sum_append, List.sum_cons]
    omega
  have hFirstRunning : runningSum 0 (words first) =
      runningSum 0 (front ++ 0 :: back) + (back.length + 1) * one := by
    rw [hFirst, runningSum_append_cons]
  have hSecondRunning : runningSum 0 (words second) =
      runningSum 0 (front ++ 0 :: back) + (back.length + 1) * other := by
    rw [hSecond, runningSum_append_cons]
  have hFirstZero := runningSum_eq_zero_iff (words first)
  have hSecondZero := runningSum_eq_zero_iff (words second)
  rw [checksum_eq_iff, residue_eq_iff, residue_eq_iff, exists_ne_zero_iff]
  constructor
  · -- The first sums already tell.
    rintro ⟨⟨hZero, hSum⟩, _⟩
    omega
  · rintro ⟨hWords, hRest⟩
    have hSame : one % 65535 = other % 65535 := by omega
    have hWeighted : (back.length + 1) * one % 65535 = (back.length + 1) * other % 65535 :=
      Nat.ModEq.mul_left (back.length + 1) hSame
    omega

/-- An exchange of two words is not shown exactly if they are those that are zero modulo 65535. -/
theorem checksum_eq_iff_of_exchange {first second : Bytes} {front back : List Nat} {one other : Nat}
    (hFirst : words first = front ++ one :: other :: back)
    (hSecond : words second = front ++ other :: one :: back) (hNe : one ≠ other) :
    checksum first = checksum second ↔ one = 0 ∧ other = 0xffff ∨ one = 0xffff ∧ other = 0 := by
  have hOne : one ≤ 65535 := words_le (show one ∈ words first by simp [hFirst])
  have hOther : other ≤ 65535 := words_le (show other ∈ words first by simp [hFirst])
  have hSums : (words first).sum = (words second).sum := by
    simp only [hFirst, hSecond, List.sum_append, List.sum_cons]
    omega
  have hPositive : (words first).sum ≠ 0 := by
    simp only [hFirst, List.sum_append, List.sum_cons]
    omega
  have hFirstRunning := runningSum_append_cons_cons front one other back
  have hSecondRunning := runningSum_append_cons_cons front other one back
  have hFirstZero := runningSum_eq_zero_iff (words first)
  have hSecondZero := runningSum_eq_zero_iff (words second)
  rw [← hFirst] at hFirstRunning
  rw [← hSecond, Nat.add_comm other one] at hSecondRunning
  -- The second sums differ by the difference of the words.
  rw [checksum_eq_iff, residue_eq_iff, residue_eq_iff, hSums]
  omega

/-- A byte is not enough to turn one of these two words into the other. -/
theorem word_change {position one other : Nat} {old new : UInt8} (hNew : new ≠ old)
    (hSame : one + place position * new.toNat = other + place position * old.toNat) :
    one ≠ other ∧ one < other + 0xffff ∧ other < one + 0xffff := by
  have hOldLt := old.toNat_lt
  have hNewLt := new.toNat_lt
  have hBytes : new.toNat ≠ old.toNat := fun h => hNew (UInt8.toNat_inj.mp h)
  unfold place at hSame
  split at hSame
  · omega
  · omega

theorem checksum_set_ne {bytes : Bytes} {position : Nat} {old new : UInt8}
    (hOld : bytes[position]? = some old) (hNew : new ≠ old) :
    checksum (bytes.set position new) ≠ checksum bytes := by
  obtain ⟨front, back, one, other, hWords, hSet, _, hSame⟩ := exists_words_set hOld new
  obtain ⟨hNe, hOne, hOther⟩ := word_change hNew hSame
  intro hEq
  obtain ⟨hZero, _⟩ := (checksum_eq_iff_of_one_word hSet hWords hNe.symm).mp hEq
  omega

/-! ## Main statement -/

/-- What the checksum does not show of small damage. A change of one word is hidden exactly if it
turns `0x0000` into `0xffff` or back, and another word is not zero; so the change of one byte never
is. The exchange of two whole words that stand side by side and differ is hidden exactly if they are
these two. -/
theorem checksum_collisions :
    (∀ (first second : Bytes) (front back : List Nat) (one other : Nat),
      words first = front ++ one :: back → words second = front ++ other :: back → one ≠ other →
        (checksum first = checksum second ↔
          (one = 0x0000 ∧ other = 0xffff ∨ one = 0xffff ∧ other = 0x0000) ∧
            ∃ word ∈ front ++ back, word ≠ 0)) ∧
      (∀ (bytes : Bytes) (position : Nat) (old new : UInt8),
        bytes[position]? = some old → new ≠ old →
          checksum (bytes.set position new) ≠ checksum bytes) ∧
      ∀ (front back : Bytes) (high low nextHigh nextLow : UInt8), front.length % 2 = 0 →
        256 * high.toNat + low.toNat ≠ 256 * nextHigh.toNat + nextLow.toNat →
          (checksum (front ++ high :: low :: nextHigh :: nextLow :: back) =
              checksum (front ++ nextHigh :: nextLow :: high :: low :: back) ↔
            256 * high.toNat + low.toNat = 0x0000 ∧
                256 * nextHigh.toNat + nextLow.toNat = 0xffff ∨
              256 * high.toNat + low.toNat = 0xffff ∧
                256 * nextHigh.toNat + nextLow.toNat = 0x0000) := by
  refine ⟨?_, ?_, ?_⟩
  · intro first second front back one other hFirst hSecond hNe
    exact checksum_eq_iff_of_one_word hFirst hSecond hNe
  · intro bytes position old new hOld hNew
    exact checksum_set_ne hOld hNew
  · intro front back high low nextHigh nextLow hEven hNe
    exact checksum_eq_iff_of_exchange (words_append hEven _) (words_append hEven _) hNe

/-- `0x0000` and `0xffff` before another word and alone, one byte of them, and both side by side. -/
theorem checksum_collisions_zero_words :
    words [0, 0, 1, 2] = [] ++ 0x0000 :: [0x0102] ∧
      words [0xff, 0xff, 1, 2] = [] ++ 0xffff :: [0x0102] ∧
      checksum [0, 0, 1, 2] = checksum [0xff, 0xff, 1, 2] ∧
      checksum [0, 0] ≠ checksum [0xff, 0xff] ∧
      checksum [0, 0xff, 1, 2] ≠ checksum [0, 0, 1, 2] ∧
      checksum [1, 2, 0, 0, 0xff, 0xff, 3] = checksum [1, 2, 0xff, 0xff, 0, 0, 3] := by
  obtain ⟨hWord, hByte, hExchange⟩ := checksum_collisions
  have hZero : words [0, 0, 1, 2] = [] ++ 0x0000 :: [0x0102] := by decide
  have hFull : words [0xff, 0xff, 1, 2] = [] ++ 0xffff :: [0x0102] := by decide
  have hHidden := (hWord _ _ _ _ _ _ hZero hFull (by decide)).mpr (by decide)
  have hShown := mt (hWord [0, 0] [0xff, 0xff] [] [] 0x0000 0xffff (by decide) (by decide)
    (by decide)).mp (by decide)
  exact ⟨hZero, hFull, hHidden, hShown, hByte [0, 0, 1, 2] 1 0 0xff (by decide) (by decide),
    (hExchange [1, 2] [3] 0 0 0xff 0xff (by decide) (by decide)).mpr (by decide)⟩

end ChunkFilters.Fletcher32
