import ChunkFilters.Proofs.Fletcher32.Collisions
import ChunkFilters.Proofs.Fletcher32.Frame
import Mathlib.RingTheory.Int.Basic
import Mathlib.Tactic.NormNum.Prime

/-!
# Frames with an altered byte

A frame is a chunk with its checksum behind it. In the byte order in which it is written the
checksum shows every altered byte of the chunk (`checksum_set_ne`), and of itself. But a stored
checksum is accepted in the other byte order too, and there the filter can be deceived: the altered
chunk may have just the checksum of the chunk with its bytes in reverse.

Reversing the four bytes exchanges the two sums and multiplies both by 256, modulo 65535
(`bigEndian_checksum`). An altered byte adds some `change` to the first sum and a multiple of it to
the second, as many times as there are words from the altered one on. So the altered sums can be the
exchanged ones only if 65535 divides `change`, taken 256 times more often than that (`Escapes`). A
byte is less than 257, so the altered word is the last one, or a multiple of 257 words before it.

* `checksum_set_eq_reversed_iff`: which alterations of the chunk are hidden in this way;
* `matchesStored_set_trailer`: alterations of the checksum never are.
-/

namespace ChunkFilters.Fletcher32

/-! ## The other byte order -/

/-- The halves of sixteen bits change places. -/
theorem residue_mul_256 (sum : Nat) :
    residue (256 * sum) = 256 * (residue sum % 256) + residue sum / 256 := by
  have hLe := residue_le sum
  obtain ⟨hZero, hSame⟩ := residue_eq_iff.mp (residue_of_le hLe)
  have hSwapped : 256 * (residue sum % 256) + residue sum / 256 ≤ 65535 := by omega
  rw [← residue_of_le hSwapped, residue_eq_iff]
  omega

/-- Four bytes in the other order: both halves are exchanged, and the bytes of each. -/
theorem bigEndian_toLittleEndian {upper lower : Nat} (hUpper : upper ≤ 65535)
    (hLower : lower ≤ 65535) :
    Bytes.bigEndian (Bytes.toLittleEndian trailerSize (upper * 65536 + lower)) =
      (256 * (lower % 256) + lower / 256) * 65536 + (256 * (upper % 256) + upper / 256) := by
  obtain ⟨bytes, hBytes⟩ : ∃ bytes : Bytes, [UInt8.ofNat (lower % 256), UInt8.ofNat (lower / 256),
    UInt8.ofNat (upper % 256), UInt8.ofNat (upper / 256)] = bytes := ⟨_, rfl⟩
  have hValue : Bytes.littleEndian bytes = upper * 65536 + lower := by
    simp only [← hBytes, Bytes.littleEndian, UInt8.toNat_ofNat', Nat.reducePow]
    omega
  have hLength : bytes.length = trailerSize := by
    rw [← hBytes]
    rfl
  rw [← hValue, ← hLength, Bytes.toLittleEndian_littleEndian, ← hBytes]
  simp only [Bytes.bigEndian, List.foldl_cons, List.foldl_nil, UInt8.toNat_ofNat', Nat.reducePow]
  omega

/-- The checksum as it is written, read in the other order. -/
theorem bigEndian_checksum (bytes : Bytes) :
    Bytes.bigEndian (Bytes.toLittleEndian trailerSize (checksum bytes).toNat) =
      residue (256 * (words bytes).sum) * 65536 +
        residue (256 * runningSum 0 (words bytes)) := by
  rw [toNat_checksum, bigEndian_toLittleEndian (residue_le _) (residue_le _), residue_mul_256,
    residue_mul_256]

theorem checksum_eq_reversed_iff (altered bytes : Bytes) :
    (checksum altered).toNat =
        Bytes.bigEndian (Bytes.toLittleEndian trailerSize (checksum bytes).toNat) ↔
      residue (words altered).sum = residue (256 * runningSum 0 (words bytes)) ∧
        residue (runningSum 0 (words altered)) = residue (256 * (words bytes).sum) := by
  have hFirst := residue_le (words altered).sum
  have hSecond := residue_le (256 * runningSum 0 (words bytes))
  rw [toNat_checksum, bigEndian_checksum]
  omega

/-! ## Altered chunks -/

/-- The number of words from the one that holds a byte to the last. -/
def wordsFrom (bytes : Bytes) (position : Nat) : Nat := (words bytes).length - position / 2

/-- The alterations of one byte that the other byte order hides. -/
structure Escapes (bytes : Bytes) (position : Nat) (old new : UInt8) : Prop where
  position_lt : position < bytes.length
  change_dvd : (65535 : Int) ∣ (wordsFrom bytes position + 256) * (new.toNat - old.toNat)
  sum_eq : (words (bytes.set position new)).sum % 65535 =
    256 * runningSum 0 (words bytes) % 65535

/-- The factor 256 of an upper byte does not matter, because 256 times itself is one. -/
theorem dvd_place_mul_iff (position : Nat) (change : Int) :
    (65535 : Int) ∣ place position * change ↔ (65535 : Int) ∣ change := by
  unfold place
  split
  · omega
  · omega

/-- What an altered byte adds to the sums. -/
theorem exists_change {bytes : Bytes} {position : Nat} {old new : UInt8}
    (hOld : bytes[position]? = some old) (hNew : new ≠ old) :
    ∃ change : Int, change ≠ 0 ∧ -65535 < change ∧ change < 65535 ∧
      ((words (bytes.set position new)).sum : Int) = (words bytes).sum + change ∧
      (runningSum 0 (words (bytes.set position new)) : Int) =
        runningSum 0 (words bytes) + wordsFrom bytes position * change ∧
      change = place position * ((new.toNat : Int) - old.toNat) := by
  obtain ⟨front, back, one, other, hWords, hSet, hFront, hSame⟩ := exists_words_set hOld new
  obtain ⟨hNe, hOneLt, hOtherLt⟩ := word_change hNew hSame
  have hCount : wordsFrom bytes position = back.length + 1 := by
    rw [wordsFrom, hWords, ← hFront, List.length_append, List.length_cons]
    omega
  refine ⟨other - one, by omega, by omega, by omega, ?_, ?_, ?_⟩
  · simp only [hWords, hSet, List.sum_append, List.sum_cons]
    omega
  · rw [hSet, hWords, runningSum_append_cons, runningSum_append_cons 0 front one, hCount]
    push_cast
    ring
  · have hCast : (one : Int) + place position * new.toNat =
        other + place position * old.toNat := by exact_mod_cast hSame
    rw [mul_sub]
    omega

theorem checksum_set_eq_reversed_iff {bytes : Bytes} {position : Nat} {old new : UInt8}
    (hOld : bytes[position]? = some old) (hNew : new ≠ old) :
    (checksum (bytes.set position new)).toNat =
        Bytes.bigEndian (Bytes.toLittleEndian trailerSize (checksum bytes).toNat) ↔
      Escapes bytes position old new := by
  obtain ⟨hPosition, _⟩ := List.getElem?_eq_some_iff.mp hOld
  obtain ⟨change, hChange, hLower, hUpper, hFirst, hSecond, hPlace⟩ := exists_change hOld hNew
  have hZero := runningSum_eq_zero_iff (words bytes)
  have hSetZero := runningSum_eq_zero_iff (words (bytes.set position new))
  have hDvd : (65535 : Int) ∣ (wordsFrom bytes position + 256) * (new.toNat - old.toNat) ↔
      (65535 : Int) ∣ wordsFrom bytes position * change + 256 * change := by
    rw [← dvd_place_mul_iff position, hPlace]
    ring_nf
  obtain ⟨weighted, hWeighted⟩ : ∃ weighted : Int, wordsFrom bytes position * change = weighted :=
    ⟨_, rfl⟩
  rw [hWeighted] at hSecond hDvd
  rw [checksum_eq_reversed_iff, residue_eq_iff, residue_eq_iff]
  constructor
  · rintro ⟨⟨_, hFirstSum⟩, _, hSecondSum⟩
    exact ⟨hPosition, hDvd.mpr (by omega), hFirstSum⟩
  · rintro ⟨_, hMultiple, hFirstSum⟩
    have hMultiple := hDvd.mp hMultiple
    have hSecondSum : runningSum 0 (words (bytes.set position new)) % 65535 =
        256 * (words bytes).sum % 65535 := by omega
    -- Neither chunk is all zeros: the change would be a multiple of 65535.
    have hPositive : (words bytes).sum ≠ 0 := by
      intro hNone
      have hRunning := hZero.mpr hNone
      omega
    have hSetPositive : (words (bytes.set position new)).sum ≠ 0 := by
      intro hNone
      have hRunning := hSetZero.mpr hNone
      omega
    exact ⟨⟨by omega, hFirstSum⟩, by omega, hSecondSum⟩

/-- A byte is less than 257, so 257 divides the other factor. -/
theorem Escapes.wordsFrom_mod {bytes : Bytes} {position : Nat} {old new : UInt8}
    (h : Escapes bytes position old new) (hNew : new ≠ old) :
    wordsFrom bytes position % 257 = 1 := by
  have hOldLt := old.toNat_lt
  have hNewLt := new.toNat_lt
  have hBytes : new.toNat ≠ old.toNat := fun h => hNew (UInt8.toNat_inj.mp h)
  have hPrime : Nat.Prime 257 := by norm_num
  have hProduct : ((257 : Nat) : Int) ∣
      (wordsFrom bytes position + 256) * (new.toNat - old.toNat) :=
    Int.dvd_trans (by decide) h.change_dvd
  rcases Int.Prime.dvd_mul' hPrime hProduct with hWords | hChange
  · omega
  · omega

theorem matchesStored_set {bytes : Bytes} {position : Nat} {old new : UInt8}
    (hOld : bytes[position]? = some old) (hNew : new ≠ old) :
    matchesStored (checksum (bytes.set position new))
        (Bytes.toLittleEndian trailerSize (checksum bytes).toNat) = true ↔
      Escapes bytes position old new := by
  have hShown : (checksum (bytes.set position new)).toNat ≠ (checksum bytes).toNat :=
    fun h => checksum_set_ne hOld hNew (UInt32.toNat_inj.mp h)
  rw [matchesStored, littleEndian_checksum, Bool.or_eq_true, beq_iff_eq, beq_iff_eq,
    checksum_set_eq_reversed_iff hOld hNew]
  exact or_iff_right hShown

/-! ## Altered checksums -/

theorem littleEndian_inj {first second : Bytes} (hLength : first.length = second.length)
    (h : Bytes.littleEndian first = Bytes.littleEndian second) : first = second := by
  rw [← Bytes.toLittleEndian_littleEndian first, h, hLength, Bytes.toLittleEndian_littleEndian]

/-- Of four bytes, one alteration alone does not make the reverse. -/
theorem set_ne_reverse {bytes : Bytes} (hLength : bytes.length = trailerSize) {position : Nat}
    {old new : UInt8} (hOld : bytes[position]? = some old) (hNew : new ≠ old) :
    (bytes.set position new).reverse ≠ bytes := by
  intro hReverse
  obtain ⟨hPosition, _⟩ := List.getElem?_eq_some_iff.mp hOld
  have hSet : bytes.set position new = bytes.reverse := List.reverse_eq_iff.mp hReverse
  have hMirror : position ≠ bytes.length - 1 - position := by
    rw [hLength, trailerSize]
    omega
  have hBack : bytes.length - 1 - (bytes.length - 1 - position) = position := by omega
  -- The byte in the mirrored place is the new byte and, not being altered itself, the old one.
  have hThere : bytes[bytes.length - 1 - position]? = some new := by
    rw [← List.getElem?_reverse hPosition, ← hSet, List.getElem?_set_self hPosition]
  have hKept : bytes[bytes.length - 1 - position]? = some old := by
    rw [← List.getElem?_set_ne hMirror, hSet, List.getElem?_reverse (by omega), hBack, hOld]
  exact hNew (Option.some.inj (hThere.symm.trans hKept))

theorem matchesStored_set_trailer {computed : UInt32} {position : Nat} {old new : UInt8}
    (hOld : (Bytes.toLittleEndian trailerSize computed.toNat)[position]? = some old)
    (hNew : new ≠ old) :
    matchesStored computed ((Bytes.toLittleEndian trailerSize computed.toNat).set position new) =
      false := by
  have hLength := Bytes.length_toLittleEndian trailerSize computed.toNat
  have hValue := littleEndian_checksum computed
  obtain ⟨trailer, hTrailer⟩ :
      ∃ trailer, Bytes.toLittleEndian trailerSize computed.toNat = trailer := ⟨_, rfl⟩
  rw [hTrailer] at hLength hValue hOld ⊢
  rw [matchesStored, Bool.or_eq_false_iff, beq_eq_false_iff_ne, beq_eq_false_iff_ne, ← hValue,
    Bytes.bigEndian_eq]
  constructor
  · intro hSame
    have hSet := littleEndian_inj (by rw [List.length_set]) hSame
    have hThere : trailer[position]? = some new := by
      rw [hSet, List.getElem?_set_self (List.getElem?_eq_some_iff.mp hOld).1]
    exact hNew (Option.some.inj (hThere.symm.trans hOld))
  · intro hSame
    refine set_ne_reverse hLength hOld hNew (littleEndian_inj ?_ hSame).symm
    rw [List.length_reverse, List.length_set]

/-! ## Main statement -/

theorem run_append {request : DecodeRequest} {bytes trailer : Bytes}
    (hReverse : request.flags.contains .reverse = true)
    (hVerify : request.flags.contains .skipEdc = false) (hTrailer : trailer.length = trailerSize)
    (h : request.input = bytes ++ trailer) :
    filter.run request =
      if matchesStored (checksum bytes) trailer then .ok bytes
      else .error
        (.invalidChecksum (UInt32.ofNat (Bytes.littleEndian trailer)) (checksum bytes)) := by
  have hDecode : filter.decode request = decode request :=
    Filter.decodeOnly_of_reverse hReverse decode
  rw [Filter.run, hDecode, decode_append hVerify hTrailer h]
  split
  · rw [h]
    exact congrArg Except.ok List.take_left
  · rfl

/-- A verified frame gives its bytes back in either order of its checksum. With one byte altered it
is refused, be it a byte of the chunk or of the checksum, unless the alteration escapes; then the
altered bytes are given back, and the number of words from the altered one on is one more than a
multiple of 257. -/
theorem run_altered {request : DecodeRequest}
    (hReverse : request.flags.contains .reverse = true)
    (hVerify : request.flags.contains .skipEdc = false) (bytes : Bytes) :
    (request.input = protect bytes → filter.run request = .ok bytes) ∧
      (request.input = bytes ++ (Bytes.toLittleEndian trailerSize (checksum bytes).toNat).reverse →
        filter.run request = .ok bytes) ∧
      ∀ (position : Nat) (old new : UInt8), (protect bytes)[position]? = some old → new ≠ old →
        request.input = (protect bytes).set position new →
          (¬Escapes bytes position old new →
            filter.run request = .error (.invalidChecksum
              (UInt32.ofNat (Bytes.littleEndian (request.input.drop bytes.length)))
              (checksum (request.input.take bytes.length)))) ∧
          (Escapes bytes position old new →
            filter.run request = .ok (bytes.set position new) ∧
              wordsFrom bytes position % 257 = 1) := by
  have hLength := Bytes.length_toLittleEndian trailerSize (checksum bytes).toNat
  refine ⟨?_, ?_, ?_⟩
  · intro hInput
    rw [run_append hReverse hVerify hLength hInput, if_pos (matchesStored_checksum _)]
  · intro hInput
    have hMatches : matchesStored (checksum bytes)
        (Bytes.toLittleEndian trailerSize (checksum bytes).toNat).reverse = true := by
      rw [matchesStored, Bytes.bigEndian_eq, List.reverse_reverse, littleEndian_checksum,
        beq_self_eq_true, Bool.or_true]
    rw [run_append hReverse hVerify (by rw [List.length_reverse, hLength]) hInput, if_pos hMatches]
  · intro position old new hOld hNew hInput
    rcases Nat.lt_or_ge position bytes.length with hChunk | hTrailer
    · -- The altered byte belongs to the chunk.
      rw [protect, List.set_append_left _ _ hChunk] at hInput
      rw [protect, List.getElem?_append_left hChunk] at hOld
      have hTake : request.input.take bytes.length = bytes.set position new := by
        rw [hInput, List.take_left' List.length_set]
      have hDrop : request.input.drop bytes.length =
          Bytes.toLittleEndian trailerSize (checksum bytes).toNat := by
        rw [hInput, List.drop_left' List.length_set]
      have hMatches := matchesStored_set hOld hNew
      rw [run_append hReverse hVerify hLength hInput, hTake, hDrop]
      exact ⟨fun hShown => if_neg (mt hMatches.mp hShown),
        fun hHidden => ⟨if_pos (hMatches.mpr hHidden), hHidden.wordsFrom_mod hNew⟩⟩
    · -- The altered byte belongs to the checksum.
      rw [protect, List.set_append_right _ _ hTrailer] at hInput
      rw [protect, List.getElem?_append_right hTrailer] at hOld
      have hShown := matchesStored_set_trailer hOld hNew
      have hTake : request.input.take bytes.length = bytes := by rw [hInput, List.take_left]
      have hDrop : request.input.drop bytes.length =
          (Bytes.toLittleEndian trailerSize (checksum bytes).toNat).set
            (position - bytes.length) new := by rw [hInput, List.drop_left]
      rw [run_append hReverse hVerify (by rw [List.length_set, hLength]) hInput, hShown, hTake,
        hDrop]
      exact ⟨fun _ => rfl, fun hHidden => absurd hHidden.position_lt (Nat.not_lt.mpr hTrailer)⟩

/-- Three bytes, of which the last is altered: by one, which is noticed, and from `0x00` to `0xff`,
which is not. In the checksum an alteration is noticed. -/
theorem run_altered_three_bytes :
    let bytes : Bytes := [0x55, 0xaa, 0x00]
    let request (input : Bytes) : DecodeRequest :=
      { flags := .reverse, params := [], input, sizeHint := 7, options := ⟨true⟩ }
    (request []).flags.contains .reverse = true ∧ (request []).flags.contains .skipEdc = false ∧
      protect bytes = [0x55, 0xaa, 0x00, 0xaa, 0x55, 0x54, 0xab] ∧
      filter.run (request (protect bytes)) = .ok bytes ∧
      filter.run (request [0x55, 0xaa, 0x00, 0xab, 0x54, 0x55, 0xaa]) = .ok bytes ∧
      filter.run (request [0x55, 0xaa, 0x01, 0xaa, 0x55, 0x54, 0xab]) =
        .error (.invalidChecksum 0xab5455aa 0xac5456aa) ∧
      filter.run (request [0x55, 0xaa, 0x00, 0xaa, 0x55, 0x54, 0xff]) =
        .error (.invalidChecksum 0xff5455aa 0xab5455aa) ∧
      Escapes bytes 2 0x00 0xff ∧
      filter.run (request [0x55, 0xaa, 0xff, 0xaa, 0x55, 0x54, 0xab]) = .ok [0x55, 0xaa, 0xff] := by
  intro bytes request
  have hReverse : FilterFlags.reverse.contains .reverse = true := by decide
  have hVerify : FilterFlags.reverse.contains .skipEdc = false := by decide
  have hFrame : protect bytes = [0x55, 0xaa, 0x00, 0xaa, 0x55, 0x54, 0xab] := by decide
  have hShown : ¬Escapes bytes 2 0x00 0x01 := fun h => absurd h.change_dvd (by decide)
  have hTrailer : ¬Escapes bytes 6 0xab 0xff := fun h => absurd h.position_lt (by decide)
  have hHidden : Escapes bytes 2 0x00 0xff := ⟨by decide, by decide, by decide⟩
  have hFrames := fun input => @run_altered (request input) hReverse hVerify bytes
  refine ⟨hReverse, hVerify, hFrame, (hFrames _).1 rfl, (hFrames _).2.1 (by decide), ?_, ?_,
    hHidden, ?_⟩
  · exact (((hFrames [0x55, 0xaa, 0x01, 0xaa, 0x55, 0x54, 0xab]).2.2 2 0x00 0x01 (by decide)
      (by decide) (by decide)).1 hShown).trans (by decide)
  · exact (((hFrames [0x55, 0xaa, 0x00, 0xaa, 0x55, 0x54, 0xff]).2.2 6 0xab 0xff (by decide)
      (by decide) (by decide)).1 hTrailer).trans (by decide)
  · exact (((hFrames [0x55, 0xaa, 0xff, 0xaa, 0x55, 0x54, 0xab]).2.2 2 0x00 0xff (by decide)
      (by decide) (by decide)).2 hHidden).1

/-- Not every frame with one altered byte is refused. -/
theorem run_undetected_byte :
    let bytes : Bytes := [0x55, 0xaa, 0x00]
    let request : DecodeRequest :=
      { flags := .reverse, params := [], input := (protect bytes).set 2 0xff, sizeHint := 7,
        options := ⟨true⟩ }
    request.flags.contains .reverse = true ∧ request.flags.contains .skipEdc = false ∧
      (protect bytes)[2]? = some 0x00 ∧ (0xff : UInt8) ≠ 0x00 ∧
      filter.run request = .ok [0x55, 0xaa, 0xff] ∧
      ∀ stored computed, filter.run request ≠ .error (.invalidChecksum stored computed) := by
  intro bytes request
  have hRun : filter.run request = .ok [0x55, 0xaa, 0xff] := by decide
  refine ⟨by decide, by decide, by decide, by decide, hRun, ?_⟩
  intro stored computed hError
  rw [hRun] at hError
  cases hError

end ChunkFilters.Fletcher32
