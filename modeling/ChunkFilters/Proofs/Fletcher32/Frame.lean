import ChunkFilters.Fletcher32
import ChunkFilters.Proofs.Bytes

/-!
# Frames of the checksum

A protected chunk is taken apart where `protect` put it together: the filter finds the checksum of
the bytes behind them, and drops it (`decode_protect`). Whatever stands in that place is compared
with the checksum of the bytes before it (`decode_append`).
-/

namespace ChunkFilters.Fletcher32

theorem littleEndian_checksum (computed : UInt32) :
    Bytes.littleEndian (Bytes.toLittleEndian trailerSize computed.toNat) = computed.toNat := by
  rw [Bytes.littleEndian_toLittleEndian]
  exact Nat.mod_eq_of_lt computed.toNat_lt

theorem matchesStored_checksum (computed : UInt32) :
    matchesStored computed (Bytes.toLittleEndian trailerSize computed.toNat) = true := by
  rw [matchesStored, littleEndian_checksum, beq_self_eq_true, Bool.true_or]

/-- Whether the checksum is verified or not, it is dropped. -/
theorem decode_protect {request : DecodeRequest} {bytes : Bytes}
    (h : request.input = protect bytes) : decode request = .ok (.leading bytes.length) := by
  have hLength : request.input.length = bytes.length + trailerSize := by
    rw [h, length_protect]
    rfl
  have hPayload : request.input.take bytes.length = bytes := by
    rw [h, protect, List.take_left]
  have hTrailer : request.input.drop bytes.length =
      Bytes.toLittleEndian trailerSize (checksum bytes).toNat := by
    rw [h, protect, List.drop_left]
  unfold decode
  rw [hLength]
  dsimp only
  rw [if_neg (by omega), Nat.add_sub_cancel, hPayload, hTrailer, matchesStored_checksum]
  split <;> rfl

theorem decode_append {request : DecodeRequest} {bytes trailer : Bytes}
    (hVerify : request.flags.contains .skipEdc = false) (hTrailer : trailer.length = trailerSize)
    (h : request.input = bytes ++ trailer) :
    decode request =
      if matchesStored (checksum bytes) trailer then .ok (.leading bytes.length)
      else .error
        (.invalidChecksum (UInt32.ofNat (Bytes.littleEndian trailer)) (checksum bytes)) := by
  have hLength : request.input.length = bytes.length + trailerSize := by
    rw [h, List.length_append, hTrailer]
  have hPayload : request.input.take bytes.length = bytes := by rw [h, List.take_left]
  have hRest : request.input.drop bytes.length = trailer := by rw [h, List.drop_left]
  unfold decode
  rw [hLength]
  dsimp only
  rw [if_neg (by omega), Nat.add_sub_cancel, hPayload, hRest, hVerify, if_neg Bool.false_ne_true]

end ChunkFilters.Fletcher32
