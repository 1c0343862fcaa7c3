import ChunkFilters.Proofs.Complaints

/-!
# What the built-in filters refuse

A built-in filter can fail in four ways: by a complaint about the parameters, the bytes or a lack of
memory; because it was not asked to undo its work; by a checksum that does not match, unless the
flags say not to verify it; or because elements were scaled by a power of two (`Refuses`). This is
so on every host, whatever its decoders answer and however much memory it has.

* `refuses_of_decode_error`: no built-in filter fails in any other way;
* `pointsInto_of_decode_error`: so its errors about malformed bytes point into its input;
* `decode_skipEdc`: options play no part, and of the flags only the one for checksums does.
-/

namespace ChunkFilters

open CodecError

/-- Without verification the filter answers as with it, but for a checksum that does not match. -/
theorem Fletcher32.decode_skipEdc (request : DecodeRequest) (flags : FilterFlags)
    (options : CodecOptions) (hSkip : flags.contains .skipEdc = true) :
    Fletcher32.decode { request with flags, options } = Fletcher32.decode request ∨
      ∃ stored computed,
        Fletcher32.decode request = .error (.invalidChecksum stored computed) := by
  unfold Fletcher32.decode
  dsimp only
  rw [if_pos hSkip]
  split
  · exact Or.inl rfl
  · split
    · exact Or.inl rfl
    · split
      · exact Or.inl rfl
      · exact Or.inr ⟨_, _, rfl⟩

namespace Filter

/-- What a built-in filter may answer to a request that it refuses. -/
inductive Refuses (filter : Filter) (request : DecodeRequest) : CodecError → Prop where
  | complaint {error : CodecError} (h : Complaint request.input error) :
      Refuses filter request error
  | storing (hReverse : request.flags.contains .reverse = false) (name : String) :
      Refuses filter request (.encodeUnsupported name)
  | checksum (hVerify : request.flags.contains .skipEdc = false) (stored computed : UInt32) :
      Refuses filter request (.invalidChecksum stored computed)
  | binaryScaled (hId : filter.id = .scaleOffset)
      (hScaled : ScaleOffset.BinaryScaled request.params) :
      Refuses filter request ScaleOffset.binaryScalingError

theorem fails_decodeOnly {name : String} {decode : DecodeRequest → Except CodecError Decoded}
    {request : DecodeRequest} {P : CodecError → Prop}
    (hStoring : request.flags.contains .reverse = false → P (.encodeUnsupported name))
    (h : Fails (decode request) P) : Fails (decodeOnly name decode request) P := by
  unfold decodeOnly
  split
  · exact h
  · next hReverse => exact fails_error (hStoring (Bool.eq_false_iff.mpr hReverse))

section
variable {host : Host} {filter : Filter} (hFilter : filter ∈ builtinOn host)
include hFilter

theorem refuses_of_decode_error (request : DecodeRequest) :
    Fails (filter.decode request) (filter.Refuses request) := by
  simp only [builtinOn, List.mem_cons, List.not_mem_nil, or_false] at hFilter
  rcases hFilter with rfl | rfl | rfl | rfl | rfl | rfl <;>
    refine fails_decodeOnly (fun hReverse => .storing hReverse _) ?_
  · exact (Deflate.fails_decode host.memory host.inflater request).mono fun _ => .complaint
  · exact (Shuffle.fails_decode host.memory request).mono fun _ => .complaint
  · refine (Fletcher32.fails_decode request).mono ?_
    rintro error (hComplaint | ⟨hVerify, stored, computed, rfl⟩)
    · exact .complaint hComplaint
    · exact .checksum hVerify stored computed
  · exact (Szip.fails_decode host.memory host.entropyDecoder request).mono fun _ => .complaint
  · exact (Nbit.fails_decode host.memory request).mono fun _ hShortage =>
      .complaint (.shortage hShortage)
  · refine (ScaleOffset.fails_decode host.memory request).mono ?_
    rintro error (hComplaint | ⟨hScaled, rfl⟩)
    · exact .complaint hComplaint
    · exact .binaryScaled rfl hScaled

theorem pointsInto_of_decode_error (request : DecodeRequest) :
    Fails (filter.decode request) (PointsInto request.input) := by
  intro error hError
  cases refuses_of_decode_error hFilter request error hError with
  | complaint hComplaint => exact hComplaint.pointsInto
  | storing _ name => trivial
  | checksum _ stored computed => trivial
  | binaryScaled _ _ => trivial

/-- A filter that is told not to verify checksums does not reject one. -/
theorem decode_ne_invalidChecksum {request : DecodeRequest}
    (hSkip : request.flags.contains .skipEdc = true) (stored computed : UInt32) :
    filter.decode request ≠ .error (.invalidChecksum stored computed) := by
  intro hRejected
  cases refuses_of_decode_error hFilter request _ hRejected with
  | complaint hComplaint => cases hComplaint.ordinary
  | checksum hVerify _ _ =>
    rw [hSkip] at hVerify
    cases hVerify

end

theorem decodeOnly_congr {name : String} {decode : DecodeRequest → Except CodecError Decoded}
    {first second : DecodeRequest} (hFirst : first.flags.contains .reverse = true)
    (hSecond : second.flags.contains .reverse = true) (h : decode first = decode second) :
    decodeOnly name decode first = decodeOnly name decode second := by
  rw [decodeOnly_of_reverse hFirst, decodeOnly_of_reverse hSecond, h]

/-- A filter that is told not to verify checksums answers as it does otherwise, but for a checksum
that does not match. -/
theorem decode_skipEdc {host : Host} {filter : Filter} (hFilter : filter ∈ builtinOn host)
    {request : DecodeRequest} (hReverse : request.flags.contains .reverse = true)
    {flags : FilterFlags} (hFlags : flags.contains .reverse = true)
    (hSkip : flags.contains .skipEdc = true) (options : CodecOptions) :
    filter.decode { request with flags, options } = filter.decode request ∨
      ∃ stored computed, filter.decode request = .error (.invalidChecksum stored computed) := by
  simp only [builtinOn, List.mem_cons, List.not_mem_nil, or_false] at hFilter
  rcases hFilter with rfl | rfl | rfl | rfl | rfl | rfl
  · exact Or.inl (decodeOnly_congr hFlags hReverse rfl)
  · exact Or.inl (decodeOnly_congr hFlags hReverse rfl)
  · rcases Fletcher32.decode_skipEdc request flags options hSkip with
      hSame | ⟨stored, computed, hChecksum⟩
    · exact Or.inl (decodeOnly_congr hFlags hReverse hSame)
    · exact Or.inr ⟨stored, computed, (decodeOnly_of_reverse hReverse _).trans hChecksum⟩
  · exact Or.inl (decodeOnly_congr hFlags hReverse rfl)
  · exact Or.inl (decodeOnly_congr hFlags hReverse rfl)
  · exact Or.inl (decodeOnly_congr hFlags hReverse rfl)

end Filter

namespace Registry

/-- Every built-in filter is in the slot of its own identifier. -/
theorem id_eq_of_mem_builtinOn {host : Host} {slot : Slot} (h : slot ∈ (builtinOn host).slots) :
    slot.filter ∈ Filter.builtinOn host ∧ slot.filter.id = slot.id := by
  have hSlots : (builtinOn host).slots =
      (Filter.builtinOn host).map fun filter => ⟨filter.id, filter⟩ := rfl
  rw [hSlots] at h
  obtain ⟨filter, hFilter, rfl⟩ := List.mem_map.mp h
  exact ⟨hFilter, rfl⟩

theorem mem_builtinOn_of_lookup {host : Host} {id : FilterId} {filter : Filter}
    (h : (builtinOn host).lookup id = some filter) :
    filter ∈ Filter.builtinOn host ∧ filter.id = id :=
  id_eq_of_mem_builtinOn (exists_slot_of_lookup h)

end Registry

end ChunkFilters
