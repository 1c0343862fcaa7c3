import ChunkFilters.Proofs.Builtin
import ChunkFilters.Proofs.Pipeline.Failures

/-!
# Where errors point to

A run that ends with an error about malformed bytes reports the byte that its filter has named. For
a built-in filter that is a byte of the input which the filter was given by the run, or the place
just behind the last one.

* `reported_offsets`: where the errors of the built-in filters point to, and those of a run as they
  are reported.

Only built-in filters are meant. Any other may point where it likes.
-/

namespace ChunkFilters

open CodecError

/-- Errors of built-in filters about malformed bytes point into the input of the filter. Where
elements are unpacked, such an error can only mean that packed bits ran out, and points to the end.
A run that ends with such an error reports it with the same place in the bytes that its filter was
given. -/
theorem reported_offsets (host : Host) :
    (∀ filter ∈ Filter.builtinOn host, ∀ request : DecodeRequest,
      Fails (filter.decode request) (PointsInto request.input)) ∧
    (∀ request : DecodeRequest,
      Fails ((Nbit.filter host.memory).decode request) (RunsOut request.input)) ∧
    (∀ (request : DecodeRequest) (parameters : ScaleOffset.Parameters),
      ScaleOffset.Parameters.ofParams request.params = .ok parameters →
      ScaleOffset.headerSize ≤ request.input.length →
      ScaleOffset.statedBits request.input < parameters.kind.bits →
        Fails ((ScaleOffset.filter host.memory).decode request) (RunsOut request.input)) ∧
    ∀ (pipeline : Pipeline) (registry : Registry) (invocation : Invocation) (buffer : Bytes)
      (index : Nat) (id : FilterId) (description : String) (offset : Option Nat),
      (∀ filter, registry.lookup id = some filter → filter ∈ Filter.builtinOn host) →
      (pipeline.apply registry invocation buffer).result =
        .error (.filterFailed index id (.invalidData description offset)) →
        ∃ visit ∈ pipeline.visits registry invocation buffer,
          visit.index = index ∧ visit.entry.filterId = id ∧
          visit.answer = .error (.invalidData description offset) ∧
          (invalidData description offset).PointsInto visit.request.input ∧
          (PipelineError.filterFailed index id (.invalidData description offset)).report.offset =
            offset := by
  refine ⟨fun filter hFilter => Filter.pointsInto_of_decode_error hFilter, ?_, ?_, ?_⟩
  · intro request
    refine Filter.fails_decodeOnly (fun _ => trivial) ?_
    exact (Nbit.fails_decode host.memory request).mono fun _ => Shortage.runsOut
  · intro request parameters hParams hLength hBits
    refine Filter.fails_decodeOnly (fun _ => trivial) ?_
    have hFails := ScaleOffset.fails_decode_of_lt host.memory hLength hParams hBits
    exact hFails.mono fun _ => Shortage.runsOut
  · intro pipeline registry invocation buffer index id description offset hBuiltin h
    obtain ⟨visit, hVisit, hIndex, hId, hAnswer, filter, hLookup, hDecode⟩ :=
      Pipeline.exists_answer_of_filterFailed h
    have hPoints :=
      Filter.pointsInto_of_decode_error (hBuiltin filter hLookup) visit.request _ hDecode
    exact ⟨visit, hVisit, hIndex, hId, hAnswer, hPoints, rfl⟩

/-- Nine bits are needed of a chunk that has eight once its checksum is dropped, and fifteen of a
payload of eight behind a header. -/
theorem reported_offsets_one_byte :
    let pipeline : Pipeline :=
      { entries := [{ filterId := .nbit, params := [8, 0, 3, 1, 2, 1, 3, 0] },
          { filterId := .fletcher32 }] }
    let buffer := Fletcher32.protect [0x17]
    let error := CodecError.ofExhausted ⟨1, 1, 8, []⟩
    let scaled : DecodeRequest :=
      { flags := .reverse, params := [0, 2, 3, 1, 4, 0, 0, 0],
        input := [5, 0, 0, 0, 4] ++ List.replicate 16 0 ++ [0x12], sizeHint := 0,
        options := ⟨true⟩ }
    (pipeline.apply .builtin { options := ⟨true⟩ } buffer).result =
        .error (.filterFailed 0 .nbit error) ∧
      (∃ visit ∈ pipeline.visits .builtin { options := ⟨true⟩ } buffer,
        visit.index = 0 ∧ visit.answer = .error error ∧ error.PointsInto visit.request.input) ∧
      Fails ((ScaleOffset.filter .standard).decode scaled) (RunsOut scaled.input) := by
  intro pipeline buffer error scaled
  have hResult : (pipeline.apply .builtin { options := ⟨true⟩ } buffer).result =
      .error (.filterFailed 0 .nbit error) := by decide +kernel
  obtain ⟨-, -, hScaled, hReported⟩ := reported_offsets .standard
  obtain ⟨visit, hVisit, hIndex, -, hAnswer, hPoints, -⟩ :=
    hReported pipeline .builtin { options := ⟨true⟩ } buffer 0 .nbit _ _
      (fun _ hLookup => (Registry.mem_builtinOn_of_lookup hLookup).1) hResult
  exact ⟨hResult, ⟨visit, hVisit, hIndex, hAnswer, hPoints⟩,
    hScaled scaled ⟨2, 3, .float32, .little, none⟩ rfl (by decide) (by decide)⟩

end ChunkFilters
