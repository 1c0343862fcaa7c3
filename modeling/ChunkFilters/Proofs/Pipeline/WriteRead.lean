import ChunkFilters.Builtin
import ChunkFilters.Proofs.Deflate.Streaming
import ChunkFilters.Proofs.Fletcher32.Frame
import ChunkFilters.Proofs.Pipeline.PlainLoop
import ChunkFilters.Proofs.Shuffle.Inverse

/-!
# What was written is read back

`Writes` says what the filter of an entry may store for a byte string, for the three filters whose
writers are known: shuffled bytes, bytes with their checksum, and any stream that expands to the
bytes, with whatever decoder the host has for it. `Stores` puts the writers of a pipeline one after
the other, first entry first, and leaves out the entries that the mask skips.

* `Writes.exists_decoded`: each filter undoes its writer, whatever the flags stored with the entry;
* `undo_untouched`: so a stage takes the bytes one writer back, and leaves no trace of a failure;
* `apply_of_stores`: a run gives back the bytes, returns the mask that it was given, and has nothing
  to put to a handler.

The buffer that is read is assumed to be one that can be reserved. That all buffers on the way can
be reserved too follows from it.
-/

namespace ChunkFilters.Pipeline

/-! ## Writers -/

/-- What the filter of an entry may store for `bytes`. -/
inductive Writes (host : Host) : Entry → Bytes → Bytes → Prop where
  | shuffle {entry : Entry} {width : UInt32} {others : List UInt32} {bytes stored : Bytes}
      (hId : entry.filterId = .shuffle) (hParams : entry.params = width :: others)
      (hShuffled : Shuffle.Shuffled width.toNat bytes stored) : Writes host entry bytes stored
  | fletcher32 {entry : Entry} {bytes : Bytes} (hId : entry.filterId = .fletcher32) :
      Writes host entry bytes (Fletcher32.protect bytes)
  | deflate {entry : Entry} {bytes stored : Bytes} (hId : entry.filterId = .deflate)
      (hExpands : Deflate.Expands host.memory host.inflater stored bytes) :
      Writes host entry bytes stored

/-- What the entries from `index` on store for `bytes`, one after the other. -/
inductive Stores (host : Host) (mask : FilterMask) : Nat → List Entry → Bytes → Bytes → Prop where
  | nil {index : Nat} {bytes : Bytes} : Stores host mask index [] bytes bytes
  | skip {index : Nat} {entry : Entry} {rest : List Entry} {bytes stored : Bytes}
      (hSkips : mask.skips index = true) (hRest : Stores host mask (index + 1) rest bytes stored) :
      Stores host mask index (entry :: rest) bytes stored
  | write {index : Nat} {entry : Entry} {rest : List Entry} {bytes written stored : Bytes}
      (hSkips : mask.skips index = false) (hWrites : Writes host entry bytes written)
      (hRest : Stores host mask (index + 1) rest written stored) :
      Stores host mask index (entry :: rest) bytes stored

/-! ## One filter -/

/-- The filter gives back the bytes, and if it does so in a new buffer, this is one that could be
reserved. -/
def GivesBack (memory : Memory) (input bytes : Bytes) (answer : Except CodecError Decoded) : Prop :=
  ∃ decoded, answer = .ok decoded ∧ decoded.bytes input = bytes ∧
    ∀ fresh, decoded = .fresh fresh → memory.allows (max fresh.capacity 1) = true

section
variable {host : Host} {request : DecodeRequest} {bytes : Bytes}
  (hReverse : request.flags.contains .reverse = true)
include hReverse

theorem givesBack_shuffle {width : UInt32} {others : List UInt32}
    (hParams : request.params = width :: others)
    (hShuffled : Shuffle.Shuffled width.toNat bytes request.input)
    (hMemory : host.memory.allows (max request.input.length 1) = true) :
    GivesBack host.memory request.input bytes ((Shuffle.filter host.memory).decode request) := by
  have hUnshuffle := Shuffle.unshuffle_of_shuffled hShuffled
  have hDecode : (Shuffle.filter host.memory).decode request = Shuffle.decode host.memory request :=
    Filter.decodeOnly_of_reverse hReverse _
  have hAllows := host.memory.allows_of_le (Nat.le_max_left request.input.length 1) hMemory
  rw [hDecode]
  unfold Shuffle.decode
  rw [hParams, List.head?_cons]
  dsimp only
  split
  · next hTrivial =>
    refine ⟨_, rfl, ?_, nofun⟩
    rw [Decoded.bytes_unchanged, ← hUnshuffle, Shuffle.unshuffle, if_pos hTrivial]
  · rw [Shuffle.unshuffleCopy_of_allows hAllows]
    refine ⟨_, rfl, hUnshuffle, ?_⟩
    rintro fresh ⟨⟩
    rwa [Buffer.capacity_exact, Shuffle.length_unshuffle]

theorem givesBack_fletcher32 (hInput : request.input = Fletcher32.protect bytes) :
    GivesBack host.memory request.input bytes (Fletcher32.filter.decode request) := by
  have hDecode : Fletcher32.filter.decode request = Fletcher32.decode request :=
    Filter.decodeOnly_of_reverse hReverse Fletcher32.decode
  rw [hDecode, Fletcher32.decode_protect hInput, hInput]
  refine ⟨_, rfl, ?_, nofun⟩
  simp only [Decoded.bytes_leading, Fletcher32.protect, List.take_left]

theorem givesBack_deflate
    (hExpands : Deflate.Expands host.memory host.inflater request.input bytes)
    (hHint : host.memory.allows (max request.sizeHint 1) = true) :
    GivesBack host.memory request.input bytes
      ((Deflate.filter host.memory host.inflater).decode request) := by
  have hDecode : (Deflate.filter host.memory host.inflater).decode request =
      Deflate.decode host.memory host.inflater request :=
    Filter.decodeOnly_of_reverse hReverse _
  obtain ⟨buffer, hInflate, rfl, hAllows⟩ := hExpands.exists_buffer hHint
  rw [hDecode, Deflate.decode, hInflate]
  refine ⟨.fresh buffer, rfl, rfl, ?_⟩
  rintro fresh ⟨⟩
  exact hAllows

end

theorem Writes.exists_decoded {host : Host} {entry : Entry} {bytes stored : Bytes}
    (h : Writes host entry bytes stored) :
    ∃ filter, (Registry.builtinOn host).lookup entry.filterId = some filter ∧
      ∀ request : DecodeRequest, request.flags.contains .reverse = true →
        request.params = entry.params → request.input = stored →
        request.input.length ≤ request.sizeHint →
        host.memory.allows (max request.sizeHint 1) = true →
          GivesBack host.memory stored bytes (filter.decode request) := by
  cases h with
  | shuffle hId hParams hShuffled =>
    refine ⟨Shuffle.filter host.memory, by rw [hId]; rfl, ?_⟩
    rintro request hReverse hRequest rfl hLength hHint
    have hMemory := host.memory.allows_max_of_le hLength hHint
    exact givesBack_shuffle hReverse (hRequest.trans hParams) hShuffled hMemory
  | fletcher32 hId =>
    refine ⟨Fletcher32.filter, by rw [hId]; rfl, ?_⟩
    intro request hReverse _ hInput _ _
    exact hInput ▸ givesBack_fletcher32 hReverse hInput
  | deflate hId hExpands =>
    refine ⟨Deflate.filter host.memory host.inflater, by rw [hId]; rfl, ?_⟩
    rintro request hReverse _ rfl _ hHint
    exact givesBack_deflate hReverse hExpands hHint

/-! ## One stage -/

/-- A state that holds `bytes`, in a buffer that could be reserved, and in which nothing has
failed. -/
structure Untouched (memory : Memory) (buffer bytes : Bytes) (progress : Progress) : Prop where
  bytes_eq : progress.bytes buffer = bytes
  length_le : bytes.length ≤ progress.capacity
  allows_capacity : memory.allows (max progress.capacity 1) = true
  skipped_eq : progress.skipped = 0
  failures_eq : progress.failures = []

theorem untouched_start {memory : Memory} {buffer : Bytes} {spare : Nat}
    (hBuffer : memory.allows (max (buffer.length + spare) 1) = true) :
    Untouched memory buffer buffer (.start buffer spare) where
  bytes_eq := List.take_length
  length_le := Nat.le_add_right _ _
  allows_capacity := hBuffer
  skipped_eq := rfl
  failures_eq := rfl

/-- Undoing a filter changes the bytes and the buffer that holds them, and nothing else. -/
theorem Untouched.advance {memory : Memory} {buffer bytes stored : Bytes} {progress : Progress}
    {decoded : Decoded} (h : Untouched memory buffer stored progress)
    (hDecoded : decoded.bytes stored = bytes)
    (hFresh : ∀ fresh, decoded = .fresh fresh → memory.allows (max fresh.capacity 1) = true) :
    Untouched memory buffer bytes (progress.advance buffer decoded) := by
  have hBytes : (progress.advance buffer decoded).bytes buffer = bytes := by
    rw [bytes_advance, h.bytes_eq, hDecoded]
  cases decoded with
  | fresh fresh =>
    refine ⟨hBytes, ?_, hFresh fresh rfl, h.skipped_eq, h.failures_eq⟩
    rw [← hDecoded]
    exact fresh.length_le_capacity
  | part start count =>
    have hShorter : bytes.length ≤ progress.capacity := by
      refine Nat.le_trans ?_ h.length_le
      rw [← hDecoded, Decoded.bytes, List.length_take, List.length_drop]
      omega
    cases start with
    | zero => exact ⟨hBytes, hShorter, h.allows_capacity, h.skipped_eq, h.failures_eq⟩
    | succ start =>
      have hCapacity : (progress.advance buffer (.part (start + 1) count)).capacity =
          bytes.length := congrArg List.length hBytes
      refine ⟨hBytes, hCapacity.ge, ?_, h.skipped_eq, h.failures_eq⟩
      rw [hCapacity]
      exact memory.allows_max_of_le hShorter h.allows_capacity

/-- A stage takes the bytes one writer back. -/
theorem undo_untouched {host : Host} (stage : Stage) {bytes stored : Bytes}
    (hWrites : Writes host stage.entry bytes stored)
    (hLookup : (Registry.builtinOn host).lookup stage.entry.filterId = some stage.filter)
    (invocation : Invocation) {buffer : Bytes} {progress : Progress}
    (h : Untouched host.memory buffer stored progress) :
    ∃ next, stage.undo invocation buffer progress = .ok next ∧
      Untouched host.memory buffer bytes next := by
  obtain ⟨filter, hFilter, hDecoded⟩ := hWrites.exists_decoded
  obtain rfl : filter = stage.filter := Option.some.inj (hFilter.symm.trans hLookup)
  obtain ⟨decoded, hDecode, hBytes, hFresh⟩ :=
    hDecoded (progress.request buffer invocation.options stage.entry)
      (progress.contains_reverse_request buffer invocation.options stage.entry) rfl h.bytes_eq
      (by rw [← h.bytes_eq] at *; exact h.length_le) h.allows_capacity
  refine ⟨progress.advance buffer decoded, ?_, h.advance hBytes hFresh⟩
  rw [Stage.undo, hDecode]

/-! ## All stages -/

theorem undoStages_append (invocation : Invocation) (buffer : Bytes) (first second : List Stage)
    (progress : Progress) :
    undoStages invocation buffer (first ++ second) progress =
      (undoStages invocation buffer first progress).bind
        (undoStages invocation buffer second) := by
  induction first generalizing progress with
  | nil => rfl
  | cons stage rest ih =>
    simp only [List.cons_append, undoStages]
    cases stage.undo invocation buffer progress with
    | error stopped => rfl
    | ok next => exact ih next

/-- The stages of the entries that stored the bytes take them back. The stage of the first entry,
which wrote first, comes last. -/
theorem undoStages_untouched {host : Host} (invocation : Invocation) (buffer : Bytes) {index : Nat}
    {entries : List Entry} {bytes stored : Bytes}
    (h : Stores host invocation.mask index entries bytes stored) :
    ∃ stages, stagesFrom (.builtinOn host) invocation.mask index entries = .ok stages ∧
      ∀ progress, Untouched host.memory buffer stored progress →
        ∃ last, undoStages invocation buffer stages.reverse progress = .ok last ∧
          Untouched host.memory buffer bytes last := by
  induction h with
  | nil => exact ⟨[], rfl, fun progress hStored => ⟨progress, rfl, hStored⟩⟩
  | skip hSkips _ ih =>
    obtain ⟨stages, hStages, hUndo⟩ := ih
    refine ⟨stages, ?_, hUndo⟩
    rw [stagesFrom, if_pos hSkips, hStages]
  | @write index entry rest bytes written stored hSkips hWrites _ ih =>
    obtain ⟨stages, hStages, hUndo⟩ := ih
    obtain ⟨filter, hLookup, _⟩ := hWrites.exists_decoded
    refine ⟨⟨index, entry, filter⟩ :: stages, ?_, ?_⟩
    · rw [stagesFrom, if_neg (Bool.eq_false_iff.mp hSkips), hLookup, hStages]
      rfl
    · intro progress hStored
      obtain ⟨middle, hMiddle, hWritten⟩ := hUndo progress hStored
      obtain ⟨last, hLast, hBytes⟩ :=
        undo_untouched ⟨index, entry, filter⟩ hWrites hLookup invocation hWritten
      refine ⟨last, ?_, hBytes⟩
      rw [List.reverse_cons, undoStages_append, hMiddle]
      simp only [Except.bind, undoStages, hLast]
      rfl

/-! ## Main statement -/

/-- What the entries of a pipeline stored for `bytes`, the mask leaving some of them out, is read
back by the pipeline with the same mask, from any buffer that could be reserved. -/
theorem apply_of_stores {host : Host} {pipeline : Pipeline} {mask : FilterMask}
    {bytes stored : Bytes} {spare : Nat}
    (hStores : Stores host mask 0 pipeline.entries bytes stored)
    (hStored : host.memory.allows (max (stored.length + spare) 1) = true)
    (handler : Option FailureHandler) (options : CodecOptions) :
    pipeline.apply (.builtinOn host) { direction := .decode, mask, handler, options, spare }
      stored = ⟨.ok mask, bytes, []⟩ := by
  obtain ⟨stages, hStages, hUndo⟩ :=
    undoStages_untouched { direction := .decode, mask, handler, options, spare } stored hStores
  obtain ⟨last, hLast, hBytes⟩ := hUndo (.start stored spare) (untouched_start hStored)
  have hMask : mask ||| last.skipped = mask := by
    rw [hBytes.skipped_eq]
    exact BitVec.or_zero
  simp only [apply, hStages, hLast, hMask, hBytes.bytes_eq, hBytes.failures_eq]

/-- Four bytes, shuffled, put into a stream with one stored block, and protected; a second shuffle
is left out. The chunk lies in a buffer with some room behind it. -/
theorem apply_of_stores_four_bytes :
    let pipeline : Pipeline :=
      { entries := [⟨.shuffle, .optional, none, [2]⟩, ⟨.deflate, .none, none, [6]⟩,
          ⟨.shuffle, .none, none, [4]⟩, ⟨.fletcher32, .skipEdc, none, []⟩] }
    let bytes : Bytes := [1, 2, 3, 4]
    let stream : Bytes := [0x78, 0x01, 0x01, 4, 0, 0xfb, 0xff, 1, 3, 2, 4, 0, 25, 0, 11]
    let stored := Fletcher32.protect stream
    Stores .standard 0b0100#32 0 pipeline.entries bytes stored ∧
      Memory.standard.allows (max (stored.length + 5) 1) = true ∧
      pipeline.apply .builtin { mask := 0b0100#32, options := ⟨true⟩, spare := 5 } stored =
        ⟨.ok 0b0100#32, bytes, []⟩ := by
  intro pipeline bytes stream stored
  have hHeader : Zlib.readHeader (.ofBytes stream) = .ok ⟨0, 0, stream.drop 2⟩ := rfl
  have hBlocks : Zlib.readBlocks ⟨0, 0, stream.drop 2⟩ #[] =
      (#[1, 3, 2, 4], .ok (.ofBytes [0, 25, 0, 11])) :=
    Zlib.readBlocks_of_last (by rfl) (by rfl) (by rfl)
  have hDecode : Zlib.decode stream = ⟨[1, 3, 2, 4], none⟩ := by
    rw [Zlib.decode, hHeader]
    simp only [hBlocks]
    rfl
  have hShuffle : Shuffle.shuffle 2 bytes = [1, 3, 2, 4] := by decide
  have hExpands : Deflate.Expands .standard Zlib.expander stream (Shuffle.shuffle 2 bytes) :=
    Deflate.expands_of_decode (hShuffle ▸ hDecode) (by decide) (by decide)
  have hStores : Stores .standard 0b0100#32 0 pipeline.entries bytes stored :=
    .write rfl (.shuffle rfl rfl (Shuffle.shuffled_shuffle 2 bytes)) <|
      .write rfl (.deflate rfl hExpands) <| .skip rfl <| .write rfl (.fletcher32 rfl) .nil
  have hMemory : Memory.standard.allows (max (stored.length + 5) 1) = true := by
    rw [Fletcher32.length_protect]
    decide
  exact ⟨hStores, hMemory, apply_of_stores hStores hMemory none ⟨true⟩⟩

end ChunkFilters.Pipeline
