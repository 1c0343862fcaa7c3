import ChunkFilters.Pipeline
import ChunkFilters.Registry

/-!
# Applying a pipeline

A chunk is read by undoing the filters of its pipeline, the last one first. Entries that the mask
skips take no part. Every other entry is looked up before any filter is undone.

A filter that fails may be skipped: the failure handler sees which filter failed and on which
bytes, and decides. Fatal errors are not put to it. A skipped filter leaves the bytes as they were
and sets its bit in the mask of the outcome. A run that ends in an error leaves the buffer of the
caller as it was.

The bytes stay in the buffer of the caller as long as every filter only drops some at the end, and
move to a buffer of their own with the first filter that does anything else (`Current`). Each filter
is told the capacity of the buffer that its input lies in, which may be larger than the input: the
buffer of the caller may have room behind the chunk, and so may a buffer that a filter has made.
-/

namespace ChunkFilters

/-! ## Failures -/

/-- What the failure handler is told: the filter and the bytes that it was given. -/
structure Failure where
  id : FilterId
  bytes : Bytes
deriving DecidableEq, Repr

inductive FailureResponse where
  | stop
  /-- Go on with the bytes as they were before the filter. -/
  | skip
deriving DecidableEq, Repr

/-- Decides about a failure, and may consider the failures that were put to it before. -/
abbrev FailureHandler := List Failure → Failure → FailureResponse

structure Invocation where
  direction : Direction := .decode
  /-- The entries that the chunk was stored without. -/
  mask : FilterMask := 0
  /-- Without a handler every failure ends the run. -/
  handler : Option FailureHandler := none
  options : CodecOptions
  /-- The number of bytes that the buffer of the caller has room for behind the chunk. -/
  spare : Nat := 0

structure Outcome where
  /-- On success, the mask of all entries that were not undone. -/
  result : Except PipelineError FilterMask
  buffer : Bytes
  /-- The failures that were put to the handler, in order. -/
  failures : List Failure

namespace Pipeline

/-! ## Stages -/

structure Stage where
  index : Nat
  entry : Entry
  filter : Filter

/-- The stages of the entries from `index` on that the mask does not skip. The first of them that
is not registered is reported. -/
def stagesFrom (registry : Registry) (mask : FilterMask) :
    Nat → List Entry → Except PipelineError (List Stage)
  | _, [] => .ok []
  | index, entry :: rest =>
    if mask.skips index then stagesFrom registry mask (index + 1) rest
    else match registry.lookup entry.filterId with
      | none => .error (.unregisteredFilter index entry.filterId)
      | some filter => do
        return ⟨index, entry, filter⟩ :: (← stagesFrom registry mask (index + 1) rest)

/-- The bytes between two filters, and where they are. -/
inductive Current where
  /-- The first `length` bytes of the buffer of the caller. -/
  | borrowed (length : Nat)
  | owned (bytes : Bytes)
deriving DecidableEq, Repr

namespace Current

/-- The bytes themselves, given the buffer of the caller. -/
def bytes (buffer : Bytes) : Current → Bytes
  | borrowed length => buffer.take length
  | owned bytes => bytes

/-- Drops what follows the first `count` bytes, without moving them. -/
def truncate (count : Nat) : Current → Current
  | borrowed length => borrowed (min count length)
  | owned bytes => owned (bytes.take count)

theorem bytes_truncate (buffer : Bytes) (count : Nat) (current : Current) :
    (current.truncate count).bytes buffer = (current.bytes buffer).take count := by
  cases current with
  | borrowed length => simp only [truncate, bytes, List.take_take]
  | owned bytes => rfl

end Current

structure Progress where
  current : Current
  /-- The number of bytes that the buffer which holds the bytes has room for. -/
  capacity : Nat
  skipped : FilterMask
  failures : List Failure

structure Stopped where
  error : PipelineError
  failures : List Failure

/-- The flags that an invocation adds to those of each entry. -/
def invocationFlags (options : CodecOptions) : FilterFlags :=
  if options.validateChecksums then .reverse else .reverse ||| .skipEdc

namespace Progress

def start (buffer : Bytes) (spare : Nat) : Progress :=
  ⟨.borrowed buffer.length, buffer.length + spare, 0, []⟩

def bytes (buffer : Bytes) (progress : Progress) : Bytes := progress.current.bytes buffer

def request (buffer : Bytes) (progress : Progress) (options : CodecOptions) (entry : Entry) :
    DecodeRequest :=
  { flags := invocationFlags options ||| entry.flags
    params := entry.params
    input := progress.bytes buffer
    sizeHint := progress.capacity
    options }

/-- The flags of a request ask for the filter to be undone, whatever those of the entry. -/
theorem contains_reverse_request (buffer : Bytes) (progress : Progress) (options : CodecOptions)
    (entry : Entry) : (progress.request buffer options entry).flags.contains .reverse = true := by
  refine FilterFlags.contains_or_left ?_ entry.flags
  unfold invocationFlags
  split
  · decide
  · exact FilterFlags.contains_or_left (by decide) .skipEdc

/-- After a filter that was undone. Output that starts where the input starts is not moved; any
other part of the input is copied to a buffer that is just large enough. -/
def advance (buffer : Bytes) (progress : Progress) (decoded : Decoded) : Progress :=
  match decoded with
  | .leading count => { progress with current := progress.current.truncate count }
  | .part start count =>
    let bytes := (Decoded.part start count).bytes (progress.bytes buffer)
    { progress with current := .owned bytes, capacity := bytes.length }
  | .fresh fresh => { progress with current := .owned fresh.bytes, capacity := fresh.capacity }

def skip (progress : Progress) (index : Nat) (failure : Failure) : Progress :=
  { progress with
    skipped := progress.skipped ||| FilterMask.only index
    failures := progress.failures ++ [failure] }

end Progress

def Stage.undo (stage : Stage) (invocation : Invocation) (buffer : Bytes) (progress : Progress) :
    Except Stopped Progress :=
  match stage.filter.decode (progress.request buffer invocation.options stage.entry) with
  | .ok decoded => .ok (progress.advance buffer decoded)
  | .error source =>
    let error := PipelineError.filterFailed stage.index stage.entry.filterId source
    match invocation.handler, source.isFatal with
    | none, _ | _, true => .error ⟨error, progress.failures⟩
    | some respond, false =>
      let failure : Failure := ⟨stage.entry.filterId, progress.bytes buffer⟩
      match respond progress.failures failure with
      | .skip => .ok (progress.skip stage.index failure)
      | .stop => .error ⟨error, progress.failures ++ [failure]⟩

def undoStages (invocation : Invocation) (buffer : Bytes) :
    List Stage → Progress → Except Stopped Progress
  | [], progress => .ok progress
  | stage :: rest, progress => do
    undoStages invocation buffer rest (← stage.undo invocation buffer progress)

/-! ## Runs -/

/-- Applies the pipeline to a buffer, with the filters of a registry. -/
def apply (pipeline : Pipeline) (registry : Registry) (invocation : Invocation) (buffer : Bytes) :
    Outcome :=
  match invocation.direction with
  | .encode => ⟨.error .illegalOperation, buffer, []⟩
  | .decode =>
    match stagesFrom registry invocation.mask 0 pipeline.entries with
    | .error error => ⟨.error error, buffer, []⟩
    | .ok stages =>
      match undoStages invocation buffer stages.reverse (.start buffer invocation.spare) with
      | .error stopped => ⟨.error stopped.error, buffer, stopped.failures⟩
      | .ok progress =>
        ⟨.ok (invocation.mask ||| progress.skipped), progress.bytes buffer, progress.failures⟩

/-- Applies the pipeline to independent chunks, each with a mask and a buffer of its own; a chunk
without a mask was stored with every filter. -/
def applyChunks (pipeline : Pipeline) (registry : Registry) (invocation : Invocation)
    (masks : List FilterMask) (chunks : List Bytes) (spares : List Nat := []) : List Outcome :=
  chunks.mapIdx fun index chunk =>
    pipeline.apply registry
      { invocation with mask := masks.getD index 0, spare := spares.getD index 0 } chunk

/-- An error leaves the buffer as it was. -/
theorem apply_buffer_of_error {pipeline : Pipeline} {registry : Registry} {invocation : Invocation}
    {buffer : Bytes} {error : PipelineError}
    (h : (pipeline.apply registry invocation buffer).result = .error error) :
    (pipeline.apply registry invocation buffer).buffer = buffer := by
  unfold apply at h ⊢
  split
  · rfl
  · split
    · rfl
    · split
      · rfl
      · simp_all

end Pipeline

end ChunkFilters
