import ChunkFilters.Error.Report
import ChunkFilters.Filter.Flags

/-!
# Pipelines

A pipeline lists the filters of a chunk in the order in which they were applied when the chunk was
stored. It has at most 32 of them, so that every entry has a bit in a `FilterMask`.
-/

namespace ChunkFilters

/-- One filter of a pipeline, as it is stored with a dataset. -/
structure Entry where
  filterId : FilterId
  flags : FilterFlags := .none
  name : Option String := none
  params : List UInt32 := []
deriving DecidableEq, Repr

def maxFilters : Nat := 32

structure Pipeline where
  entries : List Entry := []
  length_le : entries.length ≤ maxFilters := by decide

structure TooManyFilters where
  count : Nat
deriving DecidableEq, Repr

def TooManyFilters.message (error : TooManyFilters) : String :=
  s!"a pipeline has at most {maxFilters} filters, got {error.count}"

namespace Pipeline

def ofEntries (entries : List Entry) : Except TooManyFilters Pipeline :=
  if h : entries.length ≤ maxFilters then .ok ⟨entries, h⟩ else .error ⟨entries.length⟩

theorem ofEntries_entries (pipeline : Pipeline) : ofEntries pipeline.entries = .ok pipeline := by
  rw [ofEntries, dif_pos pipeline.length_le]

theorem ofEntries_eq_error {entries : List Entry} (h : maxFilters < entries.length) :
    ofEntries entries = .error ⟨entries.length⟩ := by
  rw [ofEntries, dif_neg (Nat.not_le.mpr h)]

end Pipeline

inductive PipelineError where
  /-- Pipelines are only undone. -/
  | illegalOperation
  | unregisteredFilter (index : Nat) (id : FilterId)
  /-- The filter of the entry at `index` failed, and was not to be skipped. -/
  | filterFailed (index : Nat) (id : FilterId) (source : CodecError)
deriving DecidableEq, Repr

namespace PipelineError

def message : PipelineError → String
  | illegalOperation => "filter pipelines can only be applied in the decode direction"
  | unregisteredFilter index id => s!"filter {id} at pipeline index {index} is not registered"
  | filterFailed index id source =>
    s!"filter {id} at pipeline index {index} failed: {source.message}"

/-- The failure of a filter is reported as its cause is, with the message of the pipeline. -/
def report (error : PipelineError) : ErrorReport :=
  match error with
  | illegalOperation => { primary := .internal, secondary := .pipeline, message := error.message }
  | unregisteredFilter _ id =>
    { primary := .format, secondary := .pipeline, message := error.message,
      value := some id.value.toNat }
  | filterFailed _ _ source => { source.report with message := error.message }

end PipelineError

end ChunkFilters
