import ChunkFilters.Buffer
import ChunkFilters.Builtin
import ChunkFilters.Element.Word
import ChunkFilters.Pipeline.Apply
import ChunkFilters.Pipeline.Json
import ChunkFilters.Proofs.Nbit.Packing
import ChunkFilters.Proofs.Pipeline.PlainLoop
import ChunkFilters.Proofs.Pipeline.WriteRead
import ChunkFilters.Proofs.Pipeline.Composition
import ChunkFilters.Proofs.Pipeline.Lookup
import ChunkFilters.Proofs.Pipeline.Repetition
import ChunkFilters.Proofs.Pipeline.Failures
import ChunkFilters.Proofs.ScaleOffset.Integers
import ChunkFilters.Proofs.ScaleOffset.Agreement
import ChunkFilters.Proofs.Pipeline.Checksums
import ChunkFilters.Proofs.Pipeline.Skipping
import ChunkFilters.Proofs.Json.Grammar
import ChunkFilters.Proofs.Json.Scanning
import ChunkFilters.Proofs.Json.Values
import ChunkFilters.Proofs.Json.Printing
import ChunkFilters.Proofs.Pipeline.EntryJson
import ChunkFilters.Proofs.Pipeline.JsonRoundTrip
import ChunkFilters.Proofs.Registry.History
import ChunkFilters.Proofs.Fletcher32.Residue
import ChunkFilters.Proofs.Fletcher32.ClosedForm
import ChunkFilters.Proofs.Fletcher32.Corruption
import ChunkFilters.Proofs.Shuffle.Stripes
import ChunkFilters.Proofs.Deflate.Streaming
import ChunkFilters.Proofs.ScaleOffset.Acceptance
import ChunkFilters.Proofs.Bits.Extension
import ChunkFilters.Proofs.Bits.Sequences
import ChunkFilters.Proofs.Nbit.Stability
import ChunkFilters.Proofs.Bits.Exhaustion
import ChunkFilters.Proofs.Nbit.Counts
import ChunkFilters.Proofs.Pipeline.Offsets
import ChunkFilters.Proofs.ScaleOffset.Stability
import ChunkFilters.Proofs.Szip.Framing
import ChunkFilters.Proofs.Nbit.Rereading
import ChunkFilters.Proofs.Bits.Checked
