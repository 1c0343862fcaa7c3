import ChunkFilters.Deflate
import ChunkFilters.Fletcher32
import ChunkFilters.Nbit
import ChunkFilters.Registry
import ChunkFilters.ScaleOffset
import ChunkFilters.Shuffle
import ChunkFilters.Szip

/-!
# Built-in filters

Six filters come with the library, one plugin for each. They need memory for their output, and two
of them rely on decoders for the streams that they undo. All of this is the `Host`; what is proved
of built-in filters holds on every host.
-/

namespace ChunkFilters

/-- What the built-in filters are given to work with. -/
structure Host where
  memory : Memory
  inflater : Zlib.StreamDecoder
  entropyDecoder : Szip.EntropyDecoder

/-- The host with the decoders that come with the library. -/
def Host.standard : Host := ⟨.standard, Zlib.expander, Szip.entropyDecoder⟩

namespace Filter

/-- The built-in filters on a host, by ascending identifier. -/
def builtinOn (host : Host) : List Filter :=
  [Deflate.filter host.memory host.inflater,
    Shuffle.filter host.memory,
    Fletcher32.filter,
    Szip.filter host.memory host.entropyDecoder,
    Nbit.filter host.memory,
    ScaleOffset.filter host.memory]

def builtin : List Filter := builtinOn .standard

end Filter

namespace Registry

def builtinOn (host : Host) : Registry :=
  ofPlugins ((Filter.builtinOn host).map fun filter =>
    { filterId := filter.id, create := fun _ => filter })

def builtin : Registry := builtinOn .standard

theorem ids_builtinOn (host : Host) :
    (builtinOn host).ids = [⟨1⟩, ⟨2⟩, ⟨3⟩, ⟨4⟩, ⟨5⟩, ⟨6⟩] := rfl

end Registry

end ChunkFilters
