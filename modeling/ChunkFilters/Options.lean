/-!
# Configuration and options

A `Config` holds the settings that a program shares; `CodecOptions` are the settings of one call.
They start out as the configuration says and can be overridden call by call.
-/

namespace ChunkFilters

structure Config where
  /-- Whether filters that carry an error detection code verify it. -/
  validateChecksums : Bool := true
deriving DecidableEq, Repr

structure CodecOptions where
  validateChecksums : Bool
deriving DecidableEq, Repr

namespace CodecOptions

def ofConfig (config : Config) : CodecOptions := ⟨config.validateChecksums⟩

/-- The options of a call that may override the configuration. -/
def resolve (config : Config) (validateChecksums : Option Bool) : CodecOptions :=
  ⟨validateChecksums.getD config.validateChecksums⟩

end CodecOptions

end ChunkFilters
