import ChunkFilters.Bits.Cursor
import ChunkFilters.Filter.Id

/-!
# What can go wrong in a filter or a registry

Errors are causes; their wording is in `message` and nowhere else. A *fatal* error is one that no
failure handler of a pipeline gets to see: the request itself cannot be met.
-/

namespace ChunkFilters

inductive CodecError where
  | encodeUnsupported (filter : String)
  | allocation (size : Nat)
  | invalidChecksum (stored computed : UInt32)
  /-- The compressed stream is malformed or cut short. -/
  | inflate (reason : String)
  | invalidParameters (filter reason : String)
  /-- The encoded bytes are malformed, at the given byte if that is known. -/
  | invalidData (description : String) (offset : Option Nat)
  | unsupported (feature : String)
  /-- An entropy decoder gave up. -/
  | external (library reason : String)
  | other (description : String)
deriving DecidableEq, Repr

inductive RegistryError where
  | invalidFilterId (id : FilterId)
deriving DecidableEq, Repr

/-! ## Wording -/

def hexDigits (value : UInt32) : String :=
  String.ofList ((List.range 8).map fun i => (value.toNat >>> (4 * (7 - i)) % 16).digitChar)

namespace CodecError

def message : CodecError → String
  | encodeUnsupported filter => s!"the {filter} filter only supports decoding"
  | allocation size => s!"failed to allocate {size} bytes"
  | invalidChecksum stored computed =>
    s!"the stored checksum 0x{hexDigits stored} does not match " ++
      s!"the computed checksum 0x{hexDigits computed}"
  | inflate reason => s!"inflate failed: {reason}"
  | invalidParameters filter reason => s!"invalid {filter} filter parameters: {reason}"
  | invalidData description _ => description
  | unsupported feature => s!"unsupported: {feature}"
  | external library reason => s!"{library} failed: {reason}"
  | other description => description

/-- Packed input that ends too early is malformed at the byte that is missing. -/
def ofExhausted (error : Exhausted) : CodecError :=
  invalidData error.message (some error.byteIndex)

/-- Whether the error ends a pipeline run without the failure handler being asked. -/
def isFatal : CodecError → Bool
  | encodeUnsupported _ | unsupported _ => true
  | _ => false

theorem isFatal_iff (error : CodecError) :
    error.isFatal = true ↔
      (∃ filter, error = encodeUnsupported filter) ∨ ∃ feature, error = unsupported feature := by
  cases error <;> simp [isFatal]

end CodecError

namespace RegistryError

def message : RegistryError → String
  | invalidFilterId id => s!"filter identifier {id} is reserved for user-defined filters"

end RegistryError

end ChunkFilters
