import ChunkFilters.Error

/-!
# Error reports

A report classifies an error for whoever collects errors while a file is checked: was the file at
fault or the checker, in which area, and at which byte or for which value.
-/

namespace ChunkFilters

inductive ErrorClass where
  /-- The stored bytes do not conform to their format. -/
  | format
  /-- The checker could not proceed. -/
  | internal
deriving DecidableEq, Repr

inductive ErrorSubclass where
  | registry
  | pipeline
  | checksum
  | decompression
  | parameters
  | data
  | resource
  | unsupported
deriving DecidableEq, Repr

def ErrorClass.label : ErrorClass → String
  | format => "Format"
  | internal => "Internal"

def ErrorSubclass.label : ErrorSubclass → String
  | registry => "Registry"
  | pipeline => "Pipeline"
  | checksum => "Checksum"
  | decompression => "Decompression"
  | parameters => "Parameters"
  | data => "Data"
  | resource => "Resource"
  | unsupported => "Unsupported"

structure ErrorReport where
  primary : ErrorClass
  secondary : ErrorSubclass
  message : String
  /-- The byte at which the error was found, if known. -/
  offset : Option Nat := none
  /-- A decoded value that goes with the error, if there is one. -/
  value : Option Nat := none
deriving DecidableEq, Repr

/-- The report in one line: classes, message, then offset and value where they are known. -/
def ErrorReport.text (report : ErrorReport) : String :=
  let offset := match report.offset with
    | some offset => s!" (at byte offset {offset})"
    | none => ""
  let value := match report.value with
    | some value => s!" (value {value})"
    | none => ""
  s!"{report.primary.label}/{report.secondary.label}: {report.message}{offset}{value}"

def CodecError.report (error : CodecError) : ErrorReport :=
  let message := error.message
  match error with
  | .encodeUnsupported _ => { primary := .internal, secondary := .pipeline, message }
  | .allocation size =>
    { primary := .internal, secondary := .resource, message, value := some size }
  | .invalidChecksum stored _ =>
    { primary := .format, secondary := .checksum, message, value := some stored.toNat }
  | .inflate _ | .external _ _ => { primary := .format, secondary := .decompression, message }
  | .invalidParameters _ _ => { primary := .format, secondary := .parameters, message }
  | .invalidData _ offset => { primary := .format, secondary := .data, message, offset }
  | .unsupported _ => { primary := .internal, secondary := .unsupported, message }
  | .other _ => { primary := .internal, secondary := .data, message }

def RegistryError.report (error : RegistryError) : ErrorReport :=
  match error with
  | .invalidFilterId id =>
    { primary := .internal, secondary := .registry, message := error.message,
      value := some id.value.toNat }

theorem CodecError.report_message (error : CodecError) : error.report.message = error.message := by
  cases error <;> rfl

end ChunkFilters
