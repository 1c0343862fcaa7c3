import ChunkFilters.Element.Word
import ChunkFilters.Error

/-!
# Parameters of scaled offsets

Eight parameters describe the chunk: scale type, scale factor, number of elements, element class,
size, sign, byte order, and whether there is a fill value, which follows if so. They are checked in
an order of their own, and the first fault decides. Scaling by a power of two is well described but
not supported, so it is refused before anything else is looked at.
-/

namespace ChunkFilters.ScaleOffset

def name : String := "scaleoffset"

/-- How elements were scaled before the minimum was taken off. -/
inductive ScaleType where
  /-- Floating point, by a power of ten. -/
  | decimal
  /-- Floating point, by a power of two. -/
  | binary
  /-- Integers, not at all. -/
  | integer
deriving DecidableEq, Repr

inductive ParameterError where
  | tooFew (count : Nat)
  | invalidScaleType (value : UInt32)
  | binaryScaling
  | invalidClass (value : UInt32)
  | invalidFloatScaleType (value : UInt32)
  | invalidIntegerScaleType (value : UInt32)
  | invalidSign (value : UInt32)
  | invalidSize (value : UInt32)
  | invalidByteOrder (value : UInt32)
  | fillTruncated
deriving DecidableEq, Repr

def fixedCount : Nat := 8

def ParameterError.toCodecError : ParameterError → CodecError
  | binaryScaling => .unsupported "the scaleoffset E-scale method"
  | tooFew count => .invalidParameters name s!"expected at least {fixedCount} values, got {count}"
  | invalidScaleType value => .invalidParameters name s!"invalid scale type {value.toNat}"
  | invalidClass value => .invalidParameters name s!"invalid class {value.toNat}"
  | invalidFloatScaleType value =>
    .invalidParameters name s!"invalid scale type for a float {value.toNat}"
  | invalidIntegerScaleType value =>
    .invalidParameters name s!"invalid scale type for an integer {value.toNat}"
  | invalidSign value => .invalidParameters name s!"invalid sign {value.toNat}"
  | invalidSize value => .invalidParameters name s!"invalid size {value.toNat}"
  | invalidByteOrder value => .invalidParameters name s!"invalid byte order {value.toNat}"
  | fillTruncated => .invalidParameters name "the fill value is truncated"

structure Parameters where
  /-- The power of ten by which floating point elements were multiplied. -/
  scaleFactor : Int
  elements : Nat
  kind : ElementKind
  order : ByteOrder
  /-- The word that stands for a missing value, if one is declared. -/
  fill : Option Nat
deriving DecidableEq, Repr

/-! ## Single parameters -/

/-- The scale type named by a parameter. Scaling by a power of two goes no further. -/
def scaleType (value : UInt32) : Except ParameterError ScaleType :=
  match value.toNat with
  | 0 => .ok .decimal
  | 1 => .error .binaryScaling
  | 2 => .ok .integer
  | _ => .error (.invalidScaleType value)

/-- The element class named by a parameter, which has to suit the scale type. -/
def elementClass (scaling : ScaleType) (scaleValue value : UInt32) :
    Except ParameterError ElementClass :=
  match value.toNat, scaling with
  | 0, .integer => .ok .integer
  | 0, _ => .error (.invalidIntegerScaleType scaleValue)
  | 1, .decimal => .ok .float
  | 1, _ => .error (.invalidFloatScaleType scaleValue)
  | _, _ => .error (.invalidClass value)

def isSigned (value : UInt32) : Except ParameterError Bool :=
  match value.toNat with
  | 0 => .ok false
  | 1 => .ok true
  | _ => .error (.invalidSign value)

def elementKind (elementClass : ElementClass) (signed : Bool) (value : UInt32) :
    Except ParameterError ElementKind :=
  match ElementKind.ofShape? elementClass value.toNat signed with
  | some kind => .ok kind
  | none => .error (.invalidSize value)

def byteOrder (value : UInt32) : Except ParameterError ByteOrder :=
  match ByteOrder.ofParameter? value with
  | some order => .ok order
  | none => .error (.invalidByteOrder value)

/-- The fill value, if a nonzero parameter declares one. -/
def fillValue (declared : UInt32) (params : List UInt32) (size : Nat) :
    Except ParameterError (Option Nat) :=
  if declared = 0 then .ok none
  else match Word.ofParameters? params size with
    | some fill => .ok (some fill)
    | none => .error .fillTruncated

def Parameters.ofParams (params : List UInt32) : Except ParameterError Parameters :=
  match params with
  | scaleValue :: scaleFactor :: elements :: classValue :: size :: sign :: order :: fillDeclared ::
      fillParams => do
    let scaling ← scaleType scaleValue
    let elementClass ← elementClass scaling scaleValue classValue
    let signed ← isSigned sign
    let kind ← elementKind elementClass signed size
    let order ← byteOrder order
    let fill ← fillValue fillDeclared fillParams kind.size
    return {
      scaleFactor := scaleFactor.toBitVec.toInt
      elements := elements.toNat
      kind
      order
      fill }
  | _ => .error (.tooFew params.length)

end ChunkFilters.ScaleOffset
