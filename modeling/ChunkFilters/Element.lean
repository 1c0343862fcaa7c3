/-!
# Numeric elements

The elements of a chunk are integers or binary floating point numbers of one, two, four or eight
bytes, stored in one of two byte orders. `ElementKind` is the closed set of the kinds that a filter
can reconstruct; every other combination of class and size has no kind.
-/

namespace ChunkFilters

/-- The order of the bytes of an element, by which of them comes first. -/
inductive ByteOrder where
  | little
  | big
deriving DecidableEq, Repr

namespace ByteOrder

/-- The order in which elements are assembled before they are brought into their stored order. -/
def native : ByteOrder := .little

def ofParameter? (value : UInt32) : Option ByteOrder :=
  match value.toNat with
  | 0 => some .little
  | 1 => some .big
  | _ => none

end ByteOrder

inductive ElementClass where
  | integer
  | float
deriving DecidableEq, Repr

inductive ElementKind where
  | uint8 | int8
  | uint16 | int16
  | uint32 | int32
  | uint64 | int64
  | float32 | float64
deriving DecidableEq, Repr

namespace ElementKind

/-- The kind of an element with a given class, size in bytes and sign. The sign of a floating point
element carries no information. -/
def ofShape? : ElementClass → Nat → Bool → Option ElementKind
  | .integer, 1, false => some uint8
  | .integer, 1, true => some int8
  | .integer, 2, false => some uint16
  | .integer, 2, true => some int16
  | .integer, 4, false => some uint32
  | .integer, 4, true => some int32
  | .integer, 8, false => some uint64
  | .integer, 8, true => some int64
  | .float, 4, _ => some float32
  | .float, 8, _ => some float64
  | _, _, _ => none

def size : ElementKind → Nat
  | uint8 | int8 => 1
  | uint16 | int16 => 2
  | uint32 | int32 | float32 => 4
  | uint64 | int64 | float64 => 8

def bits (kind : ElementKind) : Nat := 8 * kind.size

def elementClass : ElementKind → ElementClass
  | float32 | float64 => .float
  | _ => .integer

def isSigned : ElementKind → Bool
  | int8 | int16 | int32 | int64 => true
  | _ => false

theorem ofShape?_integer_size {size : Nat} {signed : Bool} {kind : ElementKind}
    (h : ofShape? .integer size signed = some kind) : kind.size = size := by
  unfold ofShape? at h
  split at h <;> simp_all [ElementKind.size] <;> subst_vars <;> rfl

theorem bits_le_64 (kind : ElementKind) : kind.bits ≤ 64 := by
  cases kind <;> decide

end ElementKind

end ChunkFilters
