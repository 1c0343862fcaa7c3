import ChunkFilters.Bits.Packed

/-!
# Datatype descriptions

The parameters of a packed chunk describe the datatype of its elements as a flat list of numbers:

* atomic: size, byte order, precision, bit offset;
* array: size, class of the base, description of the base;
* compound: size, number of members, then for each member its offset, class and description;
* no-op: size.

The description of a datatype starts after its class. `skip` is the grammar of descriptions and
nothing more: it reads one from the front of a list and returns what follows. Arrays and compounds
nest at most `maxNesting` deep; `levels` counts how many more of them may be entered.
-/

namespace ChunkFilters.Nbit

/-- What is left to read of a description. -/
abbrev Description := List UInt32

inductive DatatypeClass where
  | atomic
  | array
  | compound
  /-- Stored as it is. -/
  | noOp
deriving DecidableEq, Repr

def DatatypeClass.ofParameter? (value : UInt32) : Option DatatypeClass :=
  match value.toNat with
  | 1 => some .atomic
  | 2 => some .array
  | 3 => some .compound
  | 4 => some .noOp
  | _ => none

def maxNesting : Nat := 32

/-- Why a list of numbers describes no datatype, or one that does not fit where it stands. -/
inductive DescriptionError where
  /-- The list ends before the description does. -/
  | truncated
  | invalidClass (value : UInt32)
  | invalidByteOrder (value : UInt32)
  | invalidAtomic (fault : PackedAtomic.Fault)
  | tooDeep
  /-- `size` bytes at `offset` do not fit into the enclosing bytes. -/
  | outside (size offset enclosing : Nat)
  /-- A member starts beyond the end of its compound. -/
  | memberOutside (offset : Nat)
  | baseSizeZero
deriving DecidableEq, Repr

/-- The wording of an error in a list of `count` parameters: a truncated description always ends
where the list does. -/
def DescriptionError.message (count : Nat) : DescriptionError → String
  | truncated => s!"datatype description truncated at value {count}"
  | invalidClass value => s!"invalid datatype class {value.toNat}"
  | invalidByteOrder value => s!"invalid byte order {value.toNat}"
  | invalidAtomic fault => fault.message
  | tooDeep => s!"datatype nesting exceeds {maxNesting} levels"
  | outside size offset enclosing =>
    s!"{size} bytes at offset {offset} exceed the enclosing {enclosing} bytes"
  | memberOutside offset => s!"member offset {offset} exceeds the compound size"
  | baseSizeZero => "array base datatype size is zero"

namespace Description

/-! ## Reading from the front -/

def next : Description → Except DescriptionError (UInt32 × Description)
  | [] => .error .truncated
  | value :: rest => .ok (value, rest)

/-- The next number, as a size, an offset or a count. -/
def nextSize (description : Description) : Except DescriptionError (Nat × Description) := do
  let (value, rest) ← description.next
  return (value.toNat, rest)

/-- The next number, left in place. -/
def peekSize (description : Description) : Except DescriptionError Nat := do
  let (value, _) ← description.next
  return value.toNat

def nextClass (description : Description) :
    Except DescriptionError (DatatypeClass × Description) := do
  let (value, rest) ← description.next
  match DatatypeClass.ofParameter? value with
  | some datatypeClass => return (datatypeClass, rest)
  | none => .error (.invalidClass value)

def nextAtomic (description : Description) :
    Except DescriptionError (PackedAtomic × Description) := do
  let (size, rest) ← description.nextSize
  let (value, rest) ← rest.next
  match ByteOrder.ofParameter? value with
  | none => .error (.invalidByteOrder value)
  | some order =>
    let (precision, rest) ← nextSize rest
    let (offset, rest) ← nextSize rest
    let layout : PackedAtomic := { size, order, precision, offset }
    match layout.fault? with
    | some fault => .error (.invalidAtomic fault)
    | none => return (layout, rest)

/-! ## The grammar -/

/-- Skips the members of a compound, given how to skip the description of each. -/
def skipMembers (skip : DatatypeClass → Description → Except DescriptionError Description) :
    Nat → Description → Except DescriptionError Description
  | 0, description => .ok description
  | count + 1, description => do
    let (_, rest) ← description.next
    let (memberClass, rest) ← nextClass rest
    skipMembers skip count (← skip memberClass rest)

/-- Skips the description of a datatype in which arrays and compounds nest at most `levels` deep. -/
def skip : Nat → DatatypeClass → Description → Except DescriptionError Description
  | _, .atomic, description => do
    let (_, rest) ← description.nextAtomic
    return rest
  | _, .noOp, description => do
    let (_, rest) ← description.next
    return rest
  | 0, .array, _ => .error .tooDeep
  | 0, .compound, _ => .error .tooDeep
  | levels + 1, .array, description => do
    let (_, rest) ← description.next
    let (baseClass, rest) ← nextClass rest
    skip levels baseClass rest
  | levels + 1, .compound, description => do
    let (_, rest) ← description.next
    let (count, rest) ← nextSize rest
    skipMembers (skip levels) count rest

end Description

end ChunkFilters.Nbit
