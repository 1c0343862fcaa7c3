import ChunkFilters.Nbit.Description
import ChunkFilters.Nbit.Layout

/-!
# From a description to a layout

A walk reads a datatype description against the bytes that its element has, and turns it into the
layout of the element. A description may be refused half way. What the walk has laid out before
that point is kept, because input that ends within it is reported first.

Nothing here looks at packed input, so a description has one layout and one end, whatever is
unpacked with it. The base of an array is laid out once and repeated; the base of an array that is
too short for a single element is only skipped.
-/

namespace ChunkFilters.Nbit

/-- The layout up to where the walk stopped, and what is left of the description or why it was
refused. -/
structure Walk where
  layout : Layout
  ending : Except DescriptionError Description

namespace Walk

/-! ## Steps -/

def fail (error : DescriptionError) : Walk := ⟨.nothing, .error error⟩

def emit (layout : Layout) (rest : Description) : Walk := ⟨layout, .ok rest⟩

def reading {α : Type} (result : Except DescriptionError (α × Description))
    (next : α → Description → Walk) : Walk :=
  match result with
  | .error error => fail error
  | .ok (value, rest) => next value rest

/-- Goes on unless `size` bytes at `offset` reach beyond the enclosing bytes. -/
def fitting (size offset enclosing : Nat) (walk : Walk) : Walk :=
  if offset + size ≤ enclosing then walk else fail (.outside size offset enclosing)

/-- Goes on after a walk that was not refused. -/
def andThen (walk : Walk) (next : Description → Walk) : Walk :=
  match walk.ending with
  | .error _ => walk
  | .ok rest =>
    let second := next rest
    ⟨.both walk.layout second.layout, second.ending⟩

def shifted (offset : Nat) (walk : Walk) : Walk :=
  { walk with layout := .shifted offset walk.layout }

/-- The walk of each of `count` elements, at least one, that are `stride` bytes apart. A base that
is refused is refused in the first of them. -/
def repeated (count stride : Nat) (walk : Walk) : Walk :=
  match walk.ending with
  | .error _ => walk
  | .ok rest => emit (.repeated count stride walk.layout) rest

/-! ## Datatypes -/

/-- An atomic datatype at an offset of the enclosing bytes. -/
def atomic (offset enclosing : Nat) (description : Description) : Walk :=
  reading description.nextAtomic fun layout rest =>
    fitting layout.size offset enclosing (emit (.shifted offset (.atomic layout)) rest)

/-- A no-op datatype at an offset of the enclosing bytes. -/
def noOp (offset enclosing : Nat) (description : Description) : Walk :=
  reading description.nextSize fun size rest =>
    fitting size offset enclosing (emit (.shifted offset (.verbatim size)) rest)

/-- An array or compound inside another one: its class, its bytes, its description. -/
abbrev Nested := DatatypeClass → Nat → Description → Walk

/-- The elements of an array of `size` bytes whose base is itself an array or a compound. Each
element has as many bytes as the description of the base says at its front. -/
def nestedElements (nested : Nested) (skip : Description → Except DescriptionError Description)
    (baseClass : DatatypeClass) (size : Nat) (description : Description) : Walk :=
  match description.peekSize with
  | .error error => fail error
  | .ok baseSize =>
    if baseSize = 0 then fail .baseSizeZero
    else if size / baseSize = 0 then ⟨.nothing, skip description⟩
    else (nested baseClass baseSize description).repeated (size / baseSize) baseSize

/-- An array at the start of the enclosing bytes. An array of no-op bases is one run of bytes, and
the size of its base plays no part. -/
def array (nested : Nested)
    (skip : DatatypeClass → Description → Except DescriptionError Description)
    (enclosing : Nat) (description : Description) : Walk :=
  reading description.nextSize fun size rest =>
    fitting size 0 enclosing <|
      reading rest.nextClass fun baseClass rest =>
        match baseClass with
        | .atomic =>
          reading rest.nextAtomic fun layout rest =>
            emit (.repeated (size / layout.size) layout.size (.atomic layout)) rest
        | .noOp => reading rest.next fun _ rest => emit (.verbatim size) rest
        | .array | .compound => nestedElements nested (skip baseClass) baseClass size rest

/-- A member at an offset of a compound of `size` bytes. -/
def compoundMember (nested : Nested) (size offset : Nat) (memberClass : DatatypeClass)
    (description : Description) : Walk :=
  match memberClass with
  | .atomic => atomic offset size description
  | .noOp => noOp offset size description
  | .array | .compound =>
    if offset ≤ size then (nested memberClass (size - offset) description).shifted offset
    else fail (.memberOutside offset)

def members (nested : Nested) (size : Nat) : Nat → Description → Walk
  | 0, description => emit .nothing description
  | count + 1, description =>
    reading description.nextSize fun offset rest =>
      reading rest.nextClass fun memberClass rest =>
        (compoundMember nested size offset memberClass rest).andThen (members nested size count)

def compound (nested : Nested) (enclosing : Nat) (description : Description) : Walk :=
  reading description.nextSize fun size rest =>
    fitting size 0 enclosing <|
      reading rest.nextSize fun count rest => members nested size count rest

/-- A datatype at the start of the enclosing bytes, with arrays and compounds nested at most
`levels` deep. -/
def datatype : Nat → DatatypeClass → Nat → Description → Walk
  | _, .atomic, enclosing, description => atomic 0 enclosing description
  | _, .noOp, enclosing, description => noOp 0 enclosing description
  | 0, .array, _, _ => fail .tooDeep
  | 0, .compound, _, _ => fail .tooDeep
  | levels + 1, .array, enclosing, description =>
    array (datatype levels) (Description.skip levels) enclosing description
  | levels + 1, .compound, enclosing, description =>
    compound (datatype levels) enclosing description

end Walk

end ChunkFilters.Nbit
