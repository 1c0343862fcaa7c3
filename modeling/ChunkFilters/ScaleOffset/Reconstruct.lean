import ChunkFilters.ScaleOffset.Parameters

/-!
# Elements from packed offsets

An integer is its packed offset plus the minimum, modulo the width of the element. A floating point
number is its packed offset, read as a signed integer, divided by a power of ten, plus the minimum;
each step is rounded to the precision of the element. The packed value with all bits set stands for
the fill value where one is declared.
-/

namespace ChunkFilters.ScaleOffset

/-! ## Powers -/

/-- `result * base ^ exponent` by repeated squaring, from the lowest bit of the exponent up. The
order of the multiplications matters where they are rounded. -/
def power {α : Type} [Mul α] (exponent : Nat) (result base : α) : α :=
  if exponent = 0 then result
  else power (exponent / 2) (if exponent % 2 = 1 then result * base else result) (base * base)
termination_by exponent
decreasing_by omega

/-- A power of ten in double precision; a negative exponent divides one by the positive power. -/
def tenPower (exponent : Int) : Float :=
  let magnitude := power exponent.natAbs (1 : Float) 10
  if exponent < 0 then 1 / magnitude else magnitude

def tenPower32 (exponent : Int) : Float32 :=
  let magnitude := power exponent.natAbs (1 : Float32) 10
  if exponent < 0 then 1 / magnitude else magnitude

/-! ## Elements -/

/-- The integer at a packed offset from the minimum. -/
def offsetInteger (bits minimum packed : Nat) : Nat := (packed + minimum) % (1 <<< bits)

/-- The bit pattern of the double precision number at a packed offset from the minimum. -/
def offsetFloat (scaleFactor : Int) (minimum packed : Nat) : Nat :=
  let offset := (Int64.ofInt (Word.signed packed 64)).toFloat / tenPower scaleFactor
  (offset + Float.ofBits (UInt64.ofNat minimum)).toBits.toNat

/-- The bit pattern of the single precision number at a packed offset from the minimum. -/
def offsetFloat32 (scaleFactor : Int) (minimum packed : Nat) : Nat :=
  let offset := (Int32.ofInt (Word.signed packed 32)).toFloat32 / tenPower32 scaleFactor
  (offset + Float32.ofBits (UInt32.ofNat minimum)).toBits.toNat

/-- The packed value that stands for the fill value. -/
def sentinel (packedBits : Nat) : Nat := Word.lowMask packedBits

def reconstruct (parameters : Parameters) (packedBits minimum packed : Nat) : Nat :=
  match parameters.fill, decide (packed = sentinel packedBits) with
  | some fill, true => fill
  | _, _ =>
    match parameters.kind with
    | .float32 => offsetFloat32 parameters.scaleFactor minimum packed
    | .float64 => offsetFloat parameters.scaleFactor minimum packed
    | kind => offsetInteger kind.bits minimum packed

/-- Without a fill value no packed value is special. -/
theorem reconstruct_integer {parameters : Parameters} (hFill : parameters.fill = none)
    (hClass : parameters.kind.elementClass = .integer) (packedBits minimum packed : Nat) :
    reconstruct parameters packedBits minimum packed =
      offsetInteger parameters.kind.bits minimum packed := by
  unfold reconstruct
  rw [hFill]
  cases hKind : parameters.kind <;> simp_all [ElementKind.elementClass]

end ChunkFilters.ScaleOffset
