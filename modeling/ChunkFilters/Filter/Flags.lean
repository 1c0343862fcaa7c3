/-!
# Flags, masks and directions

`FilterFlags` are the sixteen bits that reach a filter: those stored with a pipeline entry, joined
with those of the invocation. `FilterMask` has one bit for each entry of a pipeline and says which
entries a chunk was stored without.
-/

namespace ChunkFilters

structure FilterFlags where
  bits : BitVec 16
deriving DecidableEq, Repr

namespace FilterFlags

def none : FilterFlags := ⟨0⟩

/-- A failure to apply the filter when a chunk is written is no error. -/
def optional : FilterFlags := ⟨0x0001⟩

/-- The filter is undone, not applied. -/
def reverse : FilterFlags := ⟨0x0100⟩

/-- Error detection codes are not verified. -/
def skipEdc : FilterFlags := ⟨0x0200⟩

instance : OrOp FilterFlags := ⟨fun left right => ⟨left.bits ||| right.bits⟩⟩

def contains (flags wanted : FilterFlags) : Bool := flags.bits &&& wanted.bits == wanted.bits

@[simp] theorem bits_or (left right : FilterFlags) :
    (left ||| right).bits = left.bits ||| right.bits :=
  rfl

theorem contains_or_left {flags wanted : FilterFlags} (h : flags.contains wanted = true)
    (others : FilterFlags) : (flags ||| others).contains wanted = true := by
  simp only [contains, beq_iff_eq, bits_or] at h ⊢
  rw [← h]
  ext i hi
  simp
  cases flags.bits[i] <;> cases wanted.bits[i] <;> simp

end FilterFlags

/-- Bit `i` is set when the filter of entry `i` is not to be undone. -/
abbrev FilterMask := BitVec 32

namespace FilterMask

def skips (mask : FilterMask) (index : Nat) : Bool := mask.getLsbD index

/-- The mask that skips one entry and no other. -/
def only (index : Nat) : FilterMask := BitVec.twoPow 32 index

theorem skips_or (left right : FilterMask) (index : Nat) :
    skips (left ||| right) index = (skips left index || skips right index) := by
  simp [skips]

theorem skips_only {index : Nat} (h : index < 32) (other : Nat) :
    skips (only index) other = decide (index = other) := by
  simp only [skips, only, BitVec.getLsbD_twoPow]
  simp [h]

end FilterMask

/-- Which way a pipeline is run: to store a chunk or to read it. -/
inductive Direction where
  | encode
  | decode
deriving DecidableEq, Repr

end ChunkFilters
