import ChunkFilters.Bits.Packed

/-!
# Layouts

A layout says how the packed bits of one element are spread over its bytes: atomic leaves that are
unpacked and verbatim leaves that are copied, in the order in which their bits follow each other.
`leaves` lists them with their places. `unpack` goes through the layout without listing it, because
a short layout can have many leaves and the input may end after a few.
-/

namespace ChunkFilters.Nbit

inductive Layout where
  | nothing
  | atomic (layout : PackedAtomic)
  | verbatim (size : Nat)
  /-- A layout that starts `offset` bytes further on. -/
  | shifted (offset : Nat) (layout : Layout)
  | both (first second : Layout)
  /-- `count` copies of a layout, each `stride` bytes after the one before it. -/
  | repeated (count stride : Nat) (base : Layout)
deriving DecidableEq, Repr

/-- A leaf of a layout and the byte at which it starts. -/
inductive Leaf where
  | atomic (start : Nat) (layout : PackedAtomic)
  | verbatim (start size : Nat)
deriving DecidableEq, Repr

/-- The state of unpacking one element: its bytes, and where the packed input is read. -/
abbrev Unpacking := Array UInt8 × BitCursor

/-- Drops the bytes that were written before the input ran out. -/
def dropWritten : Except Interrupted Unpacking → Except Exhausted Unpacking
  | .ok state => .ok state
  | .error interrupted => .error interrupted.error

namespace Leaf

def bits : Leaf → Nat
  | atomic _ layout => layout.precision
  | verbatim _ size => 8 * size

def unpack (leaf : Leaf) (state : Unpacking) : Except Exhausted Unpacking :=
  match leaf with
  | atomic start layout => dropWritten (layout.unpack start state.1 state.2)
  | verbatim start size => dropWritten (state.2.copyBytes start size state.1)

theorem size_unpack {leaf : Leaf} {state after : Unpacking} (h : leaf.unpack state = .ok after) :
    after.1.size = state.1.size := by
  unfold unpack dropWritten at h
  split at h <;> split at h <;> simp only [Except.ok.injEq, reduceCtorEq] at h <;> subst h
  · next heq => exact PackedAtomic.size_unpack heq
  · next heq => exact BitCursor.size_copyBytes heq

end Leaf

def unpackLeaves : List Leaf → Unpacking → Except Exhausted Unpacking
  | [], state => .ok state
  | leaf :: rest, state =>
    match leaf.unpack state with
    | .error error => .error error
    | .ok state => unpackLeaves rest state

theorem size_unpackLeaves {leaves : List Leaf} {state after : Unpacking}
    (h : unpackLeaves leaves state = .ok after) : after.1.size = state.1.size := by
  induction leaves generalizing state with
  | nil =>
    cases h
    rfl
  | cons leaf rest ih =>
    rw [unpackLeaves] at h
    split at h
    · cases h
    · next hFirst => rw [ih h, Leaf.size_unpack hFirst]

theorem unpackLeaves_append (first second : List Leaf) (state : Unpacking) :
    unpackLeaves (first ++ second) state =
      match unpackLeaves first state with
      | .error error => .error error
      | .ok state => unpackLeaves second state := by
  induction first generalizing state with
  | nil => rfl
  | cons leaf rest ih =>
    simp only [List.cons_append, unpackLeaves]
    cases leaf.unpack state with
    | error error => rfl
    | ok state => exact ih state

namespace Layout

/-- The leaves of `count` copies, given those of one copy by its start. -/
def repeatLeaves (leaves : Nat → List Leaf) (stride : Nat) : Nat → Nat → List Leaf
  | 0, _ => []
  | count + 1, start => leaves start ++ repeatLeaves leaves stride count (start + stride)

/-- The leaves of a layout that starts at a given byte, in the order of their packed bits. -/
def leaves : Layout → Nat → List Leaf
  | nothing, _ => []
  | atomic layout, start => [.atomic start layout]
  | verbatim size, start => [.verbatim start size]
  | shifted offset layout, start => layout.leaves (start + offset)
  | both first second, start => first.leaves start ++ second.leaves start
  | repeated count stride base, start => repeatLeaves base.leaves stride count start

/-- Unpacks `count` copies, given how to unpack one copy by its start. -/
def repeatUnpack (unpack : Nat → Unpacking → Except Exhausted Unpacking) (stride : Nat) :
    Nat → Nat → Unpacking → Except Exhausted Unpacking
  | 0, _, state => .ok state
  | count + 1, start, state =>
    match unpack start state with
    | .error error => .error error
    | .ok state => repeatUnpack unpack stride count (start + stride) state

def unpack : Layout → Nat → Unpacking → Except Exhausted Unpacking
  | nothing, _, state => .ok state
  | atomic layout, start, state => Leaf.unpack (.atomic start layout) state
  | verbatim size, start, state => Leaf.unpack (.verbatim start size) state
  | shifted offset layout, start, state => layout.unpack (start + offset) state
  | both first second, start, state =>
    match first.unpack start state with
    | .error error => .error error
    | .ok state => second.unpack start state
  | repeated count stride base, start, state => repeatUnpack base.unpack stride count start state

/-- Going through a layout is going through its leaves. -/
theorem unpack_eq_unpackLeaves (layout : Layout) (start : Nat) (state : Unpacking) :
    layout.unpack start state = unpackLeaves (layout.leaves start) state := by
  induction layout generalizing start state with
  | nothing => rfl
  | atomic layout =>
    simp only [unpack, leaves, unpackLeaves]
    cases Leaf.unpack (.atomic start layout) state <;> rfl
  | verbatim size =>
    simp only [unpack, leaves, unpackLeaves]
    cases Leaf.unpack (.verbatim start size) state <;> rfl
  | shifted offset layout ih => exact ih (start + offset) state
  | both first second ihFirst ihSecond =>
    simp only [unpack, leaves, unpackLeaves_append, ihFirst]
    cases unpackLeaves (first.leaves start) state with
    | error error => rfl
    | ok state => exact ihSecond start state
  | repeated count stride base ih =>
    simp only [unpack, leaves]
    induction count generalizing start state with
    | zero => rfl
    | succ count ihCount =>
      simp only [repeatUnpack, repeatLeaves, unpackLeaves_append, ih]
      cases unpackLeaves (base.leaves start) state with
      | error error => rfl
      | ok state => exact ihCount (start + stride) state

end Layout

end ChunkFilters.Nbit
