import ChunkFilters.Bytes
import ChunkFilters.Error

/-!
# Buffers and the memory they come from

Which buffers can be reserved is up to the memory that a program runs in. `Memory` says no more of
it than that smaller buffers are easier to get than larger ones, that an empty one costs nothing,
and that none is larger than a signed 64-bit integer can tell.

A buffer may have room behind its bytes. The filter that comes next is told of that room.
-/

namespace ChunkFilters

/-! ## Memory -/

/-- One more than the largest signed 64-bit integer. -/
def Memory.ceiling : Nat := 1 <<< 63

/-- The sizes of the buffers that can be reserved. -/
structure Memory where
  allows : Nat → Bool
  allows_zero : allows 0 = true
  allows_of_le : ∀ {smaller size : Nat}, smaller ≤ size → allows size = true →
    allows smaller = true
  lt_of_allows : ∀ {size : Nat}, allows size = true → size < Memory.ceiling

namespace Memory

/-- A memory of `limit` bytes that no other buffer lies in. -/
def below (limit : Nat) (hPos : 0 < limit) (hLimit : limit ≤ ceiling) : Memory where
  allows size := size < limit
  allows_zero := decide_eq_true hPos
  allows_of_le hLe h := decide_eq_true (Nat.lt_of_le_of_lt hLe (of_decide_eq_true h))
  lt_of_allows h := Nat.lt_of_lt_of_le (of_decide_eq_true h) hLimit

/-- What a process can address with 47 bits. -/
def standard : Memory := below (1 <<< 47) (by decide) (by decide)

def reserve (memory : Memory) (size : Nat) : Except CodecError Unit :=
  if memory.allows size then .ok () else .error (.allocation size)

/-- An answer that consists of the given bytes, in a buffer that has to be reserved for them. -/
def holding (memory : Memory) (bytes : Bytes) : Except CodecError Bytes :=
  (memory.reserve bytes.length).map fun _ => bytes

variable {memory : Memory} {size : Nat} {bytes : Bytes}

theorem allows_max_of_le {smaller : Nat} (hLe : smaller ≤ size)
    (h : memory.allows (max size 1) = true) : memory.allows (max smaller 1) = true :=
  memory.allows_of_le (by omega) h

theorem reserve_of_allows (h : memory.allows size = true) : memory.reserve size = .ok () :=
  if_pos h

theorem reserve_of_not_allows (h : memory.allows size = false) :
    memory.reserve size = .error (.allocation size) :=
  if_neg (Bool.eq_false_iff.mp h)

theorem holding_of_allows (h : memory.allows bytes.length = true) :
    memory.holding bytes = .ok bytes := by
  rw [holding, reserve_of_allows h]
  rfl

theorem allows_of_reserve (h : memory.reserve size = .ok ()) : memory.allows size = true := by
  cases hAllows : memory.allows size with
  | true => rfl
  | false =>
    rw [reserve_of_not_allows hAllows] at h
    cases h

end Memory

/-! ## Buffers -/

structure Buffer where
  bytes : Bytes
  /-- The number of bytes that there is room for behind the others. -/
  spare : Nat
deriving DecidableEq, Repr

namespace Buffer

/-- A buffer that is just large enough. -/
def exact (bytes : Bytes) : Buffer := ⟨bytes, 0⟩

instance : Coe Bytes Buffer := ⟨exact⟩

def capacity (buffer : Buffer) : Nat := buffer.bytes.length + buffer.spare

/-- Drops the bytes after the first `count`. Their room is left. -/
def truncate (count : Nat) (buffer : Buffer) : Buffer :=
  ⟨buffer.bytes.take count, buffer.spare + (buffer.bytes.length - count)⟩

/-- Writes bytes behind the others, into the room that there is. -/
def append (buffer : Buffer) (more : Bytes) : Buffer :=
  ⟨buffer.bytes ++ more, buffer.spare - more.length⟩

@[simp] theorem capacity_exact (bytes : Bytes) : (exact bytes).capacity = bytes.length := rfl

theorem capacity_append {buffer : Buffer} {more : Bytes} (h : more.length ≤ buffer.spare) :
    (buffer.append more).capacity = buffer.capacity := by
  simp only [capacity, append, List.length_append]
  omega

theorem length_le_capacity (buffer : Buffer) : buffer.bytes.length ≤ buffer.capacity :=
  Nat.le_add_right _ _

end Buffer

end ChunkFilters
