import ChunkFilters.Nbit
import ChunkFilters.Proofs.Element
import ChunkFilters.Proofs.Nbit.Leaves

/-!
# Datatype trees

A description is a datatype tree written out as numbers. `Datatype` is that tree, `description` how
it is written, and `leaves` the places of its atomic and verbatim parts in the bytes of an element.

What makes a tree acceptable comes in three parts. `Valid` looks at the atomic parts alone, wherever
they are. `depth` counts the arrays and compounds inside each other. `Fits` compares sizes, but only
in those parts that are decoded: the base of an array that is too short for one of them is not.

* `bitCount_leaves`: `bits` adds up the bits of the leaves without listing them.
* `valid_of_mem_leaves`: the leaves of a valid tree are valid.
* `inside_of_mem_leaves`: the leaves of a tree that fits lie within its size.
-/

namespace ChunkFilters

namespace Nbit

/-! ## Codes -/

/-- The number that stands for a class. -/
def DatatypeClass.code : DatatypeClass → UInt32
  | .atomic => 1
  | .array => 2
  | .compound => 3
  | .noOp => 4

theorem DatatypeClass.ofParameter?_code (datatypeClass : DatatypeClass) :
    DatatypeClass.ofParameter? datatypeClass.code = some datatypeClass := by
  cases datatypeClass <;> rfl

theorem DatatypeClass.eq_code_of_ofParameter? {value : UInt32} {datatypeClass : DatatypeClass}
    (h : DatatypeClass.ofParameter? value = some datatypeClass) : value = datatypeClass.code := by
  unfold DatatypeClass.ofParameter? at h
  apply UInt32.toNat_inj.mp
  split at h
  · next hValue => cases h; exact hValue
  · next hValue => cases h; exact hValue
  · next hValue => cases h; exact hValue
  · next hValue => cases h; exact hValue
  · cases h

/-! ## Trees -/

mutual
/-- A datatype, with its size first and all numbers as they are written. -/
inductive Datatype where
  | atomic (size : UInt32) (order : ByteOrder) (precision offset : UInt32)
  | array (size : UInt32) (base : Datatype)
  | compound (size : UInt32) (members : Members)
  | noOp (size : UInt32)
/-- The members of a compound, each at an offset of its own. -/
inductive Members where
  | nil
  | cons (offset : UInt32) (datatype : Datatype) (others : Members)
end

namespace Datatype

def datatypeClass : Datatype → DatatypeClass
  | atomic .. => .atomic
  | array .. => .array
  | compound .. => .compound
  | noOp .. => .noOp

/-- The size in bytes. -/
def size : Datatype → Nat
  | atomic size .. => size.toNat
  | array size _ => size.toNat
  | compound size _ => size.toNat
  | noOp size => size.toNat

/-- Arrays and compounds nest. -/
def Nests (datatype : Datatype) : Prop :=
  datatype.datatypeClass = .array ∨ datatype.datatypeClass = .compound

end Datatype

def Members.count : Members → Nat
  | nil => 0
  | cons _ _ others => others.count + 1

mutual
/-- The numbers that describe a datatype, without its class. -/
def Datatype.description : Datatype → Description
  | .atomic size order precision offset => [size, order.code, precision, offset]
  | .array size base => size :: base.datatypeClass.code :: base.description
  | .compound size members => size :: UInt32.ofNat members.count :: members.description
  | .noOp size => [size]
def Members.description : Members → Description
  | .nil => []
  | .cons offset datatype others =>
    offset :: datatype.datatypeClass.code :: (datatype.description ++ others.description)
end

/-! ## Acceptable trees -/

mutual
/-- Every atomic part has at least one significant bit and has its significant bits inside. -/
def Datatype.Valid : Datatype → Prop
  | .atomic size order precision offset =>
    PackedAtomic.Valid ⟨size.toNat, order, precision.toNat, offset.toNat⟩
  | .array _ base => base.Valid
  | .compound _ members => members.Valid
  | .noOp _ => True
def Members.Valid : Members → Prop
  | .nil => True
  | .cons _ datatype others => datatype.Valid ∧ others.Valid
end

mutual
/-- The number of arrays and compounds inside each other. -/
def Datatype.depth : Datatype → Nat
  | .atomic .. => 0
  | .array _ base => base.depth + 1
  | .compound _ members => members.depth + 1
  | .noOp _ => 0
def Members.depth : Members → Nat
  | .nil => 0
  | .cons _ datatype others => max datatype.depth others.depth
end

mutual
/-- Everything that is decoded lies inside what encloses it, the datatype itself inside `enclosing`
bytes, and no array has a base of no size that is itself an array or a compound. -/
def Datatype.Fits (enclosing : Nat) : Datatype → Prop
  | .atomic size .. => size.toNat ≤ enclosing
  | .array size base =>
    size.toNat ≤ enclosing ∧ (base.Nests → 0 < base.size) ∧
      (base.size ≤ size.toNat → base.Fits base.size)
  | .compound size members => size.toNat ≤ enclosing ∧ members.Fits size.toNat
  | .noOp size => size.toNat ≤ enclosing
def Members.Fits (enclosing : Nat) : Members → Prop
  | .nil => True
  | .cons offset datatype others =>
    offset.toNat ≤ enclosing ∧ datatype.Fits (enclosing - offset.toNat) ∧ others.Fits enclosing
end

/-- How the datatype of the elements is written in the parameters: its class and its description. -/
def Datatype.encoded (datatype : Datatype) : List UInt32 :=
  datatype.datatypeClass.code :: datatype.description

/-- A datatype that the elements of a chunk can have. -/
structure Datatype.WellFormed (datatype : Datatype) : Prop where
  class_ne : datatype.datatypeClass ≠ .noOp
  valid : datatype.Valid
  depth_le : datatype.depth ≤ maxNesting
  fits : datatype.Fits datatype.size

/-! ## Leaves -/

mutual
/-- The number of packed bits. -/
def Datatype.bits : Datatype → Nat
  | .atomic _ _ precision _ => precision.toNat
  | .array size base =>
    if base.datatypeClass = .noOp then 8 * size.toNat else size.toNat / base.size * base.bits
  | .compound _ members => members.bits
  | .noOp size => 8 * size.toNat
def Members.bits : Members → Nat
  | .nil => 0
  | .cons _ datatype others => datatype.bits + others.bits
end

mutual
/-- The leaves of a datatype that starts at a given byte, in the order of their packed bits. -/
def Datatype.leaves : Datatype → Nat → List Leaf
  | .atomic size order precision offset, start =>
    [.atomic start ⟨size.toNat, order, precision.toNat, offset.toNat⟩]
  | .array size base, start =>
    if base.datatypeClass = .noOp then [.verbatim start size.toNat]
    else Layout.repeatLeaves base.leaves base.size (size.toNat / base.size) start
  | .compound _ members, start => members.leaves start
  | .noOp size, start => [.verbatim start size.toNat]
def Members.leaves : Members → Nat → List Leaf
  | .nil, _ => []
  | .cons offset datatype others, start =>
    datatype.leaves (start + offset.toNat) ++ others.leaves start
end

theorem Layout.mem_repeatLeaves {leaves : Nat → List Leaf} {stride count start : Nat}
    {leaf : Leaf} :
    leaf ∈ Layout.repeatLeaves leaves stride count start ↔
      ∃ i < count, leaf ∈ leaves (start + i * stride) := by
  induction count generalizing start with
  | zero =>
    constructor
    · intro h
      cases h
    · rintro ⟨i, hi, -⟩
      exact absurd hi (Nat.not_lt_zero i)
  | succ count ih =>
    rw [Layout.repeatLeaves, List.mem_append, ih]
    constructor
    · rintro (hFirst | ⟨i, hi, hLeaf⟩)
      · exact ⟨0, Nat.succ_pos count, by rwa [Nat.zero_mul, Nat.add_zero]⟩
      · refine ⟨i + 1, Nat.succ_lt_succ hi, ?_⟩
        rwa [Nat.succ_mul, Nat.add_comm (i * stride), ← Nat.add_assoc]
    · rintro ⟨i, hi, hLeaf⟩
      cases i with
      | zero => exact Or.inl (by rwa [Nat.zero_mul, Nat.add_zero] at hLeaf)
      | succ i =>
        refine Or.inr ⟨i, Nat.lt_of_succ_lt_succ hi, ?_⟩
        rwa [Nat.succ_mul, Nat.add_comm (i * stride), ← Nat.add_assoc] at hLeaf

theorem bitCount_append (first second : List Leaf) :
    bitCount (first ++ second) = bitCount first + bitCount second := by
  induction first with
  | nil => exact (Nat.zero_add _).symm
  | cons leaf rest ih => rw [List.cons_append, bitCount, bitCount, ih, Nat.add_assoc]

theorem bitCount_repeatLeaves {leaves : Nat → List Leaf} {bits : Nat}
    (h : ∀ start, bitCount (leaves start) = bits) (stride count start : Nat) :
    bitCount (Layout.repeatLeaves leaves stride count start) = count * bits := by
  induction count generalizing start with
  | zero =>
    rw [Nat.zero_mul]
    rfl
  | succ count ih =>
    rw [Layout.repeatLeaves, bitCount_append, h, ih, Nat.succ_mul, Nat.add_comm]

theorem bitCount_singleton (leaf : Leaf) : bitCount [leaf] = leaf.bits := by
  rw [bitCount, bitCount, Nat.add_zero]

mutual
theorem Datatype.bitCount_leaves (datatype : Datatype) (start : Nat) :
    bitCount (datatype.leaves start) = datatype.bits := by
  cases datatype with
  | atomic size order precision offset =>
    rw [Datatype.leaves, bitCount_singleton, Datatype.bits]
    rfl
  | array size base =>
    rw [Datatype.leaves, Datatype.bits]
    by_cases hBase : base.datatypeClass = .noOp
    · rw [if_pos hBase, if_pos hBase, bitCount_singleton]
      rfl
    · rw [if_neg hBase, if_neg hBase]
      exact bitCount_repeatLeaves base.bitCount_leaves base.size (size.toNat / base.size) start
  | compound size members =>
    rw [Datatype.leaves, Datatype.bits]
    exact members.bitCount_leaves start
  | noOp size =>
    rw [Datatype.leaves, bitCount_singleton, Datatype.bits]
    rfl
theorem Members.bitCount_leaves (members : Members) (start : Nat) :
    bitCount (members.leaves start) = members.bits := by
  cases members with
  | nil => rfl
  | cons offset datatype others =>
    rw [Members.leaves, Members.bits, bitCount_append, datatype.bitCount_leaves,
      others.bitCount_leaves]
end

mutual
theorem Datatype.valid_of_mem_leaves {datatype : Datatype} (hValid : datatype.Valid)
    {start : Nat} {leaf : Leaf} (h : leaf ∈ datatype.leaves start) : leaf.Valid := by
  cases datatype with
  | atomic size order precision offset =>
    rw [Datatype.leaves, List.mem_singleton] at h
    rw [h]
    exact hValid
  | array size base =>
    rw [Datatype.leaves] at h
    by_cases hBase : base.datatypeClass = .noOp
    · rw [if_pos hBase, List.mem_singleton] at h
      rw [h]
      exact trivial
    · rw [if_neg hBase, Layout.mem_repeatLeaves] at h
      obtain ⟨i, -, hLeaf⟩ := h
      have hBaseValid : base.Valid := hValid
      exact Datatype.valid_of_mem_leaves hBaseValid hLeaf
  | compound size members =>
    have hMembers : members.Valid := hValid
    exact Members.valid_of_mem_leaves hMembers h
  | noOp size =>
    rw [Datatype.leaves, List.mem_singleton] at h
    rw [h]
    exact trivial
theorem Members.valid_of_mem_leaves {members : Members} (hValid : members.Valid)
    {start : Nat} {leaf : Leaf} (h : leaf ∈ members.leaves start) : leaf.Valid := by
  cases members with
  | nil => cases h
  | cons offset datatype others =>
    obtain ⟨hDatatype, hOthers⟩ := hValid
    rcases List.mem_append.mp h with h | h
    · exact Datatype.valid_of_mem_leaves hDatatype h
    · exact Members.valid_of_mem_leaves hOthers h
end

theorem Datatype.size_le_of_fits {datatype : Datatype} {enclosing : Nat}
    (h : datatype.Fits enclosing) : datatype.size ≤ enclosing := by
  cases datatype with
  | atomic size order precision offset => exact h
  | array size base => exact h.1
  | compound size members => exact h.1
  | noOp size => exact h

mutual
theorem Datatype.inside_of_mem_leaves {datatype : Datatype} {enclosing : Nat}
    (hFits : datatype.Fits enclosing) {start : Nat} {leaf : Leaf}
    (h : leaf ∈ datatype.leaves start) : leaf.start + leaf.size ≤ start + enclosing := by
  cases datatype with
  | atomic size order precision offset =>
    rw [Datatype.leaves, List.mem_singleton] at h
    rw [h]
    exact Nat.add_le_add_left hFits start
  | array size base =>
    obtain ⟨hSize, -, hBaseFits⟩ := hFits
    rw [Datatype.leaves] at h
    by_cases hBase : base.datatypeClass = .noOp
    · rw [if_pos hBase, List.mem_singleton] at h
      rw [h]
      exact Nat.add_le_add_left hSize start
    · rw [if_neg hBase, Layout.mem_repeatLeaves] at h
      obtain ⟨i, hi, hLeaf⟩ := h
      have hSome : base.size ≤ size.toNat := by
        by_cases hSome : base.size ≤ size.toNat
        · exact hSome
        · rw [Nat.div_eq_of_lt (Nat.lt_of_not_le hSome)] at hi
          exact absurd hi (Nat.not_lt_zero i)
      have hIn := Datatype.inside_of_mem_leaves (hBaseFits hSome) hLeaf
      -- The last element ends where the whole elements of the array end.
      have hEnd : (i + 1) * base.size ≤ size.toNat :=
        Nat.le_trans (Nat.mul_le_mul_right base.size hi) (Nat.div_mul_le_self _ _)
      rw [Nat.succ_mul] at hEnd
      omega
  | compound size members =>
    have hIn := Members.inside_of_mem_leaves hFits.2 h
    exact Nat.le_trans hIn (Nat.add_le_add_left hFits.1 start)
  | noOp size =>
    rw [Datatype.leaves, List.mem_singleton] at h
    rw [h]
    exact Nat.add_le_add_left hFits start
theorem Members.inside_of_mem_leaves {members : Members} {enclosing : Nat}
    (hFits : members.Fits enclosing) {start : Nat} {leaf : Leaf}
    (h : leaf ∈ members.leaves start) : leaf.start + leaf.size ≤ start + enclosing := by
  cases members with
  | nil => cases h
  | cons offset datatype others =>
    obtain ⟨hOffset, hDatatype, hOthers⟩ := hFits
    rcases List.mem_append.mp h with h | h
    · have hIn := Datatype.inside_of_mem_leaves hDatatype h
      omega
    · exact Members.inside_of_mem_leaves hOthers h
end

end Nbit

end ChunkFilters
