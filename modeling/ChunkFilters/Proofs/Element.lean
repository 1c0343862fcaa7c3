import ChunkFilters.Element.Word
import ChunkFilters.Proofs.Bytes

/-!
# Elements and words

What becomes of an element that is read as a word and written again, of a word that is spread over
parameters, and of elements that are brought into another byte order.

* `read_of_length_le`: a word of at most eight bytes is read whole.
* `ofParameters?_low`, `ofParameters?_wide`: a word of at most four bytes is the low part of one
  parameter, and a word of eight bytes has its low half in the first of two.
* `swapByteOrder_flatten`: swapping reverses each element and keeps their order.
-/

namespace ChunkFilters

/-! ## Kinds and byte orders -/

namespace ElementKind

theorem size_of_ofShape? {elementClass : ElementClass} {size : Nat} {signed : Bool}
    {kind : ElementKind} (h : ofShape? elementClass size signed = some kind) :
    kind.size = size := by
  cases elementClass with
  | integer => exact ofShape?_integer_size h
  | float =>
    unfold ofShape? at h
    split at h <;> cases h <;> rfl

theorem size_pos (kind : ElementKind) : 0 < kind.size := by
  cases kind <;> decide

theorem size_le_maxSize (kind : ElementKind) : kind.size ≤ Word.maxSize := by
  cases kind <;> decide

theorem two_pow_bits (kind : ElementKind) : 2 ^ kind.bits = 256 ^ kind.size :=
  Nat.pow_mul 2 8 kind.size

end ElementKind

namespace ByteOrder

/-- The number that stands for a byte order. -/
def code : ByteOrder → UInt32
  | .little => 0
  | .big => 1

theorem ofParameter?_code (order : ByteOrder) :
    ofParameter? order.code = some order := by
  cases order <;> rfl

theorem eq_code_of_ofParameter? {value : UInt32} {order : ByteOrder}
    (h : ofParameter? value = some order) : value = order.code := by
  unfold ofParameter? at h
  apply UInt32.toNat_inj.mp
  split at h
  · next hValue => cases h; exact hValue
  · next hValue => cases h; exact hValue
  · cases h

/-- The bytes of an element in a stored order, given those in native order. -/
def arrange (order : ByteOrder) (bytes : Bytes) : Bytes :=
  match order with
  | .little => bytes
  | .big => bytes.reverse

theorem length_arrange (order : ByteOrder) (bytes : Bytes) :
    (order.arrange bytes).length = bytes.length := by
  cases order with
  | little => rfl
  | big => exact List.length_reverse

end ByteOrder

/-! ## Numbers in bytes -/

namespace Bytes

theorem littleEndian_append (first second : Bytes) :
    littleEndian (first ++ second) =
      littleEndian first + 256 ^ first.length * littleEndian second := by
  induction first with
  | nil => simp [littleEndian]
  | cons byte rest ih =>
    rw [List.cons_append, littleEndian, ih, littleEndian, List.length_cons, Nat.pow_succ',
      Nat.mul_add, Nat.mul_assoc, Nat.add_assoc]

theorem take_toLittleEndian {count size : Nat} (h : count ≤ size) (value : Nat) :
    (toLittleEndian size value).take count = toLittleEndian count value := by
  induction size generalizing count value with
  | zero => rw [Nat.le_zero.mp h]; rfl
  | succ size ih =>
    cases count with
    | zero => rfl
    | succ count =>
      rw [toLittleEndian, toLittleEndian, List.take_succ_cons, ih (Nat.le_of_succ_le_succ h)]

/-- A number that fits is read as it was written. -/
theorem littleEndian_toLittleEndian_of_lt {count value : Nat} (h : value < 256 ^ count) :
    littleEndian (toLittleEndian count value) = value := by
  rw [littleEndian_toLittleEndian, Nat.mod_eq_of_lt h]

/-! ## Elements of one size -/

theorem length_flatten {size : Nat} {elements : List Bytes}
    (hElements : ∀ element ∈ elements, element.length = size) :
    elements.flatten.length = elements.length * size := by
  induction elements with
  | nil => simp
  | cons element rest ih =>
    have hRest := ih fun other hOther => hElements other (List.mem_cons_of_mem element hOther)
    rw [List.flatten_cons, List.length_append, hRest, hElements element List.mem_cons_self,
      List.length_cons, Nat.succ_mul, Nat.add_comm]

/-- The bytes of the first elements. -/
theorem take_flatten {size : Nat} {elements : List Bytes}
    (hElements : ∀ element ∈ elements, element.length = size) (count : Nat) :
    elements.flatten.take (count * size) = (elements.take count).flatten := by
  induction elements generalizing count with
  | nil => rw [List.flatten_nil, List.take_nil, List.take_nil, List.flatten_nil]
  | cons element rest ih =>
    obtain ⟨hElement, hRest⟩ := List.forall_mem_cons.mp hElements
    cases count with
    | zero => rw [Nat.zero_mul, List.take_zero, List.take_zero, List.flatten_nil]
    | succ count =>
      have hAll : element.take ((count + 1) * size) = element := by
        apply List.take_of_length_le
        rw [hElement, Nat.succ_mul]
        exact Nat.le_add_left size _
      have hOthers : (count + 1) * size - element.length = count * size := by
        rw [hElement, Nat.succ_mul, Nat.add_sub_cancel]
      rw [List.flatten_cons, List.take_append, hAll, hOthers, ih hRest, List.take_succ_cons,
        List.flatten_cons]

/-- Bytes that are a whole number of elements. -/
theorem exists_elements {size count : Nat} {bytes : Bytes} (h : bytes.length = count * size) :
    ∃ elements : List Bytes, elements.length = count ∧
      (∀ element ∈ elements, element.length = size) ∧ elements.flatten = bytes := by
  induction count generalizing bytes with
  | zero =>
    rw [Nat.zero_mul] at h
    exact ⟨[], rfl, List.forall_mem_nil _, (List.eq_nil_of_length_eq_zero h).symm⟩
  | succ count ih =>
    rw [Nat.succ_mul] at h
    have hRest : (bytes.drop size).length = count * size := by
      rw [List.length_drop]
      omega
    obtain ⟨elements, hCount, hElements, hFlatten⟩ := ih hRest
    refine ⟨bytes.take size :: elements, ?_, ?_, ?_⟩
    · rw [List.length_cons, hCount]
    · intro element hElement
      rcases List.mem_cons.mp hElement with rfl | hElement
      · rw [List.length_take]
        omega
      · exact hElements element hElement
    · rw [List.flatten_cons, hFlatten, List.take_append_drop]

end Bytes

namespace Word

/-! ## Words -/

theorem read_of_length_le {bytes : Bytes} (h : bytes.length ≤ maxSize) :
    read bytes = Bytes.littleEndian bytes := by
  rw [read, List.take_of_length_le h]

theorem ofParameters?_low {size : Nat} (hPos : 0 < size) (hSize : size ≤ 4) (low : UInt32)
    (rest : List UInt32) : ofParameters? (low :: rest) size = some (low.toNat % 256 ^ size) := by
  have hCount : parameterCount size = 1 := by
    rw [parameterCount]
    omega
  have hLength : ¬ (low :: rest).length < 1 := by
    rw [List.length_cons]
    omega
  have hMax : (Bytes.toLittleEndian size low.toNat).length ≤ maxSize := by
    rw [Bytes.length_toLittleEndian, maxSize]
    omega
  simp only [ofParameters?, hCount, if_neg hLength, List.take_succ_cons, List.take_zero,
    List.flatMap_cons, List.flatMap_nil, List.append_nil]
  rw [Bytes.take_toLittleEndian hSize, read_of_length_le hMax, Bytes.littleEndian_toLittleEndian]

theorem ofParameters?_wide (low high : UInt32) (rest : List UInt32) :
    ofParameters? (low :: high :: rest) 8 = some (low.toNat + 2 ^ 32 * high.toNat) := by
  have hLength : ¬ (low :: high :: rest).length < 2 := by
    rw [List.length_cons, List.length_cons]
    omega
  have hBytes : (Bytes.toLittleEndian 4 low.toNat ++ Bytes.toLittleEndian 4 high.toNat).length =
      8 := by
    rw [List.length_append, Bytes.length_toLittleEndian, Bytes.length_toLittleEndian]
  have hCount : parameterCount 8 = 2 := rfl
  simp only [ofParameters?, hCount, if_neg hLength, List.take_succ_cons, List.take_zero,
    List.flatMap_cons, List.flatMap_nil, List.append_nil]
  rw [List.take_of_length_le (Nat.le_of_eq hBytes), read_of_length_le (Nat.le_of_eq hBytes),
    Bytes.littleEndian_append, Bytes.length_toLittleEndian,
    Bytes.littleEndian_toLittleEndian_of_lt low.toNat_lt,
    Bytes.littleEndian_toLittleEndian_of_lt high.toNat_lt]
  rfl

/-! ## The other byte order -/

theorem swapElements_flatten {size : Nat} {elements : List Bytes}
    (hElements : ∀ element ∈ elements, element.length = size) (done : Array UInt8) :
    swapElements size elements.length elements.flatten done =
      done.toList ++ elements.flatMap List.reverse := by
  induction elements generalizing done with
  | nil => simp [swapElements]
  | cons element rest ih =>
    have hElement : element.length = size := hElements element List.mem_cons_self
    have hRest := ih fun other hOther => hElements other (List.mem_cons_of_mem element hOther)
    rw [List.length_cons, swapElements, List.flatten_cons, List.drop_left' hElement,
      List.take_left' hElement, hRest, List.flatMap_cons]
    simp

theorem reverse_of_length_le_one {bytes : Bytes} (h : bytes.length ≤ 1) :
    bytes.reverse = bytes := by
  match bytes, h with
  | [], _ => rfl
  | [_], _ => rfl

theorem swapByteOrder_flatten {size : Nat} {elements : List Bytes}
    (hElements : ∀ element ∈ elements, element.length = size) :
    swapByteOrder size elements.flatten = elements.flatMap List.reverse := by
  unfold swapByteOrder
  by_cases hSize : size ≤ 1
  · have hSame : elements.map List.reverse = elements.map id := by
      apply List.map_congr_left
      intro element hElement
      exact reverse_of_length_le_one (hElements element hElement ▸ hSize)
    rw [if_pos hSize, List.flatMap_def, hSame, List.map_id]
  · have hPos : 0 < size := by omega
    rw [if_neg hSize, Bytes.length_flatten hElements, Nat.mul_div_cancel _ hPos,
      swapElements_flatten hElements]
    rfl

end Word

end ChunkFilters
