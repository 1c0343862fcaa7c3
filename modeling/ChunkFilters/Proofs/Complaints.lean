import ChunkFilters.Builtin
import ChunkFilters.Proofs.Bits.Exhaustion
import ChunkFilters.Proofs.ScaleOffset.Acceptance

/-!
# What filters complain of

A filter that is asked to undo its work blames the parameters, the bytes or a lack of memory. An
error about malformed bytes names a byte of the input, or the place just behind the last one, and it
names that place exactly if packed bits ran out, however deep in an element and whatever the
parameters. A filter that counts bytes from behind its header has to add the header again.

* `Shortage`, `Complaint`: the errors that filters of packed values give, and those of all filters;
* `fails_decode`, in the namespace of each filter: what its decoder answers if it fails. Two filters
  have one more error than these, one for checksums and one for elements that were scaled by a power
  of two;
* `ScaleOffset.decode_of_binaryScaled`: elements that were scaled by a power of two are refused on
  sight, whatever the other parameters and the bytes.
-/

namespace ChunkFilters

/-! ## Errors of a computation -/

/-- Every error of `x` satisfies `P`. -/
def Fails {ε α : Type} (x : Except ε α) (P : ε → Prop) : Prop := ∀ error, x = .error error → P error

section
variable {ε α β : Type} {P Q : ε → Prop}

theorem fails_ok (a : α) : Fails (.ok a : Except ε α) P := by
  intro error h
  cases h

theorem fails_error {error : ε} (h : P error) : Fails (.error error : Except ε α) P := by
  intro other hOther
  cases hOther
  exact h

theorem fails_bind_of_ok {x : Except ε α} {f : α → Except ε β} (hx : Fails x P)
    (hf : ∀ a, x = .ok a → Fails (f a) P) : Fails (x >>= f) P := by
  cases x with
  | error error => exact fails_error (hx error rfl)
  | ok a => exact hf a rfl

theorem fails_bind {x : Except ε α} {f : α → Except ε β} (hx : Fails x P)
    (hf : ∀ a, Fails (f a) P) : Fails (x >>= f) P :=
  fails_bind_of_ok hx fun a _ => hf a

theorem Fails.mono {x : Except ε α} (h : Fails x P) (hImp : ∀ error, P error → Q error) :
    Fails x Q :=
  fun error hError => hImp error (h error hError)

end

/-! ## Kinds of errors -/

theorem Exhausted.head?_message (error : Exhausted) : error.message.toList.head? = some 'p' := by
  show (s!"packed input exhausted at byte {error.byteIndex}").toList.head? = some 'p'
  simp only [String.toList_append]
  rfl

/-- A description that starts with another letter does not say that packed bits ran out. -/
theorem Exhausted.ne_message {description : String} (first : Char)
    (hHead : description.toList.head? = some first) (hFirst : first ≠ 'p') (error : Exhausted) :
    description ≠ error.message := by
  rintro rfl
  rw [error.head?_message] at hHead
  exact absurd (Option.some.inj hHead).symm hFirst

namespace CodecError

/-- The error blames the parameters, the bytes or a lack of memory. -/
def isOrdinary : CodecError → Bool
  | allocation _ | inflate _ | invalidParameters _ _ | invalidData _ _ | external _ _ => true
  | encodeUnsupported _ | invalidChecksum _ _ | unsupported _ | other _ => false

abbrev Ordinary (error : CodecError) : Prop := error.isOrdinary = true

theorem Ordinary.not_fatal {error : CodecError} (h : error.Ordinary) : error.isFatal = false := by
  cases error with
  | encodeUnsupported _ | unsupported _ => cases h
  | _ => rfl

/-- An error about the bytes of an input is at one of them or just behind them, and it is behind
them if it says that packed bits ran out. -/
def PointsInto (input : Bytes) : CodecError → Prop
  | invalidData description offset => ∃ position ≤ input.length, offset = some position ∧
      ∀ error : Exhausted, description = error.message → position = input.length
  | _ => True

/-- An error about the bytes of an input says that packed bits ran out, just behind them. -/
def RunsOut (input : Bytes) : CodecError → Prop
  | invalidData description offset =>
    (∃ error : Exhausted, description = error.message) ∧ offset = some input.length
  | _ => True

/-- There are too few packed bits for what the parameters announce, or there is too little memory,
or the parameters make no sense. -/
inductive Shortage (input : Bytes) : CodecError → Prop
  | parameters (filter reason : String) : Shortage input (.invalidParameters filter reason)
  | memory (size : Nat) : Shortage input (.allocation size)
  | bits (error : Exhausted) : Shortage input (.invalidData error.message (some input.length))

/-- As far as the bytes are to blame, it may also be for something else than their number. -/
inductive Complaint (input : Bytes) : CodecError → Prop
  | shortage {error : CodecError} (h : Shortage input error) : Complaint input error
  | stream (reason : String) : Complaint input (.inflate reason)
  | decoder (library reason : String) : Complaint input (.external library reason)
  | bytes {description : String} {position : Nat}
      (hDescription : ∀ error : Exhausted, description ≠ error.message)
      (hPosition : position ≤ input.length) :
      Complaint input (.invalidData description (some position))

section
variable {input : Bytes} {error : CodecError}

theorem Shortage.runsOut (h : Shortage input error) : error.RunsOut input := by
  cases h with
  | parameters filter reason => trivial
  | memory size => trivial
  | bits exhausted => exact ⟨⟨exhausted, rfl⟩, rfl⟩

theorem Complaint.pointsInto (h : Complaint input error) : error.PointsInto input := by
  cases h with
  | shortage h =>
    cases h with
    | parameters filter reason => trivial
    | memory size => trivial
    | bits exhausted => exact ⟨input.length, Nat.le_refl _, rfl, fun _ _ => rfl⟩
  | stream reason => trivial
  | decoder library reason => trivial
  | bytes hDescription hPosition =>
    exact ⟨_, hPosition, rfl, fun error hError => absurd hError (hDescription error)⟩

theorem Complaint.ordinary (h : Complaint input error) : error.Ordinary := by
  cases h with
  | shortage h => cases h <;> rfl
  | _ => rfl

theorem shortage_ofExhausted {exhausted : Exhausted}
    (h : exhausted = BitCursor.exhaustedAt input) : Shortage input (ofExhausted exhausted) := by
  rw [h]
  exact .bits _

end

end CodecError

open CodecError

theorem Memory.fails_reserve (memory : Memory) (size : Nat) (input : Bytes) :
    Fails (memory.reserve size) (Shortage input) := by
  unfold Memory.reserve
  split
  · exact fails_ok ()
  · exact fails_error (.memory size)

/-! ## Streams, shuffles and checksums -/

namespace Deflate

section
variable {memory : Memory} {decoder : Zlib.StreamDecoder} {input : Bytes} {state : decoder.State}
  {filling : Filling memory}

theorem Filling.fails_new (memory : Memory) (capacity : Nat) (input : Bytes) :
    Fails (Filling.new memory capacity) (Complaint input) := by
  unfold Filling.new
  split
  · exact fails_ok _
  · exact fails_error (.shortage (.memory _))

theorem fails_of_turn {result : Except CodecError Buffer}
    (h : turn decoder input state filling = .stop result) : Fails result (Complaint input) := by
  have hCases := turn_cases decoder input state filling
  rw [h] at hCases
  cases hCases with
  | overflow hPosition => exact fails_error (.stream _)
  | finished hStatus => exact fails_ok _
  | malformed hStatus => exact fails_error (.stream _)
  | refused hUnfinished hSize hMemory => exact fails_error (.shortage (.memory _))
  | premature hUnfinished hShort => exact fails_error (.stream _)

theorem fails_collect (state : decoder.State) (filling : Filling memory) :
    Fails (collect decoder input state filling) (Complaint input) := by
  fun_induction collect decoder input state filling with
  | case1 state filling result hTurn => exact fails_of_turn hTurn
  | case2 state filling next more hTurn hLess ih => exact ih

end

theorem fails_decode (memory : Memory) (decoder : Zlib.StreamDecoder) (request : DecodeRequest) :
    Fails (decode memory decoder request) (Complaint request.input) := by
  refine fails_bind ?_ fun _ => fails_ok _
  exact fails_bind (Filling.fails_new memory request.sizeHint _) (fails_collect decoder.start)

end Deflate

namespace Shuffle

theorem fails_unshuffleCopy (memory : Memory) (size : Nat) (bytes input : Bytes) :
    Fails (unshuffleCopy memory size bytes) (Shortage input) :=
  fails_bind (memory.fails_reserve _ input) fun _ => fails_ok _

theorem fails_decode (memory : Memory) (request : DecodeRequest) :
    Fails (decode memory request) (Complaint request.input) := by
  unfold decode
  split
  · exact fails_error (.shortage (.parameters _ _))
  · split
    · exact fails_ok _
    · refine fails_bind ?_ fun _ => fails_ok _
      exact (fails_unshuffleCopy memory _ _ request.input).mono fun _ => .shortage

end Shuffle

/-- A checksum that does not match is the only other fault that this filter finds, and only where it
is to verify it. -/
theorem Fletcher32.fails_decode (request : DecodeRequest) :
    Fails (Fletcher32.decode request) fun error => Complaint request.input error ∨
      request.flags.contains .skipEdc = false ∧
        ∃ stored computed, error = .invalidChecksum stored computed := by
  unfold Fletcher32.decode
  dsimp only
  split
  · refine fails_error (.inl (.bytes (Exhausted.ne_message 'f' ?_ (by decide)) (Nat.zero_le _)))
    simp only [String.toList_append]
    rfl
  · split
    · exact fails_ok _
    · next hVerify =>
      split
      · exact fails_ok _
      · exact fails_error (.inr ⟨Bool.eq_false_iff.mpr hVerify, _, _, rfl⟩)

namespace Szip

theorem fails_decodeBytes (decoder : EntropyDecoder) (code : Aec.Parameters) (size : Nat)
    (payload input : Bytes) : Fails (decodeBytes decoder code size payload) (Complaint input) := by
  unfold decodeBytes
  split
  · exact fails_error (.decoder _ _)
  · split
    · exact fails_error (.decoder _ _)
    · exact fails_ok _

theorem fails_decode (memory : Memory) (decoder : EntropyDecoder) (request : DecodeRequest) :
    Fails (decode memory decoder request) (Complaint request.input) := by
  unfold decode
  split
  · exact fails_error (.shortage (.parameters _ _))
  · split
    · exact fails_error (.bytes (Exhausted.ne_message 's' rfl (by decide)) (Nat.zero_le _))
    · refine fails_bind (fails_decodeBytes decoder _ _ _ _) fun decoded => ?_
      split
      · refine fails_bind ?_ fun _ => fails_ok _
        exact (Shuffle.fails_unshuffleCopy memory _ _ request.input).mono fun _ => .shortage
      · exact fails_ok _

end Szip

/-! ## Elements of any datatype -/

namespace Nbit

theorem fails_unpackElements (walk : Walk) (size count elements : Nat) (input : Bytes) :
    Fails (unpackElements walk size count elements input) (Shortage input) := by
  have hElement : ∀ {cursor}, BitCursor.Reachable input cursor →
      BitCursor.StaysIn input (unpackElement walk.layout size cursor) :=
    fun hCursor => walk.layout.staysIn_unpack hCursor 0
  unfold unpackElements
  split
  · exact fails_ok _
  · split
    · split
      · next hError =>
        exact fails_error (shortage_ofExhausted ((hElement .start).eq_of_error hError))
      · exact fails_error (.parameters _ _)
    · split
      · next hError =>
        have hElements := BitCursor.staysIn_readMany .start hElement elements #[]
        exact fails_error (shortage_ofExhausted (hElements.eq_of_error hError))
      · exact fails_ok _

/-- Of the bytes, only their number is ever to blame. -/
theorem fails_decode (memory : Memory) (request : DecodeRequest) :
    Fails (decode memory request) (Shortage request.input) := by
  unfold decode
  split
  · exact fails_error (.parameters _ _)
  · exact fails_ok _
  · refine fails_bind (memory.fails_reserve _ _) fun _ => ?_
    exact fails_bind (fails_unpackElements _ _ _ _ _) fun _ => fails_ok _

end Nbit

/-! ## Scaled elements -/

namespace ScaleOffset

/-- The parameters are complete, and tell that elements were scaled by a power of two. -/
def BinaryScaled (params : List UInt32) : Prop := fixedCount ≤ params.length ∧ params[0]? = some 1

instance (params : List UInt32) : Decidable (BinaryScaled params) :=
  inferInstanceAs (Decidable (_ ∧ _))

theorem fails_scaleType {value : UInt32} (h : value ≠ 1) :
    Fails (scaleType value) (· ≠ .binaryScaling) := by
  unfold scaleType
  split
  · exact fails_ok _
  · next hValue => exact absurd (UInt32.toNat_inj.mp hValue) h
  · exact fails_ok _
  · exact fails_error nofun

theorem fails_elementClass (scaling : ScaleType) (scaleValue value : UInt32) :
    Fails (elementClass scaling scaleValue value) (· ≠ .binaryScaling) := by
  unfold elementClass
  split
  · exact fails_ok _
  · exact fails_error nofun
  · exact fails_ok _
  · exact fails_error nofun
  · exact fails_error nofun

theorem fails_isSigned (value : UInt32) : Fails (isSigned value) (· ≠ .binaryScaling) := by
  unfold isSigned
  split
  · exact fails_ok _
  · exact fails_ok _
  · exact fails_error nofun

theorem fails_elementKind (elementClass : ElementClass) (signed : Bool) (value : UInt32) :
    Fails (elementKind elementClass signed value) (· ≠ .binaryScaling) := by
  unfold elementKind
  split
  · exact fails_ok _
  · exact fails_error nofun

theorem fails_byteOrder (value : UInt32) : Fails (byteOrder value) (· ≠ .binaryScaling) := by
  unfold byteOrder
  split
  · exact fails_ok _
  · exact fails_error nofun

theorem fails_fillValue (declared : UInt32) (params : List UInt32) (size : Nat) :
    Fails (fillValue declared params size) (· ≠ .binaryScaling) := by
  unfold fillValue
  split
  · exact fails_ok _
  · split
    · exact fails_ok _
    · exact fails_error nofun

theorem fails_ofParams {scaleValue : UInt32} (h : scaleValue ≠ 1) (others : List UInt32) :
    Fails (Parameters.ofParams (scaleValue :: others)) (· ≠ .binaryScaling) := by
  unfold Parameters.ofParams
  split
  · next hParams =>
    obtain ⟨rfl, -⟩ := List.cons.inj hParams
    refine fails_bind (fails_scaleType h) fun scaling => ?_
    refine fails_bind (fails_elementClass scaling _ _) fun elementClass => ?_
    refine fails_bind (fails_isSigned _) fun signed => ?_
    refine fails_bind (fails_elementKind elementClass signed _) fun kind => ?_
    refine fails_bind (fails_byteOrder _) fun order => ?_
    exact fails_bind (fails_fillValue _ _ kind.size) fun fill => fails_ok _
  · exact fails_error nofun

/-- No fault of the other parameters hides the scale type, and none is taken for it. -/
theorem ofParams_eq_binaryScaling_iff (params : List UInt32) :
    Parameters.ofParams params = .error .binaryScaling ↔ BinaryScaled params := by
  constructor
  · intro h
    cases params with
    | nil => cases h
    | cons scaleValue others =>
      have hScale : scaleValue = 1 := by
        refine Decidable.byContradiction fun hNe => ?_
        exact fails_ofParams hNe others _ h rfl
      refine ⟨?_, congrArg some hScale⟩
      unfold Parameters.ofParams at h
      split at h
      · next hParams =>
        rw [hParams]
        exact Nat.le_add_left fixedCount _
      · cases h
  · rintro ⟨hLength, hScale⟩
    match params, hLength with
    | scaleValue :: _ :: _ :: _ :: _ :: _ :: _ :: _ :: _, _ =>
      obtain rfl : scaleValue = 1 := Option.some.inj hScale
      rfl

theorem shortage_toCodecError {error : ParameterError} (h : error ≠ .binaryScaling)
    (input : Bytes) : Shortage input error.toCodecError := by
  cases error with
  | binaryScaling => exact absurd rfl h
  | _ => exact .parameters _ _

theorem fails_ofInput (input : Bytes) : Fails (Header.ofInput input) (Complaint input) := by
  unfold Header.ofInput
  split
  · refine fails_error (.bytes (Exhausted.ne_message 's' ?_ (by decide)) (Nat.zero_le _))
    simp only [String.toList_append]
    rfl
  · exact fails_ok _

theorem headerSize_le_of_ofInput {input : Bytes} {header : Header}
    (h : Header.ofInput input = .ok header) : headerSize ≤ input.length := by
  unfold Header.ofInput at h
  split at h
  · cases h
  · next hLength => exact Nat.not_lt.mp hLength

theorem error_of_unpackValues {kind : ElementKind} {packedBits elements : Nat} {payload : Bytes}
    {error : Exhausted} (h : unpackValues kind packedBits elements payload = .error error) :
    error = BitCursor.exhaustedAt payload := by
  have hValue : ∀ {cursor}, BitCursor.Reachable payload cursor →
      BitCursor.StaysIn payload (unpackValue kind packedBits cursor) := by
    intro cursor hCursor
    rw [unpackValue_eq_map]
    exact (Nbit.staysIn_unpackLeaves hCursor _).map fun bytes => Word.read bytes.toList
  have hValues := BitCursor.staysIn_readMany .start hValue elements #[]
  unfold unpackValues at h
  split at h
  · cases h
  · split at h
    · next hError => exact Except.error.inj h ▸ hValues.eq_of_error hError
    · cases h

section
variable (parameters : Parameters) {header : Header} {input : Bytes}
  (hLength : headerSize ≤ input.length)
include hLength

theorem fails_decodeElements_of_lt (hBits : header.packedBits < parameters.kind.bits) :
    Fails (decodeElements parameters header (input.drop headerSize)) (Shortage input) := by
  unfold decodeElements
  dsimp only
  rw [if_neg (Nat.ne_of_lt hBits), if_neg (Nat.not_lt.mpr (Nat.le_of_lt hBits))]
  split
  · next error hError =>
    have hEnd : headerSize + error.byteIndex = input.length := by
      rw [error_of_unpackValues hError]
      show headerSize + (input.drop headerSize).length = input.length
      rw [List.length_drop]
      exact Nat.add_sub_cancel' hLength
    rw [hEnd]
    exact fails_error (.bits error)
  · exact fails_ok _

theorem fails_decodeElements (header : Header) :
    Fails (decodeElements parameters header (input.drop headerSize)) (Complaint input) := by
  rcases Nat.lt_or_ge header.packedBits parameters.kind.bits with hBits | hBits
  · exact (fails_decodeElements_of_lt parameters hLength hBits).mono fun _ => .shortage
  · unfold decodeElements
    dsimp only
    split
    · split
      · refine fails_error (.bytes (Exhausted.ne_message 's' ?_ (by decide)) hLength)
        simp only [String.toList_append]
        rfl
      · exact fails_ok _
    · rw [if_pos (by omega)]
      refine fails_error (.bytes (Exhausted.ne_message 's' ?_ (by decide)) (Nat.zero_le _))
      simp only [String.toList_append]
      rfl

end

/-- The error for elements that were scaled by a power of two. -/
def binaryScalingError : CodecError := .unsupported "the scaleoffset E-scale method"

theorem decode_of_binaryScaled (memory : Memory) {request : DecodeRequest}
    (h : BinaryScaled request.params) : decode memory request = .error binaryScalingError := by
  rw [decode, (ofParams_eq_binaryScaling_iff request.params).mpr h]
  rfl

theorem fails_decode (memory : Memory) (request : DecodeRequest) :
    Fails (decode memory request) fun error => Complaint request.input error ∨
      BinaryScaled request.params ∧ error = binaryScalingError := by
  unfold decode
  split
  · next error hParams =>
    by_cases hScaling : error = .binaryScaling
    · rw [hScaling, ofParams_eq_binaryScaling_iff] at hParams
      rw [hScaling]
      exact fails_error (.inr ⟨hParams, rfl⟩)
    · exact fails_error (.inl (.shortage (shortage_toCodecError hScaling _)))
  · next parameters hParams =>
    refine Fails.mono (?_ : Fails _ (Complaint request.input)) fun _ => Or.inl
    refine fails_bind_of_ok (fails_ofInput _) fun header hHeader => ?_
    have hLength := headerSize_le_of_ofInput hHeader
    refine fails_bind ((memory.fails_reserve _ _).mono fun _ => .shortage) fun _ => ?_
    exact fails_bind (fails_decodeElements parameters hLength header) fun _ => fails_ok _

/-- Behind a header that announces narrow values, only the number of the bytes is ever to blame. -/
theorem fails_decode_of_lt (memory : Memory) {request : DecodeRequest}
    (hLength : headerSize ≤ request.input.length) {parameters : Parameters}
    (hParams : Parameters.ofParams request.params = .ok parameters)
    (hBits : statedBits request.input < parameters.kind.bits) :
    Fails (decode memory request) (Shortage request.input) := by
  unfold decode
  rw [hParams, ofInput_eq_ok hLength]
  refine fails_bind_of_ok (fails_ok _) fun header hSame => ?_
  obtain rfl := Except.ok.inj hSame
  refine fails_bind (memory.fails_reserve _ _) fun _ => ?_
  exact fails_bind (fails_decodeElements_of_lt parameters hLength hBits) fun _ => fails_ok _

end ScaleOffset

end ChunkFilters
