import ChunkFilters.Proofs.Nbit.Elements
import ChunkFilters.Proofs.Nbit.Walk

/-!
# Which parameters are accepted

Any list of numbers can stand where the parameters of a chunk are expected. Packed elements are
decoded from exactly those lists that encode a well-formed datatype with nothing left over, and from
exactly those inputs that have enough bits for the elements (`run_isOk_iff`). A chunk of no elements
is not considered, because its description is never looked at.

The numbers in front of the description come first (`ofParameters_eq_ok`, `ofParameters_packed`).
What remains is a walk of the description and the elements that are unpacked by it, and for a
well-formed datatype both are known (`Datatype.run_eq`, `Datatype.laysOut`).
-/

namespace ChunkFilters.Nbit

/-! ## Parameters -/

theorem elementClass_eq_ok {params : List UInt32} {found : DatatypeClass}
    (h : elementClass params = .ok found) :
    params[3]? = some found.code ∧ found ≠ .noOp := by
  rw [elementClass] at h
  cases hCode : params[3]? with
  | none =>
    rw [hCode] at h
    cases h
  | some code =>
    rw [hCode, Option.bind_some] at h
    cases hClass : DatatypeClass.ofParameter? code with
    | none =>
      rw [hClass] at h
      cases h
    | some datatypeClass =>
      rw [hClass] at h
      rw [DatatypeClass.eq_code_of_ofParameter? hClass]
      cases datatypeClass with
      | noOp => cases h
      | atomic => cases h; exact ⟨rfl, by decide⟩
      | array => cases h; exact ⟨rfl, by decide⟩
      | compound => cases h; exact ⟨rfl, by decide⟩

theorem elementClass_of_code {params : List UInt32} {datatypeClass : DatatypeClass}
    (hClass : datatypeClass ≠ .noOp) (h : params[3]? = some datatypeClass.code) :
    elementClass params = .ok datatypeClass := by
  rw [elementClass, h, Option.bind_some, DatatypeClass.ofParameter?_code]
  cases datatypeClass with
  | noOp => exact absurd rfl hClass
  | atomic => rfl
  | array => rfl
  | compound => rfl

section
variable {declared count : UInt32} {encoded : List UInt32}
  (hDeclared : declared.toNat = (declared :: 0 :: count :: encoded).length)
include hDeclared

/-- What the parameters must be to speak of packed elements. -/
theorem ofParameters_eq_ok {chunk : Chunk}
    (h : Chunk.ofParameters (declared :: 0 :: count :: encoded) = .ok chunk) :
    ∃ (datatypeClass : DatatypeClass) (size : UInt32) (rest : Description),
      datatypeClass ≠ .noOp ∧ 0 < size.toNat ∧ encoded = datatypeClass.code :: size :: rest ∧
        chunk = .packed count.toNat datatypeClass size.toNat (size :: rest) := by
  obtain ⟨declaredNat, hFirst, h⟩ := bind_eq_ok h
  have hSame : declaredNat = declared.toNat := (Except.ok.inj hFirst).symm
  rw [hSame, if_neg (not_not_intro hDeclared)] at h
  obtain ⟨packed, hSecond, h⟩ := bind_eq_ok h
  have hPacked : packed = 0 := (Except.ok.inj hSecond).symm
  rw [hPacked, if_neg (not_not_intro rfl)] at h
  obtain ⟨countNat, hThird, h⟩ := bind_eq_ok h
  obtain ⟨datatypeClass, hClass, h⟩ := bind_eq_ok h
  obtain ⟨sizeNat, hSize, h⟩ := bind_eq_ok h
  obtain ⟨hCode, hNe⟩ := elementClass_eq_ok hClass
  match encoded, hDeclared, hCode, hSize, h with
  | [], _, hCode, _, _ => cases hCode
  | [code], _, _, hSize, _ => cases hSize
  | code :: size :: rest, _, hCode, hSize, h =>
    have hCode : code = datatypeClass.code := Option.some.inj hCode
    have hSize : sizeNat = size.toNat := (Except.ok.inj hSize).symm
    have hCount : countNat = count.toNat := (Except.ok.inj hThird).symm
    rw [hSize] at h
    by_cases hZero : size.toNat = 0
    · rw [if_pos hZero] at h
      cases h
    · rw [if_neg hZero] at h
      refine ⟨datatypeClass, size, rest, hNe, Nat.pos_of_ne_zero hZero, by rw [hCode], ?_⟩
      rw [← hCount]
      exact (Except.ok.inj h).symm

/-- Such parameters do speak of packed elements. -/
theorem ofParameters_packed {datatypeClass : DatatypeClass} {size : UInt32} {rest : Description}
    (hClass : datatypeClass ≠ .noOp) (hEncoded : encoded = datatypeClass.code :: size :: rest) :
    Chunk.ofParameters (declared :: 0 :: count :: encoded) =
      if size.toNat = 0 then .error .elementSizeZero
      else .ok (.packed count.toNat datatypeClass size.toNat (size :: rest)) := by
  subst hEncoded
  have hElementClass :
      elementClass (declared :: 0 :: count :: datatypeClass.code :: size :: rest) =
        .ok datatypeClass := elementClass_of_code hClass rfl
  have hPacked : ¬ (0 : UInt32).toNat ≠ 0 := not_not_intro rfl
  simp only [Chunk.ofParameters, parameter, List.getElem?_cons_zero, List.getElem?_cons_succ,
    bind, Except.bind, if_neg (not_not_intro hDeclared), if_neg hPacked, hElementClass]
  rfl

end

/-! ## The filter on packed elements -/

variable {memory : Memory}

theorem run_of_error {request : DecodeRequest} (hReverse : request.flags.contains .reverse = true)
    {error : ParameterError} (h : Chunk.ofParameters request.params = .error error) :
    (filter memory).run request = .error (invalid error) := by
  have hDecode : (filter memory).decode request = decode memory request :=
    Filter.decodeOnly_of_reverse hReverse _
  rw [Filter.run, hDecode, decode, h]
  rfl

theorem run_of_packed {request : DecodeRequest}
    (hReverse : request.flags.contains .reverse = true) {elements size : Nat}
    {datatypeClass : DatatypeClass} {description : Description}
    (h : Chunk.ofParameters request.params = .ok (.packed elements datatypeClass size description))
    (hOutput : memory.allows (elements * size) = true) :
    (filter memory).run request =
      unpackElements (Walk.datatype maxNesting datatypeClass size description) size
        request.params.length elements request.input := by
  have hDecode : (filter memory).decode request = decode memory request :=
    Filter.decodeOnly_of_reverse hReverse _
  rw [Filter.run, hDecode, decode, h]
  simp only [Memory.reserve_of_allows hOutput, bind, Except.bind]
  cases unpackElements (Walk.datatype maxNesting datatypeClass size description) size
    request.params.length elements request.input with
  | error error => rfl
  | ok out => rfl

theorem Walk.fault?_eq_none {walk : Walk} {count : Nat} (h : walk.ending = .ok []) :
    walk.fault? count = none := by
  rw [Walk.fault?, h]

/-- Elements are unpacked only if the description ends where the parameters do. -/
theorem ending_of_unpackElements {walk : Walk} {size count elements : Nat} {input out : Bytes}
    (hElements : 0 < elements) (h : unpackElements walk size count elements input = .ok out) :
    walk.ending = .ok [] := by
  rw [unpackElements, if_neg (Nat.ne_of_gt hElements)] at h
  cases hFault : walk.fault? count with
  | some error =>
    simp only [hFault] at h
    split at h
    · cases h
    · cases h
  | none =>
    rw [Walk.fault?] at hFault
    split at hFault
    · cases hFault
    · next hEnding => exact hEnding
    · cases hFault

namespace Datatype

theorem exists_description (datatype : Datatype) :
    ∃ (size : UInt32) (rest : Description),
      datatype.description = size :: rest ∧ datatype.size = size.toNat := by
  cases datatype with
  | atomic size order precision offset => exact ⟨size, _, rfl, rfl⟩
  | array size base => exact ⟨size, _, rfl, rfl⟩
  | compound size members => exact ⟨size, _, rfl, rfl⟩
  | noOp size => exact ⟨size, _, rfl, rfl⟩

/-- What is declared to be there can be counted. -/
theorem length_description_lt {datatype : Datatype} {declared count : UInt32}
    {params : List UInt32} (hParams : params = declared :: 0 :: count :: datatype.encoded)
    (hDeclared : declared.toNat = params.length) :
    datatype.description.length < UInt32.size := by
  have hLt := declared.toNat_lt_size
  rw [hDeclared, hParams, encoded] at hLt
  simp only [List.length_cons] at hLt
  omega

variable {datatype : Datatype} (hWellFormed : datatype.WellFormed)
include hWellFormed

/-- The walk of the whole description. -/
theorem laysOut (hLength : datatype.description.length < UInt32.size) :
    (Walk.datatype maxNesting datatype.datatypeClass datatype.size
      datatype.description).LaysOut datatype.leaves [] := by
  have hWalk := datatype.walk_description hWellFormed.valid hWellFormed.depth_le hWellFormed.fits
    hLength []
  rwa [List.append_nil] at hWalk

section
variable {request : DecodeRequest} (hReverse : request.flags.contains .reverse = true)
  {declared count : UInt32}
  (hParams : request.params = declared :: 0 :: count :: datatype.encoded)
  (hDeclared : declared.toNat = request.params.length)
include hReverse hParams hDeclared

/-- A datatype without a size is refused. -/
theorem run_of_size_eq_zero (hSize : datatype.size = 0) :
    (filter memory).run request = .error (invalid .elementSizeZero) := by
  obtain ⟨size, rest, hDescription, hSame⟩ := datatype.exists_description
  have hEncoded : datatype.encoded = datatype.datatypeClass.code :: size :: rest := by
    rw [encoded, hDescription]
  rw [hParams] at hDeclared
  have hChunk := ofParameters_packed hDeclared hWellFormed.class_ne hEncoded
  rw [if_pos (hSame.symm.trans hSize), ← hParams] at hChunk
  exact run_of_error hReverse hChunk

/-- Any other is walked, and the elements are unpacked. -/
theorem run_eq (hSize : 0 < datatype.size)
    (hOutput : memory.allows (count.toNat * datatype.size) = true) :
    (filter memory).run request =
      unpackElements (Walk.datatype maxNesting datatype.datatypeClass datatype.size
        datatype.description) datatype.size request.params.length count.toNat request.input := by
  obtain ⟨size, rest, hDescription, hSame⟩ := datatype.exists_description
  have hEncoded : datatype.encoded = datatype.datatypeClass.code :: size :: rest := by
    rw [encoded, hDescription]
  rw [hParams] at hDeclared
  have hChunk := ofParameters_packed hDeclared hWellFormed.class_ne hEncoded
  rw [if_neg (by omega), ← hSame, ← hDescription, ← hParams] at hChunk
  exact run_of_packed hReverse hChunk hOutput

/-- Given the parameters, the elements can be decoded exactly from the inputs that are long
enough. -/
theorem run_isOk_iff_bits (hSize : 0 < datatype.size)
    (hOutput : memory.allows (count.toNat * datatype.size) = true) :
    (∃ out, (filter memory).run request = .ok out) ↔
      count.toNat * datatype.bits ≤ 8 * request.input.length := by
  have hWalk := laysOut hWellFormed (length_description_lt hParams hDeclared)
  have hValid : ∀ leaf ∈ (Walk.datatype maxNesting datatype.datatypeClass datatype.size
      datatype.description).layout.leaves 0, leaf.Valid := by
    rw [hWalk.leaves_eq]
    exact fun _ => valid_of_mem_leaves hWellFormed.valid
  rw [run_eq hWellFormed hReverse hParams hDeclared hSize hOutput,
    unpackElements_isOk_iff hValid (Walk.fault?_eq_none hWalk.ending_eq), hWalk.leaves_eq,
    datatype.bitCount_leaves]

end

end Datatype

/-! ## The accepted parameters -/

/-- Packed elements are decoded if and only if the numbers after the count encode a well-formed
datatype and the input has enough bits. -/
theorem run_isOk_iff {request : DecodeRequest}
    (hReverse : request.flags.contains .reverse = true) {declared count : UInt32}
    {encoded : List UInt32} (hParams : request.params = declared :: 0 :: count :: encoded)
    (hDeclared : declared.toNat = request.params.length) (hCount : 0 < count.toNat)
    (hOutput : ∀ size, encoded[1]? = some size → memory.allows (count.toNat * size.toNat) = true) :
    (∃ out, (filter memory).run request = .ok out) ↔
      ∃ datatype : Datatype, encoded = datatype.encoded ∧ datatype.WellFormed ∧
        0 < datatype.size ∧ count.toNat * datatype.bits ≤ 8 * request.input.length := by
  have hReserve : ∀ {datatype : Datatype}, encoded = datatype.encoded →
      memory.allows (count.toNat * datatype.size) = true := by
    intro datatype hEncoded
    obtain ⟨size, rest, hDescription, hSize⟩ := datatype.exists_description
    rw [hSize]
    apply hOutput
    rw [hEncoded, Datatype.encoded, hDescription]
    rfl
  constructor
  · rintro ⟨out, hRun⟩
    cases hChunk : Chunk.ofParameters request.params with
    | error error =>
      rw [run_of_error hReverse hChunk] at hRun
      cases hRun
    | ok chunk =>
      have hPacked := hChunk
      rw [hParams] at hPacked
      obtain ⟨datatypeClass, size, rest, hClass, hPos, hEncoded, rfl⟩ :=
        ofParameters_eq_ok (hParams ▸ hDeclared) hPacked
      have hUnpacked := hRun
      rw [run_of_packed hReverse hChunk (hOutput size (by rw [hEncoded]; rfl))] at hUnpacked
      -- The walk has come to the end, so it has read the description of a tree.
      obtain ⟨datatype, hWritten, hFits⟩ :=
        Walk.sound_datatype maxNesting (ending_of_unpackElements hCount hUnpacked)
      have hDescription : size :: rest = datatype.description := by
        rw [hWritten.description_eq, List.append_nil]
      have hSize : datatype.size = size.toNat := by
        obtain ⟨other, others, hOther, hSame⟩ := datatype.exists_description
        rw [hOther, List.cons.injEq] at hDescription
        rw [hSame, hDescription.1]
      have hSame : encoded = datatype.encoded := by
        rw [hEncoded, Datatype.encoded, hWritten.class_eq, hDescription]
      rw [← hSize] at hFits hPos
      have hWellFormed : datatype.WellFormed :=
        ⟨hWritten.class_eq ▸ hClass, hWritten.valid, hWritten.depth_le, hFits⟩
      refine ⟨datatype, hSame, hWellFormed, hPos, ?_⟩
      exact (Datatype.run_isOk_iff_bits hWellFormed hReverse (hSame ▸ hParams) hDeclared hPos
        (hReserve hSame)).mp ⟨out, hRun⟩
  · rintro ⟨datatype, hEncoded, hWellFormed, hPos, hBits⟩
    exact (Datatype.run_isOk_iff_bits hWellFormed hReverse (hEncoded ▸ hParams) hDeclared hPos
      (hReserve hEncoded)).mpr hBits

/-- Two compounds of four bytes, with three bits kept of each byte of an array at offset one. -/
theorem run_isOk_iff_compound :
    let request : DecodeRequest :=
      { flags := .reverse, params := [14, 0, 2, 3, 4, 1, 1, 2, 2, 1, 1, 0, 3, 2],
        input := [0xb5, 0x60], sizeHint := 2, options := ⟨true⟩ }
    ∃ out, (filter .standard).run request = .ok out := by
  intro request
  refine (run_isOk_iff (by decide) rfl rfl (by decide) ?_).mpr
    ⟨.compound 4 (.cons 1 (.array 2 (.atomic 1 .little 3 2)) .nil), rfl, ?_, by decide,
      by decide⟩
  · rintro size hSize
    cases hSize
    decide
  · constructor
    · decide
    · exact ⟨⟨by decide, by decide, by decide⟩, trivial⟩
    · decide
    · refine ⟨Nat.le_refl 4, by decide, ⟨by decide, ?_, ?_⟩, trivial⟩
      · rintro (hArray | hCompound)
        · cases hArray
        · cases hCompound
      · exact fun _ => Nat.le_refl 1

end ChunkFilters.Nbit
