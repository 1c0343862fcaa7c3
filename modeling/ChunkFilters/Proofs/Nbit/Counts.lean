import ChunkFilters.Proofs.Nbit.Stability
import Mathlib.Control.Monad.Basic

/-!
# Descriptions and numbers of elements

A description is checked with the first element that is unpacked by it. The check does not depend on
how many elements there are, as long as there is one: whatever is decoded has a description that is
that of a datatype to its end, and a description that is refused for one number of elements is
refused in the same words for every other.

* `ofParameters_withCount`: the numbers in front of the description, with another count;
* `unpackElements_eq_invalid`: a fault of the description is found in the first element;
* `description_checked`: both directions for whole requests.

Chunks of no elements are excluded. Nothing is unpacked of them, and no description is refused
(`run_none_unchecked`).
-/

namespace ChunkFilters.Nbit

/-! ## Another number of elements -/

/-- The same chunk with another number of elements. -/
def Chunk.withCount (count : UInt32) : Chunk → Chunk
  | .verbatim => .verbatim
  | .packed _ elementClass elementSize description =>
    .packed count.toNat elementClass elementSize description

theorem ofParameters_withCount {params : List UInt32} (hPacked : params[1]? = some 0)
    {count : UInt32} (hCount : params[2]? = some count) (other : UInt32) :
    Chunk.ofParameters (params.set 2 other) =
      (Chunk.ofParameters params).map (Chunk.withCount other) := by
  match params, hPacked, hCount with
  | declared :: packed :: first :: encoded, hPacked, _ =>
    obtain rfl : packed = 0 := Option.some.inj hPacked
    have hClass : elementClass (declared :: 0 :: other :: encoded) =
        elementClass (declared :: 0 :: first :: encoded) := rfl
    have hLength : (declared :: 0 :: other :: encoded).length =
        (declared :: 0 :: first :: encoded).length := rfl
    have hPacked : ¬ (0 : UInt32).toNat ≠ 0 := not_not_intro rfl
    show Chunk.ofParameters (declared :: 0 :: other :: encoded) = _
    simp only [Chunk.ofParameters, parameter, List.getElem?_cons_zero, List.getElem?_cons_succ,
      bind, Except.bind, hClass, hLength, if_neg hPacked]
    split
    · rfl
    · cases elementClass (declared :: 0 :: first :: encoded) with
      | error error => rfl
      | ok datatypeClass =>
        cases encoded[1]? with
        | none => rfl
        | some size =>
          dsimp only
          split
          · rfl
          · rfl

/-- A lack of memory does not blame the parameters. -/
theorem eq_invalid_of_reserve {α : Type} {memory : Memory} {size : Nat}
    {result : Except CodecError α} {filterName reason : String}
    (h : (memory.reserve size >>= fun _ => result) =
      .error (.invalidParameters filterName reason)) :
    result = .error (.invalidParameters filterName reason) := by
  unfold Memory.reserve at h
  split at h
  · exact h
  · cases h

/-- A fault of the description is found in the first element, if there is one. -/
theorem unpackElements_eq_invalid {walk : Walk} {size count elements : Nat} {input : Bytes}
    {filterName reason : String}
    (h : unpackElements walk size count elements input =
      .error (.invalidParameters filterName reason)) {other : Nat} (hOther : 0 < other) :
    unpackElements walk size count other input =
      .error (.invalidParameters filterName reason) := by
  unfold unpackElements at h ⊢
  rw [if_neg (Nat.ne_of_gt hOther)]
  split at h
  · cases h
  · cases hFault : walk.fault? count with
    | none =>
      rw [hFault] at h
      dsimp only at h
      split at h
      · cases h
      · cases h
    | some error =>
      rw [hFault] at h
      exact h

/-! ## Checked descriptions -/

/-- The walk of a description that ends where the parameters do has read a datatype. -/
theorem exists_wellFormed_of_ending {datatypeClass : DatatypeClass} (hClass : datatypeClass ≠ .noOp)
    {size : UInt32} {rest : Description}
    (h : (elementWalk datatypeClass size rest).ending = .ok []) :
    ∃ datatype : Datatype, datatypeClass.code :: size :: rest = datatype.encoded ∧
      datatype.WellFormed := by
  obtain ⟨datatype, hWritten, hFits⟩ := Walk.sound_datatype maxNesting h
  have hDescription : size :: rest = datatype.description := by
    rw [hWritten.description_eq, List.append_nil]
  have hSize : size.toNat = datatype.size := by
    obtain ⟨first, others, hFirst, hSame⟩ := datatype.exists_description
    rw [hFirst, List.cons.injEq] at hDescription
    rw [hSame, hDescription.1]
  refine ⟨datatype, ?_, hWritten.class_eq ▸ hClass, hWritten.valid, hWritten.depth_le,
    hSize ▸ hFits⟩
  rw [Datatype.encoded, hWritten.class_eq, hDescription]

theorem Packs.drop_three {params : List UInt32} {count : UInt32} {datatypeClass : DatatypeClass}
    {size : UInt32} {rest : Description} (h : Packs params count datatypeClass size rest) :
    params.drop 3 = datatypeClass.code :: size :: rest := by
  obtain ⟨declared, -, rfl⟩ := h.params_eq
  rfl

section
variable {memory : Memory} {request : DecodeRequest} (hPacked : request.params[1]? = some 0)
include hPacked

/-- Elements that are unpacked have the datatype that the parameters describe, to their end. -/
theorem exists_wellFormed_of_run {count : UInt32} (hCount : request.params[2]? = some count)
    (hPos : 0 < count.toNat) {out : Bytes} (h : (filter memory).run request = .ok out) :
    ∃ datatype : Datatype, request.params.drop 3 = datatype.encoded ∧ datatype.WellFormed := by
  have hReverse : request.flags.contains .reverse = true := Filter.reverse_of_run rfl h
  obtain ⟨chunk, hChunk⟩ := exists_chunk_of_run h
  obtain ⟨found, datatypeClass, size, rest, hPacks⟩ := packs_of_ofParameters hPacked hChunk
  obtain rfl : found = count := Option.some.inj (hPacks.getElem?_count.symm.trans hCount)
  rw [run_of_packs hReverse hPacks] at h
  obtain ⟨_, -, hUnpack⟩ := bind_eq_ok h
  rw [hPacks.drop_three]
  exact exists_wellFormed_of_ending hPacks.class_ne (ending_of_unpackElements hPos hUnpack)

/-- What is refused because of its parameters is refused for other numbers of elements. -/
theorem run_withCount_eq_invalid {count : UInt32} (hCount : request.params[2]? = some count)
    {filterName reason : String}
    (h : (filter memory).run request = .error (.invalidParameters filterName reason))
    {other : UInt32} (hOther : 0 < other.toNat)
    (hOutput : ∀ size, request.params[4]? = some size →
      memory.allows (other.toNat * size.toNat) = true) :
    (filter memory).run (request.withCount other) =
      .error (.invalidParameters filterName reason) := by
  by_cases hReverse : request.flags.contains .reverse = true
  · have hReverseOther : (request.withCount other).flags.contains .reverse = true := hReverse
    cases hChunk : Chunk.ofParameters request.params with
    | error error =>
      have hChunkOther : Chunk.ofParameters (request.withCount other).params = .error error := by
        rw [DecodeRequest.withCount, ofParameters_withCount hPacked hCount, hChunk]
        rfl
      rw [run_of_error hReverse hChunk] at h
      rw [run_of_error hReverseOther hChunkOther, h]
    | ok chunk =>
      obtain ⟨found, datatypeClass, size, rest, hPacks⟩ := packs_of_ofParameters hPacked hChunk
      rw [run_of_packs hReverse hPacks] at h
      have hLength : (request.withCount other).params.length = request.params.length :=
        List.length_set
      rw [run_of_packs hReverseOther (hPacks.set other),
        Memory.reserve_of_allows (hOutput size hPacks.getElem?_size), hLength]
      exact unpackElements_eq_invalid (eq_invalid_of_reserve h) hOther
  · have hRefused : (filter memory).decode request = .error (.encodeUnsupported name) :=
      if_neg hReverse
    rw [Filter.run, hRefused] at h
    cases h

end

/-! ## Main statement -/

/-- Elements are only decoded by a description of a datatype that ends where the parameters do, and
a description that is refused is refused whatever the number of elements, as long as there are some.
-/
theorem description_checked {memory : Memory} {request : DecodeRequest}
    (hPacked : request.params[1]? = some 0) {count : UInt32}
    (hCount : request.params[2]? = some count) :
    (0 < count.toNat → ∀ out, (filter memory).run request = .ok out →
      ∃ datatype : Datatype, request.params.drop 3 = datatype.encoded ∧ datatype.WellFormed) ∧
    ∀ filterName reason,
      (filter memory).run request = .error (.invalidParameters filterName reason) →
      ∀ other : UInt32, 0 < other.toNat →
        (∀ size, request.params[4]? = some size →
          memory.allows (other.toNat * size.toNat) = true) →
          (filter memory).run (request.withCount other) =
            .error (.invalidParameters filterName reason) :=
  ⟨fun hPos _ => exists_wellFormed_of_run hPacked hCount hPos,
    fun _ _ hRun _ => run_withCount_eq_invalid hPacked hCount hRun⟩

/-- Two integers of twelve bits are decoded, and with a number left over after their description
they are refused, as one such integer is. -/
theorem description_checked_uint16 :
    let request (params : List UInt32) : DecodeRequest :=
      { flags := .reverse, params, input := [0xab, 0xc1, 0x23], sizeHint := 3, options := ⟨true⟩ }
    (∃ datatype : Datatype, [1, 2, 0, 12, 2] = datatype.encoded ∧ datatype.WellFormed) ∧
      (filter .standard).run (request [9, 0, 1, 1, 2, 0, 12, 2, 0]) =
        .error (invalid (.leftOver 8 9)) := by
  intro request
  have hDecoded : (filter .standard).run (request [8, 0, 2, 1, 2, 0, 12, 2]) =
      .ok [0xf0, 0x2a, 0x8c, 0x04] := by decide +kernel
  have hRefused : (filter .standard).run (request [9, 0, 2, 1, 2, 0, 12, 2, 0]) =
      .error (invalid (.leftOver 8 9)) := by decide +kernel
  obtain ⟨hChecked, -⟩ :=
    @description_checked .standard (request [8, 0, 2, 1, 2, 0, 12, 2]) rfl 2 rfl
  obtain ⟨-, hOthers⟩ :=
    @description_checked .standard (request [9, 0, 2, 1, 2, 0, 12, 2, 0]) rfl 2 rfl
  refine ⟨hChecked (by decide) _ hDecoded, hOthers _ _ hRefused 1 (by decide) ?_⟩
  intro size hSize
  cases hSize
  decide

/-- Of no elements nothing is unpacked, and the number that is left over is not noticed. -/
theorem run_none_unchecked :
    let request : DecodeRequest :=
      { flags := .reverse, params := [9, 0, 0, 1, 2, 0, 12, 2, 0], input := [0, 0, 0],
        sizeHint := 3, options := ⟨true⟩ }
    (filter .standard).run request = .ok [] ∧
      (∀ datatype : Datatype, request.params.drop 3 ≠ datatype.encoded) ∧
      (filter .standard).run (request.withCount 2) = .error (invalid (.leftOver 8 9)) := by
  intro request
  refine ⟨by decide +kernel, ?_, by decide +kernel⟩
  intro datatype hEncoded
  obtain ⟨hClass, hDescription⟩ := List.cons.inj hEncoded
  cases datatype with
  | atomic size order precision offset =>
    -- the description of an atomic datatype has four numbers
    have hLength := congrArg List.length hDescription
    cases hLength
  | array size base => cases hClass
  | compound size members => cases hClass
  | noOp size => cases hClass

end ChunkFilters.Nbit
