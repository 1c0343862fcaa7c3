import ChunkFilters.Proofs.Bits.Extension
import ChunkFilters.Proofs.Nbit.Acceptance

/-!
# Fewer elements, longer inputs

Packed elements that can be unpacked do not depend on the elements that follow them, nor on what the
input holds after the last of them. The description is walked once for all elements, and a walk does
not look at the input, so all that is left to compare are the elements themselves.

* `packs_of_ofParameters`, `Packs.ofParameters_eq`: parameters that speak of packed elements, taken
  apart around the number of elements and put together again with another;
* `run_of_packs`: what a request with such parameters comes to;
* `unpackElements_fewer`, `unpackElements_append`: fewer elements, and a longer input;
* `run_stable`: both for a whole request.

A chunk that was stored without packing is excluded. It is as long as its input.
-/

namespace ChunkFilters

/-- The request for another number of elements, which is the third parameter. -/
def DecodeRequest.withCount (request : DecodeRequest) (count : UInt32) : DecodeRequest :=
  { request with params := request.params.set 2 count }

/-- A request that is answered asks for the filter to be undone. -/
theorem Filter.reverse_of_run {filter : Filter} {name : String}
    {decode : DecodeRequest → Except CodecError Decoded}
    (hDecode : filter.decode = decodeOnly name decode) {request : DecodeRequest} {out : Bytes}
    (h : filter.run request = .ok out) : request.flags.contains .reverse = true := by
  rw [run, hDecode, decodeOnly] at h
  split at h
  · assumption
  · cases h

/-- What a request for elements gives: so many bytes for each, the front of them for fewer elements,
and all of them whatever bytes follow its input. -/
structure Stable (filter : Filter) (request : DecodeRequest) (out : Bytes) (count size : UInt32) :
    Prop where
  count_eq : request.params[2]? = some count
  size_eq : request.params[4]? = some size
  length_eq : out.length = count.toNat * size.toNat
  fewer : ∀ fewer : UInt32, fewer.toNat ≤ count.toNat →
    filter.run (request.withCount fewer) = .ok (out.take (fewer.toNat * size.toNat))
  longer : ∀ (extra : Bytes) (sizeHint : Nat),
    filter.run { request with input := request.input ++ extra, sizeHint } = .ok out

namespace Nbit

/-! ## Parameters -/

/-- The parameters of packed elements: their number, their class, and their description, which
starts with their size. -/
structure Packs (params : List UInt32) (count : UInt32) (datatypeClass : DatatypeClass)
    (size : UInt32) (rest : Description) : Prop where
  class_ne : datatypeClass ≠ .noOp
  size_pos : 0 < size.toNat
  params_eq : ∃ declared : UInt32, declared.toNat = params.length ∧
    params = declared :: 0 :: count :: datatypeClass.code :: size :: rest

theorem packs_of_ofParameters {params : List UInt32} (hPacked : params[1]? = some 0)
    {chunk : Chunk} (h : Chunk.ofParameters params = .ok chunk) :
    ∃ count datatypeClass size rest, Packs params count datatypeClass size rest := by
  have hParts := h
  obtain ⟨declaredNat, hFirst, hParts⟩ := bind_eq_ok hParts
  match params, hPacked with
  | declared :: packed :: others, hPacked =>
    obtain rfl : packed = 0 := Option.some.inj hPacked
    have hSame : declaredNat = declared.toNat := (Except.ok.inj hFirst).symm
    rw [hSame] at hParts
    by_cases hDeclared : declared.toNat = (declared :: 0 :: others).length
    · rw [if_neg (not_not_intro hDeclared)] at hParts
      obtain ⟨packed, hSecond, hParts⟩ := bind_eq_ok hParts
      have hZero : packed = 0 := (Except.ok.inj hSecond).symm
      rw [if_neg (not_not_intro hZero)] at hParts
      obtain ⟨countNat, hThird, -⟩ := bind_eq_ok hParts
      match others, hThird with
      | count :: encoded, _ =>
        obtain ⟨datatypeClass, size, rest, hClass, hPos, rfl, -⟩ := ofParameters_eq_ok hDeclared h
        exact ⟨count, datatypeClass, size, rest, hClass, hPos, declared, hDeclared, rfl⟩
    · rw [if_pos hDeclared] at hParts
      cases hParts

namespace Packs

variable {params : List UInt32} {count : UInt32} {datatypeClass : DatatypeClass} {size : UInt32}
  {rest : Description} (h : Packs params count datatypeClass size rest)
include h

theorem ofParameters_eq : Chunk.ofParameters params =
    .ok (.packed count.toNat datatypeClass size.toNat (size :: rest)) := by
  obtain ⟨declared, hDeclared, rfl⟩ := h.params_eq
  rw [ofParameters_packed hDeclared h.class_ne rfl, if_neg (Nat.ne_of_gt h.size_pos)]

theorem set (other : UInt32) : Packs (params.set 2 other) other datatypeClass size rest := by
  obtain ⟨declared, hDeclared, rfl⟩ := h.params_eq
  exact ⟨h.class_ne, h.size_pos, declared, hDeclared, rfl⟩

theorem getElem?_count : params[2]? = some count := by
  obtain ⟨declared, -, rfl⟩ := h.params_eq
  rfl

theorem getElem?_size : params[4]? = some size := by
  obtain ⟨declared, -, rfl⟩ := h.params_eq
  rfl

end Packs

/-- The walk of a description that starts with the size of the elements. -/
def elementWalk (datatypeClass : DatatypeClass) (size : UInt32) (rest : Description) : Walk :=
  Walk.datatype maxNesting datatypeClass size.toNat (size :: rest)

/-- The elements are unpacked if there is memory for them. -/
theorem run_of_packs {memory : Memory} {request : DecodeRequest}
    (hReverse : request.flags.contains .reverse = true) {count : UInt32}
    {datatypeClass : DatatypeClass} {size : UInt32} {rest : Description}
    (h : Packs request.params count datatypeClass size rest) :
    (filter memory).run request = memory.reserve (count.toNat * size.toNat) >>= fun _ =>
      unpackElements (elementWalk datatypeClass size rest) size.toNat request.params.length
        count.toNat request.input := by
  cases hOutput : memory.allows (count.toNat * size.toNat) with
  | true =>
    rw [Memory.reserve_of_allows hOutput]
    exact run_of_packed hReverse h.ofParameters_eq hOutput
  | false =>
    have hDecode : (filter memory).decode request = decode memory request :=
      Filter.decodeOnly_of_reverse hReverse _
    rw [Filter.run, hDecode, decode, h.ofParameters_eq]
    simp only [Memory.reserve_of_not_allows hOutput]
    rfl

theorem exists_chunk_of_run {memory : Memory} {request : DecodeRequest} {out : Bytes}
    (h : (filter memory).run request = .ok out) :
    ∃ chunk, Chunk.ofParameters request.params = .ok chunk := by
  cases hChunk : Chunk.ofParameters request.params with
  | ok chunk => exact ⟨chunk, rfl⟩
  | error error =>
    have hReverse : request.flags.contains .reverse = true := Filter.reverse_of_run rfl h
    have hDecode : (filter memory).decode request = decode memory request :=
      Filter.decodeOnly_of_reverse hReverse _
    rw [Filter.run, hDecode, decode, hChunk] at h
    cases h

/-! ## Elements -/

theorem size_unpackElement {layout : Layout} {size : Nat} {cursor next : BitCursor}
    {element : Array UInt8} (h : unpackElement layout size cursor = .ok (element, next)) :
    element.size = size := by
  rw [unpackElement, Layout.unpack_eq_unpackLeaves] at h
  rw [size_unpackLeaves h, Array.size_replicate]

theorem unpackElement_extend {extra : Bytes} {layout : Layout} {size : Nat}
    {cursor next : BitCursor} {element : Array UInt8}
    (h : unpackElement layout size cursor = .ok (element, next)) :
    unpackElement layout size (cursor.extend extra) = .ok (element, next.extend extra) :=
  Layout.unpack_extend h extra

section
variable {walk : Walk} {size count elements : Nat} {input out : Bytes}

/-- Elements that are unpacked are read one after the other, and there is no fault. -/
theorem exists_readMany (hElements : 0 < elements)
    (h : unpackElements walk size count elements input = .ok out) :
    walk.fault? count = none ∧ ∃ unpacked last,
      BitCursor.readMany (unpackElement walk.layout size) elements (.start input) #[] =
        .ok (unpacked, last) ∧ out = unpacked.toList.flatMap Array.toList := by
  have hFault : walk.fault? count = none :=
    Walk.fault?_eq_none (ending_of_unpackElements hElements h)
  rw [unpackElements, if_neg (Nat.ne_of_gt hElements), hFault] at h
  dsimp only at h
  cases hRead : BitCursor.readMany (unpackElement walk.layout size) elements (.start input)
      #[] with
  | error error =>
    rw [hRead] at h
    cases h
  | ok result =>
    rw [hRead] at h
    exact ⟨hFault, result.1, result.2, rfl, (Except.ok.inj h).symm⟩

theorem unpackElements_of_readMany {unpacked : Array (Array UInt8)} {last : BitCursor}
    (hFault : walk.fault? count = none)
    (h : BitCursor.readMany (unpackElement walk.layout size) elements (.start input) #[] =
      .ok (unpacked, last)) :
    unpackElements walk size count elements input =
      .ok (unpacked.toList.flatMap Array.toList) := by
  cases elements with
  | zero =>
    obtain ⟨rfl, -⟩ := Prod.mk.inj (Except.ok.inj h)
    rfl
  | succ elements =>
    rw [unpackElements, if_neg (Nat.succ_ne_zero elements), hFault]
    dsimp only
    rw [h]

/-- The first elements of a chunk are those of a chunk of fewer elements. -/
theorem unpackElements_fewer (h : unpackElements walk size count elements input = .ok out) :
    out.length = elements * size ∧ ∀ fewer ≤ elements,
      unpackElements walk size count fewer input = .ok (out.take (fewer * size)) := by
  rcases Nat.eq_zero_or_pos elements with rfl | hElements
  · obtain rfl : [] = out := Except.ok.inj h
    refine ⟨(Nat.zero_mul size).symm, ?_⟩
    intro fewer hFewer
    rw [Nat.le_zero.mp hFewer, List.take_nil]
    rfl
  · obtain ⟨hFault, unpacked, last, hRead, rfl⟩ := exists_readMany hElements h
    obtain ⟨new, hItems, hCount, hSizes, hFewer⟩ :=
      BitCursor.readMany_fewer size_unpackElement hRead
    have hItems : unpacked.toList = new := hItems
    have hLengths : ∀ element ∈ new.map Array.toList, element.length = size := by
      intro element hElement
      obtain ⟨item, hItem, rfl⟩ := List.mem_map.mp hElement
      exact hSizes item hItem
    rw [hItems, List.flatMap_def]
    refine ⟨?_, ?_⟩
    · rw [Bytes.length_flatten hLengths, List.length_map, hCount]
    · intro fewer hLe
      obtain ⟨middle, hMiddle⟩ := hFewer fewer hLe
      rw [unpackElements_of_readMany hFault hMiddle, Bytes.take_flatten hLengths, ← List.map_take,
        List.flatMap_def]
      rfl

/-- What follows the packed elements plays no part. -/
theorem unpackElements_append (h : unpackElements walk size count elements input = .ok out)
    (extra : Bytes) : unpackElements walk size count elements (input ++ extra) = .ok out := by
  rcases Nat.eq_zero_or_pos elements with rfl | hElements
  · exact h
  · obtain ⟨hFault, unpacked, last, hRead, rfl⟩ := exists_readMany hElements h
    have hLonger : BitCursor.readMany (unpackElement walk.layout size) elements
        (.start (input ++ extra)) #[] = .ok (unpacked, last.extend extra) := by
      rw [BitCursor.start_append]
      exact BitCursor.readMany_extend (fun h => unpackElement_extend h) hRead
    exact unpackElements_of_readMany hFault hLonger

end

/-! ## Requests -/

theorem run_stable {memory : Memory} {request : DecodeRequest}
    (hPacked : request.params[1]? = some 0) {out : Bytes}
    (h : (filter memory).run request = .ok out) :
    ∃ count size, Stable (filter memory) request out count size := by
  have hReverse : request.flags.contains .reverse = true := Filter.reverse_of_run rfl h
  obtain ⟨chunk, hChunk⟩ : ∃ chunk, Chunk.ofParameters request.params = .ok chunk :=
    exists_chunk_of_run h
  obtain ⟨count, datatypeClass, size, rest, hPacks⟩ := packs_of_ofParameters hPacked hChunk
  rw [run_of_packs hReverse hPacks] at h
  obtain ⟨_, hReserve, hUnpack⟩ := bind_eq_ok h
  obtain ⟨hLength, hFewer⟩ := unpackElements_fewer hUnpack
  refine ⟨count, size, hPacks.getElem?_count, hPacks.getElem?_size, hLength, ?_, ?_⟩
  · intro fewer hLe
    have hLength : (request.withCount fewer).params.length = request.params.length :=
      List.length_set
    have hOther : (request.withCount fewer).flags.contains .reverse = true := hReverse
    have hOutput := memory.allows_of_le (Nat.mul_le_mul_right size.toNat hLe)
      (Memory.allows_of_reserve hReserve)
    rw [run_of_packs hOther (hPacks.set fewer), Memory.reserve_of_allows hOutput, hLength]
    exact hFewer fewer.toNat hLe
  · intro extra sizeHint
    have hRun :=
      @run_of_packs memory { request with input := request.input ++ extra, sizeHint } hReverse
      count datatypeClass size rest hPacks
    rw [hRun, hReserve]
    exact unpackElements_append hUnpack extra

end Nbit

end ChunkFilters
