import ChunkFilters.Proofs.Nbit.Datatype

/-!
# The grammar of descriptions

`Datatype.Written` says that a list of numbers starts with the description of a datatype, and what
follows it. `Description.skip` is a parser for exactly that: it reads past every description of a
valid tree that is not too deep (`Datatype.skip_description`), and whatever it reads past is the
description of such a tree (`exists_written_of_skip`).

The number of members is written as one number, so a tree with too many members has no description.
No list of parameters is long enough to run into this.
-/

namespace ChunkFilters.Nbit

theorem bind_eq_ok {ε α β : Type} {result : Except ε α} {next : α → Except ε β} {value : β}
    (h : (result >>= next) = .ok value) :
    ∃ found, result = .ok found ∧ next found = .ok value := by
  cases result with
  | error error => cases h
  | ok found => exact ⟨found, rfl, h⟩

namespace Description

/-! ## Reading from the front -/

theorem next_eq_ok {description rest : Description} {value : UInt32}
    (h : description.next = .ok (value, rest)) : description = value :: rest := by
  cases description with
  | nil => cases h
  | cons first others =>
    rw [next, Except.ok.injEq, Prod.mk.injEq] at h
    rw [h.1, h.2]

theorem nextSize_eq_ok {description rest : Description} {size : Nat}
    (h : description.nextSize = .ok (size, rest)) :
    ∃ value : UInt32, size = value.toNat ∧ description = value :: rest := by
  cases description with
  | nil => cases h
  | cons first others =>
    have h : Except.ok (first.toNat, others) = Except.ok (size, rest) := h
    rw [Except.ok.injEq, Prod.mk.injEq] at h
    exact ⟨first, h.1.symm, by rw [h.2]⟩

theorem nextSize_cons (value : UInt32) (rest : Description) :
    nextSize (value :: rest) = .ok (value.toNat, rest) := rfl

theorem nextClass_eq_ok {description rest : Description} {datatypeClass : DatatypeClass}
    (h : description.nextClass = .ok (datatypeClass, rest)) :
    description = datatypeClass.code :: rest := by
  obtain ⟨⟨value, others⟩, hNext, h⟩ := bind_eq_ok h
  cases hClass : DatatypeClass.ofParameter? value with
  | none =>
    simp only [hClass] at h
    cases h
  | some found =>
    simp only [hClass, pure, Except.pure, Except.ok.injEq, Prod.mk.injEq] at h
    rw [next_eq_ok hNext, DatatypeClass.eq_code_of_ofParameter? hClass, h.1, h.2]

theorem nextClass_cons (datatypeClass : DatatypeClass) (rest : Description) :
    nextClass (datatypeClass.code :: rest) = .ok (datatypeClass, rest) := by
  simp only [nextClass, next, bind, Except.bind, DatatypeClass.ofParameter?_code]
  rfl

theorem nextAtomic_eq_ok {description rest : Description} {layout : PackedAtomic}
    (h : description.nextAtomic = .ok (layout, rest)) :
    ∃ (size : UInt32) (order : ByteOrder) (precision offset : UInt32),
      layout = ⟨size.toNat, order, precision.toNat, offset.toNat⟩ ∧ layout.Valid ∧
        description = size :: order.code :: precision :: offset :: rest := by
  obtain ⟨⟨sizeNat, afterSize⟩, hSize, h⟩ := bind_eq_ok h
  obtain ⟨⟨orderCode, afterOrder⟩, hOrderCode, h⟩ := bind_eq_ok h
  cases hOrder : ByteOrder.ofParameter? orderCode with
  | none =>
    simp only [hOrder] at h
    cases h
  | some order =>
    simp only [hOrder] at h
    obtain ⟨⟨precisionNat, afterPrecision⟩, hPrecision, h⟩ := bind_eq_ok h
    obtain ⟨⟨offsetNat, afterOffset⟩, hOffset, h⟩ := bind_eq_ok h
    obtain ⟨size, rfl, rfl⟩ := nextSize_eq_ok hSize
    obtain ⟨precision, rfl, rfl⟩ := nextSize_eq_ok hPrecision
    obtain ⟨offset, rfl, hAfter⟩ := nextSize_eq_ok hOffset
    have hAfter : afterPrecision = offset :: afterOffset := hAfter
    cases hFault : PackedAtomic.fault? ⟨size.toNat, order, precision.toNat, offset.toNat⟩ with
    | some fault =>
      simp only [hFault] at h
      cases h
    | none =>
      simp only [hFault, pure, Except.pure, Except.ok.injEq, Prod.mk.injEq] at h
      obtain ⟨rfl, rfl⟩ := h
      refine ⟨size, order, precision, offset, rfl, PackedAtomic.valid_of_fault? hFault, ?_⟩
      rw [next_eq_ok hOrderCode, ByteOrder.eq_code_of_ofParameter? hOrder, hAfter]

theorem nextAtomic_cons {size : UInt32} {order : ByteOrder} {precision offset : UInt32}
    (hValid : PackedAtomic.Valid ⟨size.toNat, order, precision.toNat, offset.toNat⟩)
    (rest : Description) :
    nextAtomic (size :: order.code :: precision :: offset :: rest) =
      .ok (⟨size.toNat, order, precision.toNat, offset.toNat⟩, rest) := by
  have hSize := size.toNat_lt
  have hMax : 8 * size.toNat ≤ PackedAtomic.maxBits := by
    rw [PackedAtomic.maxBits, UInt64.size]
    omega
  have hFault := PackedAtomic.fault?_of_valid hValid hMax
  simp only [nextAtomic, nextSize, next, bind, Except.bind, pure, Except.pure,
    ByteOrder.ofParameter?_code, hFault]

end Description

/-! ## Descriptions of trees -/

/-- The list starts with the description of a valid datatype of at most `levels` nested arrays and
compounds, and goes on with `rest`. -/
structure Datatype.Written (levels : Nat) (datatypeClass : DatatypeClass)
    (description rest : Description) (datatype : Datatype) : Prop where
  class_eq : datatype.datatypeClass = datatypeClass
  valid : datatype.Valid
  depth_le : datatype.depth ≤ levels
  description_eq : description = datatype.description ++ rest

/-- The same for the members of a compound. -/
structure Members.Written (levels count : Nat) (description rest : Description)
    (members : Members) : Prop where
  count_eq : members.count = count
  valid : members.Valid
  depth_le : members.depth ≤ levels
  description_eq : description = members.description ++ rest

theorem Datatype.written_atomic {size : UInt32} {order : ByteOrder} {precision offset : UInt32}
    (hValid : PackedAtomic.Valid ⟨size.toNat, order, precision.toNat, offset.toNat⟩)
    (levels : Nat) (rest : Description) :
    Datatype.Written levels .atomic (size :: order.code :: precision :: offset :: rest) rest
      (.atomic size order precision offset) :=
  ⟨rfl, hValid, Nat.zero_le levels, rfl⟩

theorem Datatype.written_noOp (levels : Nat) (size : UInt32) (rest : Description) :
    Datatype.Written levels .noOp (size :: rest) rest (.noOp size) :=
  ⟨rfl, trivial, Nat.zero_le levels, rfl⟩

theorem Datatype.Written.array {levels : Nat} {baseClass : DatatypeClass}
    {description rest : Description} {base : Datatype}
    (h : base.Written levels baseClass description rest) (size : UInt32) :
    Datatype.Written (levels + 1) .array (size :: baseClass.code :: description) rest
      (.array size base) := by
  refine ⟨rfl, h.valid, Nat.succ_le_succ h.depth_le, ?_⟩
  rw [Datatype.description, h.class_eq, h.description_eq]
  rfl

theorem Members.Written.compound {levels : Nat} {count : UInt32}
    {description rest : Description} {members : Members}
    (h : members.Written levels count.toNat description rest) (size : UInt32) :
    Datatype.Written (levels + 1) .compound (size :: count :: description) rest
      (.compound size members) := by
  refine ⟨rfl, h.valid, Nat.succ_le_succ h.depth_le, ?_⟩
  rw [Datatype.description, h.count_eq, UInt32.ofNat_toNat, h.description_eq]
  rfl

theorem Members.written_nil (levels : Nat) (rest : Description) :
    Members.Written levels 0 rest rest .nil :=
  ⟨rfl, trivial, Nat.zero_le levels, rfl⟩

theorem Members.Written.cons {levels count : Nat} {memberClass : DatatypeClass}
    {description middle rest : Description} {datatype : Datatype} {others : Members}
    (hOthers : others.Written levels count middle rest)
    (hDatatype : datatype.Written levels memberClass description middle) (offset : UInt32) :
    Members.Written levels (count + 1) (offset :: memberClass.code :: description) rest
      (.cons offset datatype others) := by
  refine ⟨?_, ⟨hDatatype.valid, hOthers.valid⟩, ?_, ?_⟩
  · rw [Members.count, hOthers.count_eq]
  · rw [Members.depth]
    exact Nat.max_le.mpr ⟨hDatatype.depth_le, hOthers.depth_le⟩
  · rw [Members.description, hDatatype.class_eq, hDatatype.description_eq,
      hOthers.description_eq, List.cons_append, List.cons_append, List.append_assoc]

/-- A description starts with the size. -/
theorem Datatype.peekSize_description (datatype : Datatype) (rest : Description) :
    Description.peekSize (datatype.description ++ rest) = .ok datatype.size := by
  cases datatype with
  | atomic size order precision offset => rfl
  | array size base => rfl
  | compound size members => rfl
  | noOp size => rfl

/-! ## What is skipped -/

namespace Description

theorem exists_written_of_skipMembers {levels : Nat}
    {skip : DatatypeClass → Description → Except DescriptionError Description}
    (hSkip : ∀ {datatypeClass description rest}, skip datatypeClass description = .ok rest →
      ∃ datatype : Datatype, datatype.Written levels datatypeClass description rest)
    {count : Nat} {description rest : Description}
    (h : skipMembers skip count description = .ok rest) :
    ∃ members : Members, members.Written levels count description rest := by
  induction count generalizing description with
  | zero =>
    rw [skipMembers, Except.ok.injEq] at h
    subst h
    exact ⟨.nil, Members.written_nil levels _⟩
  | succ count ih =>
    obtain ⟨⟨offset, afterOffset⟩, hNext, h⟩ := bind_eq_ok h
    obtain ⟨⟨memberClass, afterClass⟩, hClass, h⟩ := bind_eq_ok h
    obtain ⟨middle, hMember, h⟩ := bind_eq_ok h
    obtain ⟨datatype, hDatatype⟩ := hSkip hMember
    obtain ⟨others, hOthers⟩ := ih h
    rw [next_eq_ok hNext, nextClass_eq_ok hClass]
    exact ⟨.cons offset datatype others, hOthers.cons hDatatype offset⟩

theorem exists_written_of_skip_atomic {levels : Nat} {description rest : Description}
    (h : skip levels .atomic description = .ok rest) :
    ∃ datatype : Datatype, datatype.Written levels .atomic description rest := by
  have hSkip : (description.nextAtomic >>= fun result => pure result.2) = .ok rest := by
    cases levels with
    | zero => exact h
    | succ levels => exact h
  obtain ⟨⟨layout, others⟩, hAtomic, hRest⟩ := bind_eq_ok hSkip
  cases hRest
  obtain ⟨size, order, precision, offset, rfl, hValid, rfl⟩ := nextAtomic_eq_ok hAtomic
  exact ⟨_, Datatype.written_atomic hValid levels _⟩

theorem exists_written_of_skip_noOp {levels : Nat} {description rest : Description}
    (h : skip levels .noOp description = .ok rest) :
    ∃ datatype : Datatype, datatype.Written levels .noOp description rest := by
  have hSkip : (description.next >>= fun result => pure result.2) = .ok rest := by
    cases levels with
    | zero => exact h
    | succ levels => exact h
  obtain ⟨⟨size, others⟩, hNext, hRest⟩ := bind_eq_ok hSkip
  cases hRest
  rw [next_eq_ok hNext]
  exact ⟨_, Datatype.written_noOp levels size _⟩

/-- Whatever is skipped is the description of a valid tree that is not too deep. -/
theorem exists_written_of_skip {levels : Nat} {datatypeClass : DatatypeClass}
    {description rest : Description} (h : skip levels datatypeClass description = .ok rest) :
    ∃ datatype : Datatype, datatype.Written levels datatypeClass description rest := by
  induction levels generalizing datatypeClass description rest with
  | zero =>
    cases datatypeClass with
    | atomic => exact exists_written_of_skip_atomic h
    | noOp => exact exists_written_of_skip_noOp h
    | array => cases h
    | compound => cases h
  | succ levels ih =>
    cases datatypeClass with
    | atomic => exact exists_written_of_skip_atomic h
    | noOp => exact exists_written_of_skip_noOp h
    | array =>
      obtain ⟨⟨size, afterSize⟩, hNext, h⟩ := bind_eq_ok h
      obtain ⟨⟨baseClass, afterClass⟩, hClass, h⟩ := bind_eq_ok h
      obtain ⟨base, hBase⟩ := ih h
      rw [next_eq_ok hNext, nextClass_eq_ok hClass]
      exact ⟨_, hBase.array size⟩
    | compound =>
      obtain ⟨⟨size, afterSize⟩, hNext, h⟩ := bind_eq_ok h
      obtain ⟨⟨countNat, afterCount⟩, hCount, h⟩ := bind_eq_ok h
      obtain ⟨count, rfl, rfl⟩ := nextSize_eq_ok hCount
      obtain ⟨members, hMembers⟩ := exists_written_of_skipMembers ih h
      rw [next_eq_ok hNext]
      exact ⟨_, hMembers.compound size⟩

theorem skip_atomic {size : UInt32} {order : ByteOrder} {precision offset : UInt32}
    (hValid : PackedAtomic.Valid ⟨size.toNat, order, precision.toNat, offset.toNat⟩)
    (levels : Nat) (rest : Description) :
    skip levels .atomic (size :: order.code :: precision :: offset :: rest) = .ok rest := by
  cases levels with
  | zero => rw [skip, nextAtomic_cons hValid]; rfl
  | succ levels => rw [skip, nextAtomic_cons hValid]; rfl

theorem skip_noOp (levels : Nat) (size : UInt32) (rest : Description) :
    skip levels .noOp (size :: rest) = .ok rest := by
  cases levels with
  | zero => rfl
  | succ levels => rfl

theorem skip_array (levels : Nat) (size : UInt32) (baseClass : DatatypeClass)
    (rest : Description) :
    skip (levels + 1) .array (size :: baseClass.code :: rest) = skip levels baseClass rest := by
  simp only [skip, next, bind, Except.bind, nextClass_cons]

theorem skip_compound (levels : Nat) (size count : UInt32) (rest : Description) :
    skip (levels + 1) .compound (size :: count :: rest) =
      skipMembers (skip levels) count.toNat rest := by
  rfl

theorem skipMembers_succ
    (skip : DatatypeClass → Description → Except DescriptionError Description) (count : Nat)
    (offset : UInt32) (memberClass : DatatypeClass) (description : Description) :
    skipMembers skip (count + 1) (offset :: memberClass.code :: description) =
      skip memberClass description >>= skipMembers skip count := by
  simp only [skipMembers, next, bind, Except.bind, nextClass_cons]

end Description

theorem Members.count_le_length (members : Members) :
    members.count ≤ members.description.length := by
  cases members with
  | nil => exact Nat.le_refl 0
  | cons offset datatype others =>
    have hOthers := others.count_le_length
    rw [Members.count, Members.description, List.length_cons, List.length_cons,
      List.length_append]
    omega

mutual
/-- The description of a valid tree that is not too deep is skipped. -/
theorem Datatype.skip_description {datatype : Datatype} {levels : Nat} (hValid : datatype.Valid)
    (hDepth : datatype.depth ≤ levels) (hLength : datatype.description.length < UInt32.size)
    (rest : Description) :
    Description.skip levels datatype.datatypeClass (datatype.description ++ rest) = .ok rest := by
  cases datatype with
  | atomic size order precision offset => exact Description.skip_atomic hValid levels rest
  | array size base =>
    rw [Datatype.depth] at hDepth
    rw [Datatype.description, List.length_cons, List.length_cons] at hLength
    obtain ⟨deeper, rfl⟩ : ∃ deeper, levels = deeper + 1 := ⟨levels - 1, by omega⟩
    have hBaseValid : base.Valid := hValid
    rw [Datatype.description, List.cons_append, List.cons_append]
    rw [Datatype.datatypeClass, Description.skip_array]
    exact Datatype.skip_description hBaseValid (Nat.le_of_succ_le_succ hDepth) (by omega) rest
  | compound size members =>
    rw [Datatype.depth] at hDepth
    rw [Datatype.description, List.length_cons, List.length_cons] at hLength
    obtain ⟨deeper, rfl⟩ : ∃ deeper, levels = deeper + 1 := ⟨levels - 1, by omega⟩
    have hMembersValid : members.Valid := hValid
    have hCount := members.count_le_length
    rw [Datatype.description, List.cons_append, List.cons_append]
    rw [Datatype.datatypeClass, Description.skip_compound,
      UInt32.toNat_ofNat_of_lt' (by omega)]
    exact Members.skip_description hMembersValid (Nat.le_of_succ_le_succ hDepth) (by omega) rest
  | noOp size => exact Description.skip_noOp levels size rest
theorem Members.skip_description {members : Members} {levels : Nat} (hValid : members.Valid)
    (hDepth : members.depth ≤ levels) (hLength : members.description.length < UInt32.size)
    (rest : Description) :
    Description.skipMembers (Description.skip levels) members.count
      (members.description ++ rest) = .ok rest := by
  cases members with
  | nil => rfl
  | cons offset datatype others =>
    obtain ⟨hDatatype, hOthers⟩ := hValid
    rw [Members.depth] at hDepth
    rw [Members.description, List.length_cons, List.length_cons, List.length_append] at hLength
    rw [Members.count, Members.description, List.cons_append, List.cons_append,
      List.append_assoc, Description.skipMembers_succ,
      Datatype.skip_description hDatatype (by omega) (by omega)]
    exact Members.skip_description hOthers (by omega) (by omega) rest
end

end ChunkFilters.Nbit
