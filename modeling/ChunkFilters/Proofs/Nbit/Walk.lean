import ChunkFilters.Proofs.Nbit.Grammar

/-!
# What a walk accepts

A walk reads a description as `Description.skip` does and compares sizes on its way. It reaches the
end of the description exactly for trees that fit the bytes they are given, and then its layout has
the leaves of the tree.

* `Walk.sound_datatype`: a walk that is not refused has read the description of a valid tree that is
  not too deep and that fits.
* `Datatype.walk_description`: a walk of the description of such a tree is not refused, and lays out
  the leaves of the tree.

The two meet in the base of an array. Where no element fits into the array the base is only
skipped, and the walk has nothing to say about its sizes.
-/

namespace ChunkFilters.Nbit

namespace Walk

/-! ## Walks that are not refused -/

section
variable {walk : Walk} {rest : Description}

theorem ending_reading {α : Type} {result : Except DescriptionError (α × Description)}
    {next : α → Description → Walk} (h : (reading result next).ending = .ok rest) :
    ∃ value middle, result = .ok (value, middle) ∧ (next value middle).ending = .ok rest := by
  cases result with
  | error error => cases h
  | ok result => exact ⟨result.1, result.2, rfl, h⟩

theorem ending_fitting {size offset enclosing : Nat}
    (h : (fitting size offset enclosing walk).ending = .ok rest) :
    offset + size ≤ enclosing ∧ walk.ending = .ok rest := by
  by_cases hFits : offset + size ≤ enclosing
  · rw [fitting, if_pos hFits] at h
    exact ⟨hFits, h⟩
  · rw [fitting, if_neg hFits] at h
    cases h

theorem ending_andThen {next : Description → Walk}
    (h : (walk.andThen next).ending = .ok rest) :
    ∃ middle, walk.ending = .ok middle ∧ (next middle).ending = .ok rest := by
  rw [andThen] at h
  cases hEnding : walk.ending with
  | error error =>
    simp only [hEnding] at h
    cases h
  | ok middle =>
    rw [hEnding] at h
    exact ⟨middle, rfl, h⟩

theorem ending_repeated {count stride : Nat}
    (h : (walk.repeated count stride).ending = .ok rest) : walk.ending = .ok rest := by
  rw [repeated] at h
  cases hEnding : walk.ending with
  | error error =>
    simp only [hEnding] at h
    cases h
  | ok middle =>
    rw [hEnding] at h
    exact h

end

theorem fitting_of_le {size offset enclosing : Nat} (h : offset + size ≤ enclosing)
    (walk : Walk) : fitting size offset enclosing walk = walk := by
  rw [fitting, if_pos h]

/-! ## What has been read -/

/-- Walks of arrays and compounds with `levels` more levels read what is written and fits. -/
def Sound (levels : Nat) (nested : Nested) : Prop :=
  ∀ {datatypeClass enclosing description rest},
    (nested datatypeClass enclosing description).ending = .ok rest →
      ∃ datatype : Datatype, datatype.Written levels datatypeClass description rest ∧
        datatype.Fits enclosing

theorem exists_written_atomic {offset enclosing : Nat} {description rest : Description}
    (h : (atomic offset enclosing description).ending = .ok rest) (levels : Nat) :
    ∃ datatype : Datatype, datatype.Written levels .atomic description rest ∧
      offset ≤ enclosing ∧ datatype.Fits (enclosing - offset) := by
  obtain ⟨layout, middle, hAtomic, h⟩ := ending_reading h
  obtain ⟨hLe, h⟩ := ending_fitting h
  cases h
  obtain ⟨size, order, precision, bitOffset, rfl, hValid, rfl⟩ :=
    Description.nextAtomic_eq_ok hAtomic
  have hLe : offset + size.toNat ≤ enclosing := hLe
  refine ⟨_, Datatype.written_atomic hValid levels _, by omega, ?_⟩
  rw [Datatype.Fits]
  omega

theorem exists_written_noOp {offset enclosing : Nat} {description rest : Description}
    (h : (noOp offset enclosing description).ending = .ok rest) (levels : Nat) :
    ∃ datatype : Datatype, datatype.Written levels .noOp description rest ∧
      offset ≤ enclosing ∧ datatype.Fits (enclosing - offset) := by
  obtain ⟨sizeNat, middle, hSize, h⟩ := ending_reading h
  obtain ⟨hLe, h⟩ := ending_fitting h
  cases h
  obtain ⟨size, rfl, rfl⟩ := Description.nextSize_eq_ok hSize
  refine ⟨_, Datatype.written_noOp levels size _, by omega, ?_⟩
  rw [Datatype.Fits]
  omega

theorem exists_written_nestedElements {levels : Nat} {nested : Nested}
    (hNested : Sound levels nested) {baseClass : DatatypeClass} {size : Nat}
    {description rest : Description}
    (h : (nestedElements nested (Description.skip levels baseClass) baseClass size
      description).ending = .ok rest) :
    ∃ base : Datatype, base.Written levels baseClass description rest ∧ 0 < base.size ∧
      (base.size ≤ size → base.Fits base.size) := by
  have hPeek : ∀ {base : Datatype}, base.Written levels baseClass description rest →
      description.peekSize = .ok base.size := by
    intro base hBase
    rw [hBase.description_eq]
    exact base.peekSize_description rest
  rw [nestedElements] at h
  cases hSize : description.peekSize with
  | error error =>
    rw [hSize] at h
    cases h
  | ok baseSize =>
    rw [hSize] at h
    dsimp only at h
    by_cases hZero : baseSize = 0
    · rw [if_pos hZero] at h
      cases h
    · rw [if_neg hZero] at h
      have hPos : 0 < baseSize := Nat.pos_of_ne_zero hZero
      by_cases hNone : size / baseSize = 0
      · -- The array is too short for one base: there is nothing to fit.
        rw [if_pos hNone] at h
        obtain ⟨base, hBase⟩ := Description.exists_written_of_skip h
        have hSame : base.size = baseSize := Except.ok.inj ((hPeek hBase).symm.trans hSize)
        refine ⟨base, hBase, hSame ▸ hPos, ?_⟩
        intro hLe
        rw [hSame] at hLe
        exact absurd hNone (Nat.ne_of_gt (Nat.div_pos hLe hPos))
      · rw [if_neg hNone] at h
        obtain ⟨base, hBase, hFits⟩ := hNested (ending_repeated h)
        have hSame : base.size = baseSize := Except.ok.inj ((hPeek hBase).symm.trans hSize)
        rw [← hSame] at hFits
        exact ⟨base, hBase, hSame ▸ hPos, fun _ => hFits⟩

theorem exists_written_array {levels : Nat} {nested : Nested} (hNested : Sound levels nested)
    {enclosing : Nat} {description rest : Description}
    (h : (array nested (Description.skip levels) enclosing description).ending = .ok rest) :
    ∃ datatype : Datatype, datatype.Written (levels + 1) .array description rest ∧
      datatype.Fits enclosing := by
  obtain ⟨sizeNat, afterSize, hSize, h⟩ := ending_reading h
  obtain ⟨hLe, h⟩ := ending_fitting h
  obtain ⟨baseClass, afterClass, hClass, h⟩ := ending_reading h
  obtain ⟨size, rfl, hDescription⟩ := Description.nextSize_eq_ok hSize
  rw [Nat.zero_add] at hLe
  rw [hDescription, Description.nextClass_eq_ok hClass]
  -- All that depends on the class is what is known of the base.
  have hFinish : ∀ {base : Datatype}, base.Written levels baseClass afterClass rest →
      (base.Nests → 0 < base.size) → (base.size ≤ size.toNat → base.Fits base.size) →
        ∃ datatype : Datatype, datatype.Written (levels + 1) .array
          (size :: baseClass.code :: afterClass) rest ∧ datatype.Fits enclosing :=
    fun hBase hPos hFits => ⟨_, hBase.array size, hLe, hPos, hFits⟩
  cases baseClass with
  | atomic =>
    obtain ⟨layout, middle, hAtomic, h⟩ := ending_reading h
    cases h
    obtain ⟨baseSize, order, precision, offset, rfl, hValid, rfl⟩ :=
      Description.nextAtomic_eq_ok hAtomic
    refine hFinish (Datatype.written_atomic hValid levels _) ?_ fun _ => Nat.le_refl _
    rintro (hArray | hCompound)
    · cases hArray
    · cases hCompound
  | noOp =>
    obtain ⟨baseSize, middle, hNext, h⟩ := ending_reading h
    cases h
    obtain rfl := Description.next_eq_ok hNext
    refine hFinish (Datatype.written_noOp levels baseSize _) ?_ fun _ => Nat.le_refl _
    rintro (hArray | hCompound)
    · cases hArray
    · cases hCompound
  | array =>
    obtain ⟨base, hBase, hPos, hFits⟩ := exists_written_nestedElements hNested h
    exact hFinish hBase (fun _ => hPos) hFits
  | compound =>
    obtain ⟨base, hBase, hPos, hFits⟩ := exists_written_nestedElements hNested h
    exact hFinish hBase (fun _ => hPos) hFits

theorem exists_written_compoundMember {levels : Nat} {nested : Nested}
    (hNested : Sound levels nested) {size offset : Nat} {memberClass : DatatypeClass}
    {description rest : Description}
    (h : (compoundMember nested size offset memberClass description).ending = .ok rest) :
    ∃ datatype : Datatype, datatype.Written levels memberClass description rest ∧
      offset ≤ size ∧ datatype.Fits (size - offset) := by
  have hShifted : ∀ memberClass : DatatypeClass,
      (if offset ≤ size then (nested memberClass (size - offset) description).shifted offset
        else fail (.memberOutside offset)).ending = .ok rest →
      ∃ datatype : Datatype, datatype.Written levels memberClass description rest ∧
        offset ≤ size ∧ datatype.Fits (size - offset) := by
    intro memberClass h
    by_cases hOffset : offset ≤ size
    · rw [if_pos hOffset] at h
      obtain ⟨datatype, hWritten, hFits⟩ := hNested h
      exact ⟨datatype, hWritten, hOffset, hFits⟩
    · rw [if_neg hOffset] at h
      cases h
  cases memberClass with
  | atomic => exact exists_written_atomic h levels
  | noOp => exact exists_written_noOp h levels
  | array => exact hShifted .array h
  | compound => exact hShifted .compound h

theorem exists_written_members {levels : Nat} {nested : Nested} (hNested : Sound levels nested)
    {size count : Nat} {description rest : Description}
    (h : (members nested size count description).ending = .ok rest) :
    ∃ members : Members, members.Written levels count description rest ∧ members.Fits size := by
  induction count generalizing description with
  | zero =>
    cases h
    exact ⟨.nil, Members.written_nil levels _, trivial⟩
  | succ count ih =>
    obtain ⟨offsetNat, afterOffset, hOffset, h⟩ := ending_reading h
    obtain ⟨memberClass, afterClass, hClass, h⟩ := ending_reading h
    obtain ⟨middle, hMember, hRest⟩ := ending_andThen h
    obtain ⟨offset, rfl, hDescription⟩ := Description.nextSize_eq_ok hOffset
    obtain ⟨datatype, hDatatype, hIn, hFits⟩ := exists_written_compoundMember hNested hMember
    obtain ⟨others, hOthers, hOthersFit⟩ := ih hRest
    rw [hDescription, Description.nextClass_eq_ok hClass]
    exact ⟨_, hOthers.cons hDatatype offset, hIn, hFits, hOthersFit⟩

theorem exists_written_compound {levels : Nat} {nested : Nested} (hNested : Sound levels nested)
    {enclosing : Nat} {description rest : Description}
    (h : (compound nested enclosing description).ending = .ok rest) :
    ∃ datatype : Datatype, datatype.Written (levels + 1) .compound description rest ∧
      datatype.Fits enclosing := by
  obtain ⟨sizeNat, afterSize, hSize, h⟩ := ending_reading h
  obtain ⟨hLe, h⟩ := ending_fitting h
  obtain ⟨countNat, afterCount, hCount, h⟩ := ending_reading h
  obtain ⟨size, rfl, hDescription⟩ := Description.nextSize_eq_ok hSize
  obtain ⟨count, rfl, hAfterSize⟩ := Description.nextSize_eq_ok hCount
  obtain ⟨members, hMembers, hFits⟩ := exists_written_members hNested h
  rw [Nat.zero_add] at hLe
  rw [hDescription, hAfterSize]
  exact ⟨_, hMembers.compound size, hLe, hFits⟩

/-- A walk that is not refused has read the description of a tree that fits. -/
theorem sound_datatype (levels : Nat) : Sound levels (datatype levels) := by
  have hLeaf : ∀ (levels enclosing : Nat) {description rest : Description},
      ((atomic 0 enclosing description).ending = .ok rest →
        ∃ datatype : Datatype, datatype.Written levels .atomic description rest ∧
          datatype.Fits enclosing) ∧
      ((noOp 0 enclosing description).ending = .ok rest →
        ∃ datatype : Datatype, datatype.Written levels .noOp description rest ∧
          datatype.Fits enclosing) := by
    intro levels enclosing description rest
    refine ⟨fun h => ?_, fun h => ?_⟩
    · obtain ⟨datatype, hWritten, -, hFits⟩ := exists_written_atomic h levels
      exact ⟨datatype, hWritten, hFits⟩
    · obtain ⟨datatype, hWritten, -, hFits⟩ := exists_written_noOp h levels
      exact ⟨datatype, hWritten, hFits⟩
  induction levels with
  | zero =>
    intro datatypeClass enclosing description rest h
    cases datatypeClass with
    | atomic => exact (hLeaf 0 enclosing).1 h
    | noOp => exact (hLeaf 0 enclosing).2 h
    | array => cases h
    | compound => cases h
  | succ levels ih =>
    intro datatypeClass enclosing description rest h
    cases datatypeClass with
    | atomic => exact (hLeaf (levels + 1) enclosing).1 h
    | noOp => exact (hLeaf (levels + 1) enclosing).2 h
    | array => exact exists_written_array ih h
    | compound => exact exists_written_compound ih h

/-! ## What is laid out -/

/-- The walk is not refused, lays out the given leaves, and stops in front of `rest`. -/
structure LaysOut (walk : Walk) (leaves : Nat → List Leaf) (rest : Description) : Prop where
  ending_eq : walk.ending = .ok rest
  leaves_eq : ∀ start, walk.layout.leaves start = leaves start

theorem laysOut_atomic {size : UInt32} {order : ByteOrder} {precision bitOffset : UInt32}
    (hValid : PackedAtomic.Valid ⟨size.toNat, order, precision.toNat, bitOffset.toNat⟩)
    {offset enclosing : Nat} (hLe : offset + size.toNat ≤ enclosing) (rest : Description) :
    LaysOut (atomic offset enclosing (size :: order.code :: precision :: bitOffset :: rest))
      (fun start => (Datatype.atomic size order precision bitOffset).leaves (start + offset))
      rest := by
  rw [atomic, Description.nextAtomic_cons hValid, reading, fitting_of_le hLe]
  exact ⟨rfl, fun _ => rfl⟩

theorem laysOut_noOp {size : UInt32} {offset enclosing : Nat}
    (hLe : offset + size.toNat ≤ enclosing) (rest : Description) :
    LaysOut (noOp offset enclosing (size :: rest))
      (fun start => (Datatype.noOp size).leaves (start + offset)) rest := by
  rw [noOp, Description.nextSize_cons, reading, fitting_of_le hLe]
  exact ⟨rfl, fun _ => rfl⟩

namespace LaysOut

variable {walk : Walk} {leaves : Nat → List Leaf} {rest : Description}

theorem shifted (h : LaysOut walk leaves rest) (offset : Nat) :
    LaysOut (walk.shifted offset) (fun start => leaves (start + offset)) rest :=
  ⟨h.ending_eq, fun start => h.leaves_eq (start + offset)⟩

theorem repeated (h : LaysOut walk leaves rest) (count stride : Nat) :
    LaysOut (walk.repeated count stride) (Layout.repeatLeaves leaves stride count) rest := by
  have hLeaves : walk.layout.leaves = leaves := funext h.leaves_eq
  rw [Walk.repeated, h.ending_eq, ← hLeaves]
  exact ⟨rfl, fun _ => rfl⟩

theorem andThen {middle : Description} {next : Description → Walk} {others : Nat → List Leaf}
    (h : LaysOut walk leaves middle) (hNext : LaysOut (next middle) others rest) :
    LaysOut (walk.andThen next) (fun start => leaves start ++ others start) rest := by
  rw [Walk.andThen, h.ending_eq]
  refine ⟨hNext.ending_eq, ?_⟩
  intro start
  rw [Layout.leaves, h.leaves_eq, hNext.leaves_eq]

end LaysOut

theorem laysOut_nestedElements {nested : Nested}
    {skip : Description → Except DescriptionError Description} {base : Datatype} {size : Nat}
    {rest : Description} (hPos : 0 < base.size)
    (hSkip : skip (base.description ++ rest) = .ok rest)
    (hNested : base.size ≤ size →
      LaysOut (nested base.datatypeClass base.size (base.description ++ rest)) base.leaves rest) :
    LaysOut (nestedElements nested skip base.datatypeClass size (base.description ++ rest))
      (Layout.repeatLeaves base.leaves base.size (size / base.size)) rest := by
  rw [nestedElements, base.peekSize_description]
  dsimp only
  rw [if_neg (Nat.ne_of_gt hPos)]
  by_cases hNone : size / base.size = 0
  · rw [if_pos hNone, hNone]
    exact ⟨hSkip, fun _ => rfl⟩
  · rw [if_neg hNone]
    have hSome : base.size ≤ size := by
      by_cases hSome : base.size ≤ size
      · exact hSome
      · exact absurd (Nat.div_eq_of_lt (Nat.lt_of_not_le hSome)) hNone
    exact (hNested hSome).repeated (size / base.size) base.size

theorem laysOut_array {nested : Nested}
    {skip : DatatypeClass → Description → Except DescriptionError Description} {size : UInt32}
    {base : Datatype} {enclosing : Nat} {rest : Description} (hLe : size.toNat ≤ enclosing)
    (hValid : base.Valid) (hPos : base.Nests → 0 < base.size)
    (hSkip : skip base.datatypeClass (base.description ++ rest) = .ok rest)
    (hNested : base.size ≤ size.toNat →
      LaysOut (nested base.datatypeClass base.size (base.description ++ rest)) base.leaves rest) :
    LaysOut (array nested skip enclosing
      (size :: base.datatypeClass.code :: (base.description ++ rest)))
      (Datatype.array size base).leaves rest := by
  rw [array, Description.nextSize_cons, reading, fitting_of_le (by omega),
    Description.nextClass_cons, reading]
  cases base with
  | atomic baseSize order precision bitOffset =>
    have hAtomic := Description.nextAtomic_cons hValid rest
    simp only [Datatype.datatypeClass, Datatype.description, List.cons_append, List.nil_append,
      hAtomic, reading]
    exact ⟨rfl, fun _ => rfl⟩
  | noOp baseSize => exact ⟨rfl, fun _ => rfl⟩
  | array baseSize inner =>
    have hElements := laysOut_nestedElements (hPos (Or.inl rfl)) hSkip hNested
    exact ⟨hElements.ending_eq, hElements.leaves_eq⟩
  | compound baseSize members =>
    have hElements := laysOut_nestedElements (hPos (Or.inr rfl)) hSkip hNested
    exact ⟨hElements.ending_eq, hElements.leaves_eq⟩

theorem laysOut_compoundMember {nested : Nested} {datatype : Datatype} {size offset : Nat}
    {rest : Description} (hValid : datatype.Valid) (hOffset : offset ≤ size)
    (hFits : datatype.Fits (size - offset))
    (hNested : LaysOut (nested datatype.datatypeClass (size - offset)
      (datatype.description ++ rest)) datatype.leaves rest) :
    LaysOut (compoundMember nested size offset datatype.datatypeClass
      (datatype.description ++ rest)) (fun start => datatype.leaves (start + offset)) rest := by
  have hLe := Datatype.size_le_of_fits hFits
  cases datatype with
  | atomic memberSize order precision bitOffset =>
    rw [Datatype.size] at hLe
    exact laysOut_atomic hValid (by omega) rest
  | noOp memberSize =>
    rw [Datatype.size] at hLe
    exact laysOut_noOp (by omega) rest
  | array memberSize base =>
    rw [Datatype.datatypeClass, compoundMember, if_pos hOffset]
    exact hNested.shifted offset
  | compound memberSize members =>
    rw [Datatype.datatypeClass, compoundMember, if_pos hOffset]
    exact hNested.shifted offset

end Walk

mutual
/-- The description of an acceptable tree is laid out as the leaves of the tree. -/
theorem Datatype.walk_description {datatype : Datatype} {levels enclosing : Nat}
    (hValid : datatype.Valid) (hDepth : datatype.depth ≤ levels)
    (hFits : datatype.Fits enclosing) (hLength : datatype.description.length < UInt32.size)
    (rest : Description) :
    (Walk.datatype levels datatype.datatypeClass enclosing
      (datatype.description ++ rest)).LaysOut datatype.leaves rest := by
  cases datatype with
  | atomic size order precision bitOffset =>
    have hLe : 0 + size.toNat ≤ enclosing := by
      rw [Nat.zero_add]
      exact hFits
    cases levels with
    | zero => exact Walk.laysOut_atomic hValid hLe rest
    | succ deeper => exact Walk.laysOut_atomic hValid hLe rest
  | array size base =>
    rw [Datatype.depth] at hDepth
    rw [Datatype.description, List.length_cons, List.length_cons] at hLength
    obtain ⟨deeper, rfl⟩ : ∃ deeper, levels = deeper + 1 := ⟨levels - 1, by omega⟩
    obtain ⟨hLe, hPos, hBaseFits⟩ := hFits
    have hBaseValid : base.Valid := hValid
    have hBaseDepth : base.depth ≤ deeper := Nat.le_of_succ_le_succ hDepth
    have hBaseLength : base.description.length < UInt32.size := by omega
    rw [Datatype.description, List.cons_append, List.cons_append]
    -- The base is skipped if none of it fits into the array, and walked otherwise.
    exact Walk.laysOut_array hLe hBaseValid hPos
      (Datatype.skip_description hBaseValid hBaseDepth hBaseLength rest)
      (fun hSome => Datatype.walk_description hBaseValid hBaseDepth (hBaseFits hSome)
        hBaseLength rest)
  | compound size members =>
    rw [Datatype.depth] at hDepth
    rw [Datatype.description, List.length_cons, List.length_cons] at hLength
    obtain ⟨deeper, rfl⟩ : ∃ deeper, levels = deeper + 1 := ⟨levels - 1, by omega⟩
    obtain ⟨hLe, hMembersFit⟩ := hFits
    have hMembersValid : members.Valid := hValid
    have hCount := members.count_le_length
    have hMembers := Members.walk_description hMembersValid (Nat.le_of_succ_le_succ hDepth)
      hMembersFit (by omega) rest
    rw [Datatype.description, List.cons_append, List.cons_append, Datatype.datatypeClass,
      Walk.datatype, Walk.compound, Description.nextSize_cons, Walk.reading,
      Walk.fitting_of_le (by omega), Description.nextSize_cons, Walk.reading,
      UInt32.toNat_ofNat_of_lt' (by omega)]
    exact ⟨hMembers.ending_eq, hMembers.leaves_eq⟩
  | noOp size =>
    have hLe : 0 + size.toNat ≤ enclosing := by
      rw [Nat.zero_add]
      exact hFits
    cases levels with
    | zero => exact Walk.laysOut_noOp hLe rest
    | succ deeper => exact Walk.laysOut_noOp hLe rest
theorem Members.walk_description {members : Members} {levels enclosing : Nat}
    (hValid : members.Valid) (hDepth : members.depth ≤ levels) (hFits : members.Fits enclosing)
    (hLength : members.description.length < UInt32.size) (rest : Description) :
    (Walk.members (Walk.datatype levels) enclosing members.count
      (members.description ++ rest)).LaysOut members.leaves rest := by
  cases members with
  | nil => exact ⟨rfl, fun _ => rfl⟩
  | cons offset datatype others =>
    obtain ⟨hDatatype, hOthers⟩ := hValid
    obtain ⟨hOffset, hDatatypeFits, hOthersFit⟩ := hFits
    rw [Members.depth] at hDepth
    rw [Members.description, List.length_cons, List.length_cons, List.length_append] at hLength
    have hMember := Datatype.walk_description hDatatype (Nat.le_trans (Nat.le_max_left _ _) hDepth)
      hDatatypeFits (by omega) (others.description ++ rest)
    have hRest := Members.walk_description hOthers (Nat.le_trans (Nat.le_max_right _ _) hDepth)
      hOthersFit (by omega) rest
    rw [Members.count, Members.description, List.cons_append, List.cons_append,
      List.append_assoc, Walk.members, Description.nextSize_cons, Walk.reading,
      Description.nextClass_cons, Walk.reading]
    have hFirst := Walk.laysOut_compoundMember hDatatype hOffset hDatatypeFits hMember
    have hBoth := hFirst.andThen hRest
    exact ⟨hBoth.ending_eq, hBoth.leaves_eq⟩
end

end ChunkFilters.Nbit
