import ChunkFilters.Proofs.Nbit.Traversal
import ChunkFilters.Proofs.Nbit.Walk
import Mathlib.Control.Monad.Basic

/-!
# Reading a description again

The description of the base of an array is read for every element of the array, and only skipped
where there is no element. All of these readings end at the same place, because a walk that is not
refused reads what the grammar skips (`endsAs_datatype`), and the grammar sees neither the bytes of
the element nor the packed input.

* `skip_mono`: where a description ends does not depend on how many levels are left, if enough are;
* `skip_of_overdeep`: a description with an array or a compound below the last level is refused for
  that, once all in front of it has been read;
* `Traversing.nested_ends_like_skip`: what this means for unpacking and skipping in one traversal.
-/

namespace ChunkFilters.Nbit

/-! ## Walks and the grammar -/

/-- Errors about the bytes of an element, which the grammar does not look at. -/
def DescriptionError.OfSize : DescriptionError → Prop
  | outside .. | memberOutside .. | baseSizeZero => True
  | _ => False

/-- How a walk may end, given how its description is skipped. -/
inductive EndsAs (skipped : Except DescriptionError Description) (walk : Walk) : Prop
  | same (hEnding : walk.ending = skipped)
  | ofSize {error : DescriptionError} (hEnding : walk.ending = .error error)
      (hSize : error.OfSize)
  /-- The size of a base is looked up before the base is found to be too deep. -/
  | truncated (hEnding : walk.ending = .error .truncated) (hDeep : skipped = .error .tooDeep)

namespace EndsAs

theorem emit (layout : Layout) (rest : Description) :
    EndsAs (.ok rest) (Walk.emit layout rest) := .same rfl

theorem reading {α : Type} {result : Except DescriptionError (α × Description)}
    (skip : α → Description → Except DescriptionError Description)
    {next : α → Description → Walk} (h : ∀ value rest, EndsAs (skip value rest) (next value rest)) :
    EndsAs (result >>= fun (value, rest) => skip value rest) (Walk.reading result next) := by
  cases result with
  | error error => exact .same rfl
  | ok result => exact h result.1 result.2

section
variable {skipped : Except DescriptionError Description} {walk : Walk}

theorem of_ending {other : Walk} (h : EndsAs skipped walk) (hSame : other.ending = walk.ending) :
    EndsAs skipped other := by
  cases h with
  | same hEnding => exact .same (hSame.trans hEnding)
  | ofSize hEnding hSize => exact .ofSize (hSame.trans hEnding) hSize
  | truncated hEnding hDeep => exact .truncated (hSame.trans hEnding) hDeep

theorem fitting (h : EndsAs skipped walk) (size offset enclosing : Nat) :
    EndsAs skipped (Walk.fitting size offset enclosing walk) := by
  rw [Walk.fitting]
  split
  · exact h
  · exact .ofSize rfl trivial

theorem repeated (h : EndsAs skipped walk) (count stride : Nat) :
    EndsAs skipped (walk.repeated count stride) := by
  refine h.of_ending ?_
  rw [Walk.repeated]
  split
  · rfl
  · next hEnding => exact hEnding.symm

theorem andThen {skip : Description → Except DescriptionError Description}
    {next : Description → Walk} (h : EndsAs skipped walk)
    (hNext : ∀ rest, EndsAs (skip rest) (next rest)) :
    EndsAs (skipped >>= skip) (walk.andThen next) := by
  rw [Walk.andThen]
  cases h with
  | same hEnding =>
    subst hEnding
    cases hEnding : walk.ending with
    | error error => exact .same hEnding
    | ok rest => exact (hNext rest).of_ending rfl
  | ofSize hEnding hSize =>
    rw [hEnding]
    exact .ofSize hEnding hSize
  | truncated hEnding hDeep =>
    rw [hEnding, hDeep]
    exact .truncated hEnding rfl

end

end EndsAs

/-- Walks of arrays and compounds with `levels` more levels end as the grammar says. -/
def Follows (levels : Nat) (walk : Walk.Nested) : Prop :=
  ∀ (datatypeClass : DatatypeClass) (enclosing : Nat) (description : Description),
    EndsAs (Description.skip levels datatypeClass description)
      (walk datatypeClass enclosing description)

theorem endsAs_atomic (levels offset enclosing : Nat) (description : Description) :
    EndsAs (Description.skip levels .atomic description)
      (Walk.atomic offset enclosing description) := by
  rw [Traversing.skip_atomic_eq]
  refine .reading (fun _ rest => .ok rest) fun layout rest => ?_
  exact .fitting (.emit _ rest) layout.size offset enclosing

theorem endsAs_noOp (levels offset enclosing : Nat) (description : Description) :
    EndsAs (Description.skip levels .noOp description)
      (Walk.noOp offset enclosing description) := by
  rw [Traversing.skip_noOp_eq]
  cases description with
  | nil => exact .same rfl
  | cons size rest => exact .fitting (.emit _ rest) size.toNat offset enclosing

section
variable {levels : Nat} {walk : Walk.Nested}

theorem endsAs_nestedElements (h : Follows levels walk) {baseClass : DatatypeClass}
    (hNests : baseClass = .array ∨ baseClass = .compound) (size : Nat)
    (description : Description) :
    EndsAs (Description.skip levels baseClass description)
      (Walk.nestedElements walk (Description.skip levels baseClass) baseClass size
        description) := by
  cases description with
  | nil =>
    cases levels with
    | zero => obtain rfl | rfl := hNests <;> exact .truncated rfl rfl
    | succ levels => obtain rfl | rfl := hNests <;> exact .same rfl
  | cons baseSize rest =>
    show EndsAs _ (if baseSize.toNat = 0 then Walk.fail .baseSizeZero
      else if size / baseSize.toNat = 0 then
        (⟨.nothing, Description.skip levels baseClass (baseSize :: rest)⟩ : Walk)
      else (walk baseClass baseSize.toNat (baseSize :: rest)).repeated (size / baseSize.toNat)
        baseSize.toNat)
    split
    · exact .ofSize rfl trivial
    · split
      · exact .same rfl
      · exact (h baseClass baseSize.toNat (baseSize :: rest)).repeated _ _

theorem endsAs_array (h : Follows levels walk) (enclosing : Nat) (description : Description) :
    EndsAs (Description.skip (levels + 1) .array description)
      (Walk.array walk (Description.skip levels) enclosing description) := by
  cases description with
  | nil => exact .same rfl
  | cons size rest =>
    refine .fitting ?_ size.toNat 0 enclosing
    refine .reading (Description.skip levels) fun baseClass rest => ?_
    cases baseClass with
    | atomic =>
      rw [Traversing.skip_atomic_eq]
      exact .reading (fun _ rest => .ok rest) fun _ rest => .emit _ rest
    | noOp =>
      rw [Traversing.skip_noOp_eq]
      exact .reading (fun _ rest => .ok rest) fun _ rest => .emit _ rest
    | array => exact endsAs_nestedElements h (.inl rfl) size.toNat rest
    | compound => exact endsAs_nestedElements h (.inr rfl) size.toNat rest

theorem endsAs_compoundMember (h : Follows levels walk) (size offset : Nat)
    (memberClass : DatatypeClass) (description : Description) :
    EndsAs (Description.skip levels memberClass description)
      (Walk.compoundMember walk size offset memberClass description) := by
  have hShifted : ∀ memberClass : DatatypeClass,
      EndsAs (Description.skip levels memberClass description)
        (if offset ≤ size then (walk memberClass (size - offset) description).shifted offset
          else Walk.fail (.memberOutside offset)) := by
    intro memberClass
    split
    · exact (h memberClass (size - offset) description).of_ending rfl
    · exact .ofSize rfl trivial
  cases memberClass with
  | atomic => exact endsAs_atomic levels offset size description
  | noOp => exact endsAs_noOp levels offset size description
  | array => exact hShifted .array
  | compound => exact hShifted .compound

theorem endsAs_members (h : Follows levels walk) (size count : Nat) (description : Description) :
    EndsAs (Description.skipMembers (Description.skip levels) count description)
      (Walk.members walk size count description) := by
  induction count generalizing description with
  | zero => exact .same rfl
  | succ count ih =>
    cases description with
    | nil => exact .same rfl
    | cons offset rest =>
      refine .reading (fun memberClass rest => Description.skip levels memberClass rest >>=
        Description.skipMembers (Description.skip levels) count) fun memberClass rest => ?_
      exact (endsAs_compoundMember h size offset.toNat memberClass rest).andThen ih

theorem endsAs_compound (h : Follows levels walk) (enclosing : Nat) (description : Description) :
    EndsAs (Description.skip (levels + 1) .compound description)
      (Walk.compound walk enclosing description) := by
  cases description with
  | nil => exact .same rfl
  | cons size rest =>
    refine .fitting ?_ size.toNat 0 enclosing
    exact .reading (Description.skipMembers (Description.skip levels))
      fun count rest => endsAs_members h size.toNat count rest

end

/-- A walk ends as the grammar says, unless a size is at fault. -/
theorem endsAs_datatype (levels : Nat) : Follows levels (Walk.datatype levels) := by
  induction levels with
  | zero =>
    intro datatypeClass enclosing description
    cases datatypeClass with
    | atomic => exact endsAs_atomic 0 0 enclosing description
    | noOp => exact endsAs_noOp 0 0 enclosing description
    | array => exact .same rfl
    | compound => exact .same rfl
  | succ levels ih =>
    intro datatypeClass enclosing description
    cases datatypeClass with
    | atomic => exact endsAs_atomic (levels + 1) 0 enclosing description
    | noOp => exact endsAs_noOp (levels + 1) 0 enclosing description
    | array => exact endsAs_array ih enclosing description
    | compound => exact endsAs_compound ih enclosing description

/-! ## More levels -/

theorem skipMembers_mono
    {skip more : DatatypeClass → Description → Except DescriptionError Description}
    (h : ∀ {memberClass description rest}, skip memberClass description = .ok rest →
      more memberClass description = .ok rest) {count : Nat} {description rest : Description}
    (hSkip : Description.skipMembers skip count description = .ok rest) :
    Description.skipMembers more count description = .ok rest := by
  induction count generalizing description with
  | zero => exact hSkip
  | succ count ih =>
    obtain ⟨⟨offset, afterOffset⟩, hNext, hSkip⟩ := bind_eq_ok hSkip
    obtain ⟨⟨memberClass, afterClass⟩, hClass, hSkip⟩ := bind_eq_ok hSkip
    obtain ⟨afterMember, hMember, hOthers⟩ := bind_eq_ok hSkip
    rw [Description.next_eq_ok hNext, Description.nextClass_eq_ok hClass,
      Description.skipMembers_succ, h hMember]
    exact ih hOthers

theorem skip_mono {levels more : Nat} (hLe : levels ≤ more) {datatypeClass : DatatypeClass}
    {description rest : Description}
    (h : Description.skip levels datatypeClass description = .ok rest) :
    Description.skip more datatypeClass description = .ok rest := by
  induction levels generalizing more datatypeClass description rest with
  | zero =>
    cases datatypeClass with
    | atomic =>
      rw [Traversing.skip_atomic_eq] at h ⊢
      exact h
    | noOp =>
      rw [Traversing.skip_noOp_eq] at h ⊢
      exact h
    | array => cases h
    | compound => cases h
  | succ levels ih =>
    obtain ⟨more, rfl⟩ : ∃ fewer, more = fewer + 1 := ⟨more - 1, by omega⟩
    have hFewer : levels ≤ more := Nat.le_of_succ_le_succ hLe
    cases datatypeClass with
    | atomic =>
      rw [Traversing.skip_atomic_eq] at h ⊢
      exact h
    | noOp =>
      rw [Traversing.skip_noOp_eq] at h ⊢
      exact h
    | array =>
      obtain ⟨⟨size, afterSize⟩, hNext, h⟩ := bind_eq_ok h
      obtain ⟨⟨baseClass, afterClass⟩, hClass, h⟩ := bind_eq_ok h
      rw [Description.next_eq_ok hNext, Description.nextClass_eq_ok hClass,
        Description.skip_array]
      exact ih hFewer h
    | compound =>
      obtain ⟨⟨size, afterSize⟩, hNext, h⟩ := bind_eq_ok h
      obtain ⟨⟨countNat, afterCount⟩, hCount, h⟩ := bind_eq_ok h
      obtain ⟨count, rfl, rfl⟩ := Description.nextSize_eq_ok hCount
      rw [Description.next_eq_ok hNext, Description.skip_compound]
      exact skipMembers_mono (ih hFewer) h

/-- A description has one end. -/
theorem skip_unique {levels others : Nat} {datatypeClass : DatatypeClass}
    {description rest other : Description}
    (h : Description.skip levels datatypeClass description = .ok rest)
    (hOther : Description.skip others datatypeClass description = .ok other) : rest = other := by
  have hMore := skip_mono (Nat.le_max_left levels others) h
  have hOtherMore := skip_mono (Nat.le_max_right levels others) hOther
  exact Except.ok.inj (hMore.symm.trans hOtherMore)

/-! ## Descriptions that are too deep -/

/-- Reading goes well up to an array or a compound that is below the last level. -/
inductive Overdeep : Nat → DatatypeClass → Description → Prop
  | array (description : Description) : Overdeep 0 .array description
  | compound (description : Description) : Overdeep 0 .compound description
  | base {levels : Nat} {size : UInt32} {baseClass : DatatypeClass} {description : Description}
      (hBase : Overdeep levels baseClass description) :
      Overdeep (levels + 1) .array (size :: baseClass.code :: description)
  /-- The members in front of it are read. -/
  | member {levels before : Nat} {size count offset : UInt32} {memberClass : DatatypeClass}
      {members description : Description} (hBefore : before < count.toNat)
      (hMembers : Description.skipMembers (Description.skip levels) before members =
        .ok (offset :: memberClass.code :: description))
      (hMember : Overdeep levels memberClass description) :
      Overdeep (levels + 1) .compound (size :: count :: members)

theorem skipMembers_of_error
    {skip : DatatypeClass → Description → Except DescriptionError Description}
    {before count : Nat} (hBefore : before < count) {offset : UInt32}
    {memberClass : DatatypeClass} {members description : Description} {error : DescriptionError}
    (hMembers : Description.skipMembers skip before members =
      .ok (offset :: memberClass.code :: description))
    (hMember : skip memberClass description = .error error) :
    Description.skipMembers skip count members = .error error := by
  induction before generalizing count members with
  | zero =>
    cases hMembers
    obtain ⟨others, rfl⟩ : ∃ others, count = others + 1 := ⟨count - 1, by omega⟩
    rw [Description.skipMembers_succ, hMember]
    rfl
  | succ before ih =>
    obtain ⟨others, rfl⟩ : ∃ others, count = others + 1 := ⟨count - 1, by omega⟩
    obtain ⟨⟨first, afterFirst⟩, hNext, hMembers⟩ := bind_eq_ok hMembers
    obtain ⟨⟨firstClass, afterClass⟩, hClass, hMembers⟩ := bind_eq_ok hMembers
    obtain ⟨middle, hFirst, hMembers⟩ := bind_eq_ok hMembers
    rw [Description.next_eq_ok hNext, Description.nextClass_eq_ok hClass,
      Description.skipMembers_succ, hFirst]
    exact ih (Nat.lt_of_succ_lt_succ hBefore) hMembers

theorem skip_of_overdeep {levels : Nat} {datatypeClass : DatatypeClass}
    {description : Description} (h : Overdeep levels datatypeClass description) :
    Description.skip levels datatypeClass description = .error .tooDeep := by
  induction h with
  | array description => rfl
  | compound description => rfl
  | base hBase ih =>
    rw [Description.skip_array]
    exact ih
  | member hBefore hMembers hMember ih =>
    rw [Description.skip_compound]
    exact skipMembers_of_error hBefore hMembers ih

namespace Traversing

/-! ## Both in one traversal -/

section
variable {before : Traversal} {start : Nat} {result : EStateM.Result Stop Traversal Unit}

theorem ending_of_agrees {walk : Walk} {after : Traversal}
    (h : Agrees before start walk (.ok () after)) : walk.ending = .ok after.rest := by
  cases h with
  | done hLayout hEnding hKept => exact hEnding

/-- Where the layout is unpacked and the walk is not refused, the traversal goes well. -/
theorem exists_ok_of_agrees {walk : Walk} {unpacking : Unpacking} {rest : Description}
    (h : Agrees before start walk result)
    (hUnpack : walk.layout.unpack start (before.buffer, before.cursor) = .ok unpacking)
    (hWalk : walk.ending = .ok rest) :
    ∃ after, result = .ok () after ∧ after.rest = rest ∧ after.buffer = unpacking.1 ∧
      after.cursor = unpacking.2 := by
  cases h with
  | @done after hLayout hEnding hKept =>
    obtain rfl := Except.ok.inj (hUnpack.symm.trans hLayout)
    exact ⟨after, rfl, Except.ok.inj (hEnding.symm.trans hWalk), rfl, rfl⟩
  | refused hLayout hEnding hKept => exact absurd (hEnding.symm.trans hWalk) nofun
  | exhausted hLayout hKept => exact absurd (hLayout.symm.trans hUnpack) nofun

theorem exists_refused_of_skipped {error : DescriptionError}
    (h : Agrees before start (Walk.skipped (.error error)) result) :
    ∃ after, result = .error (.refused error) after := by
  cases h with
  | done hLayout hEnding hKept => cases hEnding
  | refused hLayout hEnding hKept =>
    cases hEnding
    exact ⟨_, rfl⟩
  | exhausted hLayout hKept => cases hLayout

/-- A walk of a description that is too deep stops the traversal. -/
theorem exists_stop_of_overdeep {walk : Walk} (h : Agrees before start walk result)
    (hEnds : EndsAs (.error .tooDeep) walk) :
    ∃ stop after, result = .error stop after ∧
      ((∃ error, stop = .exhausted error) ∨
        ∃ error, stop = .refused error ∧
          (error = .tooDeep ∨ error = .truncated ∨ error.OfSize)) := by
  obtain ⟨error, hError, hCause⟩ : ∃ error, walk.ending = .error error ∧
      (error = .tooDeep ∨ error = .truncated ∨ error.OfSize) := by
    cases hEnds with
    | same hEnding => exact ⟨_, hEnding, .inl rfl⟩
    | ofSize hEnding hSize => exact ⟨_, hEnding, .inr (.inr hSize)⟩
    | truncated hEnding hDeep => exact ⟨_, hEnding, .inr (.inl rfl)⟩
  cases h with
  | done hLayout hEnding hKept => exact absurd (hError.symm.trans hEnding) nofun
  | exhausted hLayout hKept => exact ⟨_, _, rfl, .inl ⟨_, rfl⟩⟩
  | refused hLayout hEnding hKept =>
    obtain rfl := Except.error.inj (hError.symm.trans hEnding)
    exact ⟨_, _, rfl, .inr ⟨_, rfl, hCause⟩⟩

/-! ### From any depth -/

section
variable {calls : Nat} {datatypeClass : DatatypeClass}

theorem nested_tooDeep (hCalls : 0 < calls)
    (hNests : datatypeClass = .array ∨ datatypeClass = .compound) (start enclosing : Nat)
    (hDepth : ¬ before.depth < maxNesting) :
    nested calls datatypeClass start enclosing before = .error (.refused .tooDeep) before := by
  obtain ⟨pending, rfl⟩ : ∃ pending, calls = pending + 1 := ⟨calls - 1, by omega⟩
  obtain rfl | rfl := hNests <;> exact deeper_tooDeep _ hDepth

theorem skip_tooDeep (hCalls : 0 < calls)
    (hNests : datatypeClass = .array ∨ datatypeClass = .compound) {depth : Nat}
    (hDepth : ¬ depth < maxNesting) :
    skip calls datatypeClass depth before = .error (.refused .tooDeep) before := by
  obtain ⟨pending, rfl⟩ : ∃ pending, calls = pending + 1 := ⟨calls - 1, by omega⟩
  obtain rfl | rfl := hNests <;> exact deeper_tooDeep _ hDepth

theorem agrees_nested (hCalls : maxNesting < calls) (hDepth : before.depth ≤ maxNesting)
    (datatypeClass : DatatypeClass) (start enclosing : Nat) :
    Agrees before start
      (Walk.datatype (maxNesting - before.depth) datatypeClass enclosing before.rest)
      (nested calls datatypeClass start enclosing before) :=
  unpacks_nested (by omega) (by omega) datatypeClass start enclosing before rfl

theorem agrees_skip (hCalls : maxNesting < calls) (hDepth : before.depth ≤ maxNesting)
    (datatypeClass : DatatypeClass) (start : Nat) :
    Agrees before start
      (Walk.skipped (Description.skip (maxNesting - before.depth) datatypeClass before.rest))
      (skip calls datatypeClass before.depth before) :=
  skips_skip (by omega) (by omega) datatypeClass start before

/-- What has been unpacked well is what the grammar skips. -/
theorem skip_of_nested {enclosing : Nat} {after : Traversal} (hCalls : maxNesting < calls)
    (hDepth : before.depth ≤ maxNesting)
    (hOk : nested calls datatypeClass start enclosing before = .ok () after) :
    Description.skip (maxNesting - before.depth) datatypeClass before.rest = .ok after.rest := by
  have hAgrees := agrees_nested hCalls hDepth datatypeClass start enclosing
  rw [hOk] at hAgrees
  have hEnding := ending_of_agrees hAgrees
  cases endsAs_datatype (maxNesting - before.depth) datatypeClass enclosing before.rest with
  | same hSame => exact hSame.symm.trans hEnding
  | ofSize hError hSize => exact absurd (hError.symm.trans hEnding) nofun
  | truncated hError hDeep => exact absurd (hError.symm.trans hEnding) nofun

end

end

/-- Unpacking a datatype with `before.depth` arrays and compounds around it, and skipping its
description from the same place and depth. -/
structure EndsLikeSkip (calls : Nat) (datatypeClass : DatatypeClass) (start enclosing : Nat)
    (before : Traversal) : Prop where
  /-- What is unpacked, and how far the description is read, is as the layout and the walk say. -/
  unpacks : Agrees before start
    (Walk.datatype (maxNesting - before.depth) datatypeClass enclosing before.rest)
    (nested calls datatypeClass start enclosing before)
  skips : Agrees before start
    (Walk.skipped (Description.skip (maxNesting - before.depth) datatypeClass before.rest))
    (skip calls datatypeClass before.depth before)
  /-- The depth is set back, and is never above `maxNesting`, also where unpacking fails. -/
  kept_nested : Kept before (finalState (nested calls datatypeClass start enclosing before))
  kept_skip : Kept before (finalState (skip calls datatypeClass before.depth before))
  /-- Where unpacking goes well, so does skipping, and it ends at the same place. -/
  skip_ok : ∀ {after}, nested calls datatypeClass start enclosing before = .ok () after →
    ∃ past, skip calls datatypeClass before.depth before = .ok () past ∧ past.rest = after.rest ∧
      past.buffer = before.buffer ∧ past.cursor = before.cursor
  /-- So does unpacking from there into any other bytes, at any depth and from any input. -/
  same_end : ∀ {after}, nested calls datatypeClass start enclosing before = .ok () after →
    ∀ {other otherAfter : Traversal} {otherStart otherEnclosing : Nat},
      other.rest = before.rest → other.depth ≤ maxNesting →
        nested calls datatypeClass otherStart otherEnclosing other = .ok () otherAfter →
          otherAfter.rest = after.rest
  /-- An array or a compound at the last depth is refused by both before anything of it is read. -/
  tooDeep_here : before.depth = maxNesting →
    datatypeClass = .array ∨ datatypeClass = .compound → ∃ stop : Stop,
      nested calls datatypeClass start enclosing before = .error stop before ∧
      skip calls datatypeClass before.depth before = .error stop before ∧
      ∀ count, stop.error? count =
        some (.invalidParameters name "datatype nesting exceeds 32 levels")
  /-- One that is reached further inside is refused by skipping for that. Unpacking does not go past
  it either; it may come to the end of the input or find a size at fault before. -/
  tooDeep_inside : Overdeep (maxNesting - before.depth) datatypeClass before.rest →
    (∃ past, skip calls datatypeClass before.depth before = .error (.refused .tooDeep) past) ∧
    ∃ stop after, nested calls datatypeClass start enclosing before = .error stop after ∧
      ((∃ error, stop = .exhausted error) ∨
        ∃ error, stop = .refused error ∧
          (error = .tooDeep ∨ error = .truncated ∨ error.OfSize))

theorem nested_ends_like_skip {calls : Nat} (hCalls : maxNesting < calls)
    (datatypeClass : DatatypeClass) (start enclosing : Nat) {before : Traversal}
    (hDepth : before.depth ≤ maxNesting) :
    EndsLikeSkip calls datatypeClass start enclosing before := by
  have hNested := agrees_nested hCalls hDepth datatypeClass start enclosing
  have hSkip := agrees_skip hCalls hDepth datatypeClass start
  refine ⟨hNested, hSkip, hNested.kept, hSkip.kept, ?_, ?_, ?_, ?_⟩
  · intro after hOk
    rw [skip_of_nested hCalls hDepth hOk] at hSkip
    exact exists_ok_of_agrees hSkip rfl rfl
  · intro after hOk other otherAfter otherStart otherEnclosing hRest hOtherDepth hOther
    have hSame := skip_of_nested hCalls hOtherDepth hOther
    rw [hRest] at hSame
    exact skip_unique hSame (skip_of_nested hCalls hDepth hOk)
  · intro hLast hNests
    exact ⟨.refused .tooDeep, nested_tooDeep (by omega) hNests start enclosing (by omega),
      skip_tooDeep (by omega) hNests (by omega), fun _ => rfl⟩
  · intro hOverdeep
    have hDeep := skip_of_overdeep hOverdeep
    have hEnds := endsAs_datatype (maxNesting - before.depth) datatypeClass enclosing before.rest
    rw [hDeep] at hSkip hEnds
    exact ⟨exists_refused_of_skipped hSkip, exists_stop_of_overdeep hNested hEnds⟩

/-- Inside thirty others, an array of two arrays of two bytes with three bits each, in front of one
more number. -/
def arrays : Traversal where
  buffer := #[0, 0, 0, 0, 0, 0]
  cursor := .start [0xb5, 0x2c]
  rest := [4, 2, 2, 1, 1, 0, 3, 1, 9]
  depth := 30
  deepest := 30

/-- The description of the inner array is read twice, and the number in front of which it ends is
where skipping ends. -/
theorem nested_ends_like_skip_arrays :
    maxNesting < 33 ∧ arrays.depth ≤ maxNesting ∧
    (∃ after, nested 33 .array 1 5 arrays = .ok () after ∧ after.rest = [9] ∧
      after.buffer = #[0, 10, 10, 4, 4, 0] ∧ after.cursor = ⟨1, 4, [0x2c]⟩) ∧
    ∃ past, skip 33 .array arrays.depth arrays = .ok () past ∧ past.rest = [9] ∧
      past.buffer = arrays.buffer ∧ past.cursor = arrays.cursor := by
  have hCalls : maxNesting < 33 := by decide
  have hDepth : arrays.depth ≤ maxNesting := by decide
  have hBoth := nested_ends_like_skip hCalls .array 1 5 hDepth
  have hUnpack : (Walk.datatype 2 .array 5 arrays.rest).layout.unpack 1
      (arrays.buffer, arrays.cursor) = .ok (#[0, 10, 10, 4, 4, 0], ⟨1, 4, [0x2c]⟩) := by
    decide +kernel
  have hWalk : (Walk.datatype 2 .array 5 arrays.rest).ending = .ok [9] := by decide +kernel
  obtain ⟨after, hRun, hRest, hUnpacked⟩ := exists_ok_of_agrees hBoth.unpacks hUnpack hWalk
  obtain ⟨past, hSkip, hSame, hLeft⟩ := hBoth.skip_ok hRun
  exact ⟨hCalls, hDepth, ⟨after, hRun, hRest, hUnpacked⟩, past, hSkip, hSame.trans hRest, hLeft⟩

end Traversing

end ChunkFilters.Nbit
