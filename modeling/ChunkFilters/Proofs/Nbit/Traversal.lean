import ChunkFilters.Nbit

/-!
# Unpacking in one traversal

An element can be unpacked without laying it out first, by a program that goes through the
description and the packed input at the same time. It keeps the number of arrays and compounds
around the datatype at hand (`depth`), reads the description of a base again for each element of an
array, and skips the description of a base of which there is no element. `nested` and `skip` are
that program, with the failures and the state after them; `calls` bounds how many calls may be
pending.

`Agrees` says that a traversal does what a walk and its layout say, and leaves the depth as it was.

* `unpacks_nested`: `nested` agrees with the walk of the description;
* `skips_skip`: `skip` agrees with `Description.skip`, and unpacks nothing.

Neither has ever more calls pending than there are levels, so that `Stop.tooManyCalls` is not met.
-/

namespace ChunkFilters.Nbit

/-! ## States -/

/-- An element that is being unpacked. -/
structure Traversal where
  buffer : Array UInt8
  cursor : BitCursor
  /-- What is left of the description. -/
  rest : Description
  /-- The number of arrays and compounds around the datatype at hand. -/
  depth : Nat
  /-- The greatest depth so far. -/
  deepest : Nat

/-- Why a traversal ends early. -/
inductive Stop where
  | refused (error : DescriptionError)
  | exhausted (error : Exhausted)
  /-- More calls are pending than were allowed for. -/
  | tooManyCalls

/-- The error of the filter, for a description in a list of `count` parameters. -/
def Stop.error? (count : Nat) : Stop → Option CodecError
  | refused error => some (invalid (.description error count))
  | exhausted error => some (.ofExhausted error)
  | tooManyCalls => none

/-- A program that goes through an element. It leaves its state behind also where it fails. -/
abbrev Traversing := EStateM Stop Traversal

namespace Traversing

/-! ## Steps -/

def refuse {α : Type} (error : DescriptionError) : Traversing α := throw (.refused error)

/-- Reads from the front of the description. -/
def read {α : Type} (parse : Description → Except DescriptionError (α × Description)) :
    Traversing α := fun state =>
  match parse state.rest with
  | .error error => .error (.refused error) state
  | .ok (value, rest) => .ok value { state with rest }

/-- The size at the front of the description. -/
def peek : Traversing Nat := fun state =>
  match state.rest.peekSize with
  | .error error => .error (.refused error) state
  | .ok size => .ok size state

/-- Goes back to a place in the description. -/
def seek (description : Description) : Traversing Unit :=
  modify ({ · with rest := description })

/-- Goes on unless `size` bytes at `offset` reach beyond the enclosing bytes. -/
def fit (size offset enclosing : Nat) : Traversing Unit :=
  if offset + size ≤ enclosing then pure () else refuse (.outside size offset enclosing)

/-- Fills some bytes of the element from the packed input. -/
def fill (unpack : Array UInt8 → BitCursor → Except Interrupted (Array UInt8 × BitCursor)) :
    Traversing Unit := fun state =>
  match unpack state.buffer state.cursor with
  | .error interrupted =>
    .error (.exhausted interrupted.error)
      { state with buffer := interrupted.written, cursor := interrupted.error.cursor }
  | .ok (buffer, cursor) => .ok () { state with buffer, cursor }

def unpackAtomic (layout : PackedAtomic) (start : Nat) : Traversing Unit :=
  fill (layout.unpack start)

def copy (size start : Nat) : Traversing Unit :=
  fill fun buffer cursor => cursor.copyBytes start size buffer

def times : Nat → Traversing Unit → Traversing Unit
  | 0, _ => pure ()
  | count + 1, body => do
    body
    times count body

/-- Visits `count` places, each `stride` bytes after the one before it. -/
def visitEach (visit : Nat → Traversing Unit) (stride : Nat) : Nat → Nat → Traversing Unit
  | 0, _ => pure ()
  | count + 1, start => do
    visit start
    visitEach visit stride count (start + stride)

/-! ## Depth -/

/-- The depth inside an array or a compound. -/
def deeper (depth : Nat) : Traversing Nat := do
  if depth < maxNesting then
    modify fun state => { state with deepest := max state.deepest (depth + 1) }
    return depth + 1
  else refuse .tooDeep

/-- Sets the depth back on return, after a failure too. -/
def restoring (depth : Nat) (body : Traversing Unit) : Traversing Unit := fun state =>
  match body state with
  | .ok _ after => .ok () { after with depth }
  | .error stop after => .error stop { after with depth }

/-- Goes through an array or a compound. -/
def within (body : Traversing Unit) : Traversing Unit := do
  let depth := (← get).depth
  let inside ← deeper depth
  modify ({ · with depth := inside })
  restoring depth body

/-! ## Skipping -/

/-- Reads past the description of a datatype with `depth` arrays and compounds around it. -/
def skip : Nat → DatatypeClass → Nat → Traversing Unit
  | 0, _, _ => throw .tooManyCalls
  | _ + 1, .atomic, _ => do
    let _ ← read Description.nextAtomic
  | _ + 1, .noOp, _ => do
    let _ ← read Description.next
  | calls + 1, .array, depth => do
    let depth ← deeper depth
    let _ ← read Description.next
    let baseClass ← read Description.nextClass
    skip calls baseClass depth
  | calls + 1, .compound, depth => do
    let depth ← deeper depth
    let _ ← read Description.next
    let count ← read Description.nextSize
    times count do
      let _ ← read Description.next
      let memberClass ← read Description.nextClass
      skip calls memberClass depth

/-! ## Unpacking -/

def atomic (start offset enclosing : Nat) : Traversing Unit := do
  let layout ← read Description.nextAtomic
  fit layout.size offset enclosing
  unpackAtomic layout (start + offset)

def noOp (start offset enclosing : Nat) : Traversing Unit := do
  let size ← read Description.nextSize
  fit size offset enclosing
  copy size (start + offset)

/-- A call for an array or a compound: its class, where it starts, and the bytes it has. -/
abbrev Call := DatatypeClass → Nat → Nat → Traversing Unit

/-- The elements of an array whose base is itself an array or a compound. Every one of them reads
the description of the base again. -/
def nestedElements (call : Call) (skip : DatatypeClass → Nat → Traversing Unit)
    (baseClass : DatatypeClass) (start size : Nat) : Traversing Unit := do
  let baseSize ← peek
  if baseSize = 0 then refuse .baseSizeZero
  else
    let description := (← get).rest
    visitEach (fun start => do seek description; call baseClass start baseSize) baseSize
      (size / baseSize) start
    if size / baseSize = 0 then skip baseClass (← get).depth

def array (call : Call) (skip : DatatypeClass → Nat → Traversing Unit) (start enclosing : Nat) :
    Traversing Unit := do
  let size ← read Description.nextSize
  fit size 0 enclosing
  match ← read Description.nextClass with
  | .atomic =>
    let layout ← read Description.nextAtomic
    visitEach (unpackAtomic layout) layout.size (size / layout.size) start
  | .noOp =>
    let _ ← read Description.next
    copy size start
  | .array => nestedElements call skip .array start size
  | .compound => nestedElements call skip .compound start size

def member (call : Call) (start size : Nat) : Traversing Unit := do
  let offset ← read Description.nextSize
  let memberClass ← read Description.nextClass
  match memberClass with
  | .atomic => atomic start offset size
  | .noOp => noOp start offset size
  | .array | .compound =>
    if offset ≤ size then call memberClass (start + offset) (size - offset)
    else refuse (.memberOutside offset)

def compound (call : Call) (start enclosing : Nat) : Traversing Unit := do
  let size ← read Description.nextSize
  fit size 0 enclosing
  let count ← read Description.nextSize
  times count (member call start size)

/-- Unpacks a datatype into the `enclosing` bytes from `start` on. -/
def nested : Nat → Call
  | 0, _, _, _ => throw .tooManyCalls
  | _ + 1, .atomic, start, enclosing => atomic start 0 enclosing
  | _ + 1, .noOp, start, enclosing => noOp start 0 enclosing
  | calls + 1, .array, start, enclosing =>
    within (array (nested calls) (skip calls) start enclosing)
  | calls + 1, .compound, start, enclosing => within (compound (nested calls) start enclosing)

end Traversing

/-! ## Outcomes -/

/-- The depth is what it was, and has not been greater than it may be. -/
structure Kept (before after : Traversal) : Prop where
  depth_eq : after.depth = before.depth
  deepest_le : after.deepest ≤ max before.deepest maxNesting

theorem Kept.trans {first second third : Traversal} (h : Kept first second)
    (hNext : Kept second third) : Kept first third :=
  ⟨hNext.depth_eq.trans h.depth_eq, by
    have hFirst := h.deepest_le
    have hSecond := hNext.deepest_le
    omega⟩

/-- What a traversal from `start` on comes to, by the walk of the description: the layout is
unpacked as far as the input goes, and then the walk ends or has been refused. -/
inductive Agrees (before : Traversal) (start : Nat) (walk : Walk) :
    EStateM.Result Stop Traversal Unit → Prop
  | done {after : Traversal}
      (hLayout : walk.layout.unpack start (before.buffer, before.cursor) =
        .ok (after.buffer, after.cursor))
      (hEnding : walk.ending = .ok after.rest) (hKept : Kept before after) :
      Agrees before start walk (.ok () after)
  | refused {error : DescriptionError} {after : Traversal}
      (hLayout : walk.layout.unpack start (before.buffer, before.cursor) =
        .ok (after.buffer, after.cursor))
      (hEnding : walk.ending = .error error) (hKept : Kept before after) :
      Agrees before start walk (.error (.refused error) after)
  | exhausted {error : Exhausted} {after : Traversal}
      (hLayout : walk.layout.unpack start (before.buffer, before.cursor) = .error error)
      (hKept : Kept before after) :
      Agrees before start walk (.error (.exhausted error) after)

/-- The state in which a traversal ends, early or not. -/
def finalState : EStateM.Result Stop Traversal Unit → Traversal
  | .ok _ state => state
  | .error _ state => state

theorem Agrees.kept {walk : Walk} {start : Nat} {state : Traversal}
    {result : EStateM.Result Stop Traversal Unit} (h : Agrees state start walk result) :
    Kept state (finalState result) := by
  cases h <;> assumption

/-- What counts of a walk is what its layout unpacks and how it ends. -/
theorem Agrees.congr {walk other : Walk} {start otherStart : Nat} {state before : Traversal}
    {result : EStateM.Result Stop Traversal Unit} (h : Agrees state start walk result)
    (hUnpack : other.layout.unpack otherStart (before.buffer, before.cursor) =
      walk.layout.unpack start (state.buffer, state.cursor))
    (hSame : other.ending = walk.ending)
    (hKeeps : ∀ {after}, Kept state after → Kept before after) :
    Agrees before otherStart other result := by
  cases h with
  | done hLayout hEnding hKept =>
    exact .done (hUnpack.trans hLayout) (hSame.trans hEnding) (hKeeps hKept)
  | refused hLayout hEnding hKept =>
    exact .refused (hUnpack.trans hLayout) (hSame.trans hEnding) (hKeeps hKept)
  | exhausted hLayout hKept => exact .exhausted (hUnpack.trans hLayout) (hKeeps hKept)

/-- Where the description is read plays no part in what is unpacked. -/
theorem Agrees.of_rest {walk : Walk} {start : Nat} {state : Traversal} {rest : Description}
    {result : EStateM.Result Stop Traversal Unit}
    (h : Agrees { state with rest } start walk result) : Agrees state start walk result :=
  h.congr rfl rfl fun hKept => ⟨hKept.depth_eq, hKept.deepest_le⟩

theorem Agrees.shifted {walk : Walk} {start : Nat} {state : Traversal}
    {result : EStateM.Result Stop Traversal Unit} (offset : Nat)
    (h : Agrees state (start + offset) walk result) :
    Agrees state start (walk.shifted offset) result :=
  h.congr rfl rfl id

/-! ## Walks -/

/-- The walk of a description that is only skipped. -/
def Walk.skipped (ending : Except DescriptionError Description) : Walk := ⟨.nothing, ending⟩

theorem Walk.andThen_reading {α : Type} (result : Except DescriptionError (α × Description))
    (next : α → Description → Walk) (last : Description → Walk) :
    (Walk.reading result next).andThen last =
      Walk.reading result fun value rest => (next value rest).andThen last := by
  cases result <;> rfl

namespace Traversing

theorem bind_apply {α β : Type} (first : Traversing α) (next : α → Traversing β)
    (state : Traversal) :
    (first >>= next) state = match first state with
      | .ok value state => next value state
      | .error stop state => .error stop state := by
  show EStateM.bind first next state = _
  unfold EStateM.bind
  cases first state <;> rfl

theorem kept_refl (state : Traversal) : Kept state state := ⟨rfl, Nat.le_max_left _ _⟩

section
variable {state : Traversal} {start : Nat}

theorem agrees_refuse (error : DescriptionError) :
    Agrees state start (Walk.fail error) ((refuse error : Traversing Unit) state) :=
  .refused rfl rfl (kept_refl state)

theorem agrees_read {α : Type} {parse : Description → Except DescriptionError (α × Description)}
    {next : α → Description → Walk} {run : α → Traversing Unit}
    (h : ∀ value rest,
      Agrees { state with rest } start (next value rest) (run value { state with rest })) :
    Agrees state start (Walk.reading (parse state.rest) next) ((read parse >>= run) state) := by
  rw [bind_apply, read]
  cases parse state.rest with
  | error error => exact agrees_refuse error
  | ok result => exact (h result.1 result.2).of_rest

theorem agrees_fit {walk : Walk} {run : Traversing Unit} {size offset enclosing : Nat}
    (h : Agrees state start walk (run state)) :
    Agrees state start (Walk.fitting size offset enclosing walk)
      ((fit size offset enclosing >>= fun _ => run) state) := by
  rw [bind_apply, fit, Walk.fitting]
  by_cases hFits : offset + size ≤ enclosing
  · rw [if_pos hFits, if_pos hFits]
    exact h
  · rw [if_neg hFits, if_neg hFits]
    exact agrees_refuse _

/-- What is filled is a leaf, and nothing is read of the description. -/
theorem agrees_fill {layout : Layout}
    {unpack : Array UInt8 → BitCursor → Except Interrupted (Array UInt8 × BitCursor)}
    (h : layout.unpack start (state.buffer, state.cursor) =
      dropWritten (unpack state.buffer state.cursor)) :
    Agrees state start (Walk.emit layout state.rest) (fill unpack state) := by
  rw [fill]
  cases hUnpack : unpack state.buffer state.cursor with
  | error interrupted =>
    rw [hUnpack] at h
    exact .exhausted h ⟨rfl, Nat.le_max_left _ _⟩
  | ok result =>
    rw [hUnpack] at h
    exact .done h rfl ⟨rfl, Nat.le_max_left _ _⟩

theorem agrees_unpackAtomic (layout : PackedAtomic) (start : Nat) (state : Traversal) :
    Agrees state start (Walk.emit (.atomic layout) state.rest) (unpackAtomic layout start state) :=
  agrees_fill rfl

theorem agrees_copy (size start : Nat) (state : Traversal) :
    Agrees state start (Walk.emit (.verbatim size) state.rest) (copy size start state) :=
  agrees_fill rfl

theorem agrees_atomic (offset enclosing : Nat) :
    Agrees state start (Walk.atomic offset enclosing state.rest)
      (atomic start offset enclosing state) :=
  agrees_read fun layout rest => agrees_fit <|
    (agrees_unpackAtomic layout (start + offset) { state with rest }).shifted offset

theorem agrees_noOp (offset enclosing : Nat) :
    Agrees state start (Walk.noOp offset enclosing state.rest)
      (noOp start offset enclosing state) :=
  agrees_read fun size rest => agrees_fit <|
    (agrees_copy size (start + offset) { state with rest }).shifted offset

/-- One part after the other. -/
theorem agrees_andThen {walk : Walk} {next : Description → Walk} {first second : Traversing Unit}
    (hFirst : Agrees state start walk (first state))
    (hSecond : ∀ middle, walk.ending = .ok middle.rest → Kept state middle →
      Agrees middle start (next middle.rest) (second middle)) :
    Agrees state start (walk.andThen next) ((first >>= fun _ => second) state) := by
  rw [bind_apply, Walk.andThen]
  generalize first state = result at hFirst ⊢
  cases hFirst with
  | @done middle hLayout hEnding hKept =>
    have hBoth : (Layout.both walk.layout (next middle.rest).layout).unpack start
        (state.buffer, state.cursor) =
          (next middle.rest).layout.unpack start (middle.buffer, middle.cursor) := by
      rw [Layout.unpack, hLayout]
    rw [hEnding]
    exact (hSecond middle hEnding hKept).congr hBoth rfl hKept.trans
  | refused hLayout hEnding hKept =>
    rw [hEnding]
    exact .refused hLayout hEnding hKept
  | exhausted hLayout hKept =>
    cases hEnding : walk.ending with
    | error error => exact .exhausted hLayout hKept
    | ok rest =>
      refine .exhausted ?_ hKept
      rw [Layout.unpack, hLayout]

/-! ## Elements of an array -/

/-- One more copy is the first one and then the others, `stride` bytes further on. -/
theorem agrees_repeated_succ {walk : Walk} {count stride : Nat}
    {result : EStateM.Result Stop Traversal Unit}
    (h : Agrees state start (walk.andThen fun rest =>
      (Walk.emit (.repeated count stride walk.layout) rest).shifted stride) result) :
    Agrees state start (walk.repeated (count + 1) stride) result := by
  rw [Walk.andThen] at h
  rw [Walk.repeated]
  cases hEnding : walk.ending with
  | error error =>
    rw [hEnding] at h
    exact h
  | ok rest =>
    rw [hEnding] at h
    exact h.congr rfl rfl id

/-- Visits that leave the description where they found it. -/
theorem agrees_visitEach {walk : Walk} {visit : Nat → Traversing Unit} {stride : Nat}
    (hEnding : walk.ending = .ok state.rest)
    (hVisit : ∀ (start : Nat) (before : Traversal), before.depth = state.depth →
      walk.ending = .ok before.rest → Agrees before start walk (visit start before))
    (count : Nat) :
    Agrees state start (walk.repeated count stride)
      (visitEach visit stride count start state) := by
  induction count generalizing start state with
  | zero =>
    rw [Walk.repeated, hEnding]
    exact .done rfl rfl (kept_refl state)
  | succ count ih =>
    refine agrees_repeated_succ <| agrees_andThen (hVisit start state rfl hEnding) ?_
    intro middle hMiddle hKept
    have hOthers : Agrees middle (start + stride) (walk.repeated count stride)
        (visitEach visit stride count (start + stride) middle) :=
      ih hMiddle fun start before hDepth => hVisit start before (hDepth.trans hKept.depth_eq)
    rw [Walk.repeated, hMiddle] at hOthers
    exact hOthers.shifted stride

/-- Visits that go back in the description themselves: only the first may find it elsewhere. -/
theorem agrees_visitEach_succ {walk : Walk} {visit : Nat → Traversing Unit} {stride : Nat}
    (hVisit : ∀ (start : Nat) (before : Traversal), before.depth = state.depth →
      Agrees before start walk (visit start before)) (count : Nat) :
    Agrees state start (walk.repeated (count + 1) stride)
      (visitEach visit stride (count + 1) start state) := by
  refine agrees_repeated_succ <| agrees_andThen (hVisit start state rfl) ?_
  intro middle hMiddle hKept
  have hOthers : Agrees middle (start + stride) (walk.repeated count stride)
      (visitEach visit stride count (start + stride) middle) :=
    agrees_visitEach hMiddle
      (fun start before hDepth _ => hVisit start before (hDepth.trans hKept.depth_eq)) count
  rw [Walk.repeated, hMiddle] at hOthers
  exact hOthers.shifted stride

/-! ## Depth -/

/-- Going one level deeper, where one is left, is noted and changes nothing else. -/
theorem agrees_of_deepest {walk : Walk} {deepest : Nat}
    {result : EStateM.Result Stop Traversal Unit}
    (h : Agrees { state with deepest } start walk result)
    (hDeepest : deepest ≤ max state.deepest maxNesting) : Agrees state start walk result := by
  have hKept : Kept state { state with deepest } := ⟨rfl, hDeepest⟩
  exact h.congr rfl rfl hKept.trans

theorem agrees_deeper {walk : Walk} {depth : Nat} {run : Nat → Traversing Unit}
    (hDepth : depth < maxNesting)
    (h : ∀ deepest, Agrees { state with deepest } start walk
      (run (depth + 1) { state with deepest })) :
    Agrees state start walk ((deeper depth >>= run) state) := by
  rw [bind_apply, deeper, if_pos hDepth]
  exact agrees_of_deepest (h (max state.deepest (depth + 1))) (by omega)

theorem deeper_tooDeep {depth : Nat} (run : Nat → Traversing Unit)
    (hDepth : ¬ depth < maxNesting) :
    (deeper depth >>= run) state = .error (.refused .tooDeep) state := by
  rw [bind_apply, deeper, if_neg hDepth]
  rfl

theorem agrees_deeper_tooDeep {depth : Nat} (run : Nat → Traversing Unit)
    (hDepth : ¬ depth < maxNesting) :
    Agrees state start (Walk.fail .tooDeep) ((deeper depth >>= run) state) := by
  rw [deeper_tooDeep run hDepth]
  exact agrees_refuse .tooDeep

theorem agrees_within {walk : Walk} {body : Traversing Unit} (hDepth : state.depth < maxNesting)
    (h : ∀ deepest, Agrees { state with depth := state.depth + 1, deepest } start walk
      (body { state with depth := state.depth + 1, deepest })) :
    Agrees state start walk (within body state) := by
  refine agrees_deeper hDepth fun deepest => ?_
  have hBody := h deepest
  show Agrees _ start walk (restoring state.depth body
    { state with depth := state.depth + 1, deepest })
  rw [restoring]
  generalize body { state with depth := state.depth + 1, deepest } = result at hBody ⊢
  cases hBody with
  | done hLayout hEnding hKept => exact .done hLayout hEnding ⟨rfl, hKept.deepest_le⟩
  | refused hLayout hEnding hKept => exact .refused hLayout hEnding ⟨rfl, hKept.deepest_le⟩
  | exhausted hLayout hKept => exact .exhausted hLayout ⟨rfl, hKept.deepest_le⟩

/-! ## Skipping -/

theorem skip_atomic_eq (levels : Nat) (description : Description) :
    Description.skip levels .atomic description =
      (description.nextAtomic >>= fun (_, rest) => .ok rest) := by
  cases levels <;> rfl

theorem skip_noOp_eq (levels : Nat) (description : Description) :
    Description.skip levels .noOp description =
      (description.next >>= fun (_, rest) => .ok rest) := by
  cases levels <;> rfl

theorem agrees_skip_bind {α : Type}
    {parse : Description → Except DescriptionError (α × Description)}
    {next : α → Description → Except DescriptionError Description} {run : α → Traversing Unit}
    (h : ∀ value rest, Agrees { state with rest } start (Walk.skipped (next value rest))
      (run value { state with rest })) :
    Agrees state start (Walk.skipped (parse state.rest >>= fun (value, rest) => next value rest))
      ((read parse >>= run) state) := by
  refine (agrees_read h).congr ?_ ?_ id
  · cases parse state.rest <;> rfl
  · cases parse state.rest <;> rfl

theorem agrees_skip_andThen {ending : Except DescriptionError Description}
    {next : Description → Except DescriptionError Description} {first second : Traversing Unit}
    (hFirst : Agrees state start (Walk.skipped ending) (first state))
    (hSecond : ∀ middle,
      Agrees middle start (Walk.skipped (next middle.rest)) (second middle)) :
    Agrees state start (Walk.skipped (ending >>= next)) ((first >>= fun _ => second) state) := by
  have hBoth : Agrees state start
      ((Walk.skipped ending).andThen fun rest => Walk.skipped (next rest))
      ((first >>= fun _ => second) state) :=
    agrees_andThen hFirst fun middle _ _ => hSecond middle
  cases ending with
  | error error => exact hBoth
  | ok rest => exact hBoth.congr rfl rfl id

/-- The program goes past what the grammar skips, and unpacks nothing. -/
def Skips (skip : DatatypeClass → Description → Except DescriptionError Description)
    (run : DatatypeClass → Traversing Unit) : Prop :=
  ∀ (datatypeClass : DatatypeClass) (start : Nat) (before : Traversal),
    Agrees before start (Walk.skipped (skip datatypeClass before.rest)) (run datatypeClass before)

section
variable {skip : DatatypeClass → Description → Except DescriptionError Description}
  {run : DatatypeClass → Traversing Unit}

/-- The base of an array and a member of a compound are both written as a number, a class and a
description. -/
theorem agrees_skipPart (h : Skips skip run) (start : Nat) (state : Traversal) :
    Agrees state start (Walk.skipped (do
        let (_, rest) ← state.rest.next
        let (partClass, rest) ← rest.nextClass
        skip partClass rest)) ((do
          let _ ← read Description.next
          let partClass ← read Description.nextClass
          run partClass : Traversing Unit) state) :=
  agrees_skip_bind fun _ _ => agrees_skip_bind fun partClass _ => h partClass start _

theorem agrees_skipMembers (h : Skips skip run) (count start : Nat) (state : Traversal) :
    Agrees state start (Walk.skipped (Description.skipMembers skip count state.rest))
      (times count (do
        let _ ← read Description.next
        let memberClass ← read Description.nextClass
        run memberClass) state) := by
  induction count generalizing state with
  | zero => exact .done rfl rfl (kept_refl state)
  | succ count ih =>
    refine (agrees_skip_andThen (agrees_skipPart h start state) ih).congr rfl ?_ id
    simp only [Description.skipMembers, bind_assoc]

theorem agrees_skipCompound (h : Skips skip run) (start : Nat) (state : Traversal) :
    Agrees state start (Walk.skipped (do
        let (_, rest) ← state.rest.next
        let (count, rest) ← rest.nextSize
        Description.skipMembers skip count rest)) ((do
          let _ ← read Description.next
          let count ← read Description.nextSize
          times count do
            let _ ← read Description.next
            let memberClass ← read Description.nextClass
            run memberClass : Traversing Unit) state) :=
  agrees_skip_bind fun _ _ => agrees_skip_bind fun count _ =>
    agrees_skipMembers h count start _

end

/-- What is skipped is what the grammar says. -/
theorem skips_skip {calls levels depth : Nat} (hCalls : levels < calls)
    (hDepth : depth + levels = maxNesting) :
    Skips (Description.skip levels) (skip calls · depth) := by
  induction calls generalizing levels depth with
  | zero => exact absurd hCalls (Nat.not_lt_zero levels)
  | succ calls ih =>
    intro datatypeClass start state
    have hRead : ∀ rest, Agrees { state with rest } start (Walk.skipped (.ok rest))
        ((pure () : Traversing Unit) { state with rest }) :=
      fun _ => .done rfl rfl (kept_refl _)
    cases datatypeClass with
    | atomic =>
      rw [skip_atomic_eq]
      exact agrees_skip_bind fun _ rest => hRead rest
    | noOp =>
      rw [skip_noOp_eq]
      exact agrees_skip_bind fun _ rest => hRead rest
    | array =>
      cases levels with
      | zero => exact agrees_deeper_tooDeep _ (by omega)
      | succ levels =>
        have hInside : Skips (Description.skip levels) (skip calls · (depth + 1)) :=
          ih (by omega) (by omega)
        exact agrees_deeper (by omega) fun deepest =>
          agrees_skipPart hInside start { state with deepest }
    | compound =>
      cases levels with
      | zero => exact agrees_deeper_tooDeep _ (by omega)
      | succ levels =>
        have hInside : Skips (Description.skip levels) (skip calls · (depth + 1)) :=
          ih (by omega) (by omega)
        exact agrees_deeper (by omega) fun deepest =>
          agrees_skipCompound hInside start { state with deepest }

/-! ## Unpacking -/

/-- A call from a given depth does what the walk of its description says. -/
def Unpacks (depth : Nat) (walk : Walk.Nested) (call : Call) : Prop :=
  ∀ (datatypeClass : DatatypeClass) (start enclosing : Nat) (before : Traversal),
    before.depth = depth →
      Agrees before start (walk datatypeClass enclosing before.rest)
        (call datatypeClass start enclosing before)

section
variable {depth : Nat} {walk : Walk.Nested} {call : Call}

theorem agrees_nestedElements
    {skipped : DatatypeClass → Description → Except DescriptionError Description}
    {skip : DatatypeClass → Nat → Traversing Unit} (hCall : Unpacks depth walk call)
    (hSkip : Skips skipped (skip · depth)) (baseClass : DatatypeClass) (start size : Nat)
    (state : Traversal) (hDepth : state.depth = depth) :
    Agrees state start (Walk.nestedElements walk (skipped baseClass) baseClass size state.rest)
      (nestedElements call skip baseClass start size state) := by
  subst hDepth
  rw [Walk.nestedElements, nestedElements, bind_apply, peek]
  cases state.rest.peekSize with
  | error error => exact agrees_refuse error
  | ok baseSize =>
    dsimp only
    by_cases hZero : baseSize = 0
    · rw [if_pos hZero, if_pos hZero]
      exact agrees_refuse _
    · rw [if_neg hZero, if_neg hZero]
      cases size / baseSize with
      | zero => exact hSkip baseClass start state
      | succ count =>
        have hEach : ∀ (start : Nat) (before : Traversal), before.depth = state.depth →
            Agrees before start (walk baseClass baseSize state.rest)
              ((do seek state.rest; call baseClass start baseSize : Traversing Unit) before) :=
          fun start before hDepth =>
            (hCall baseClass start baseSize { before with rest := state.rest } hDepth).of_rest
        have hAll : Agrees state start
            ((walk baseClass baseSize state.rest).repeated (count + 1) baseSize)
            ((do
              visitEach (fun start => do seek state.rest; call baseClass start baseSize) baseSize
                (count + 1) start
              pure () : Traversing Unit) state) := by
          rw [bind_pure_unit]
          exact agrees_visitEach_succ hEach count
        exact hAll

theorem agrees_array
    {skipped : DatatypeClass → Description → Except DescriptionError Description}
    {skip : DatatypeClass → Nat → Traversing Unit} (hCall : Unpacks depth walk call)
    (hSkip : Skips skipped (skip · depth)) (start enclosing : Nat)
    (state : Traversal) (hDepth : state.depth = depth) :
    Agrees state start (Walk.array walk skipped enclosing state.rest)
      (array call skip start enclosing state) := by
  refine agrees_read fun size rest => agrees_fit <| agrees_read fun baseClass rest => ?_
  cases baseClass with
  | atomic =>
    refine agrees_read fun layout rest => ?_
    have hEach : ∀ (start : Nat) (before : Traversal),
        (Walk.emit (.atomic layout) rest).ending = .ok before.rest →
          Agrees before start (Walk.emit (.atomic layout) rest)
            (unpackAtomic layout start before) := by
      intro start before hRest
      cases hRest
      exact agrees_unpackAtomic layout start before
    exact agrees_visitEach rfl (fun start before _ => hEach start before) _
  | noOp => exact agrees_read fun _ rest => agrees_copy size start _
  | array => exact agrees_nestedElements hCall hSkip .array start size _ hDepth
  | compound => exact agrees_nestedElements hCall hSkip .compound start size _ hDepth

theorem agrees_member (hCall : Unpacks depth walk call) (start size : Nat) (state : Traversal)
    (hDepth : state.depth = depth) :
    Agrees state start (Walk.reading state.rest.nextSize fun offset rest =>
        Walk.reading rest.nextClass fun memberClass rest =>
          Walk.compoundMember walk size offset memberClass rest)
      (member call start size state) := by
  refine agrees_read fun offset rest => agrees_read fun memberClass rest => ?_
  have hNests : ∀ memberClass : DatatypeClass,
      Agrees { state with rest } start
        (if offset ≤ size then (walk memberClass (size - offset) rest).shifted offset
          else Walk.fail (.memberOutside offset))
        ((if offset ≤ size then call memberClass (start + offset) (size - offset)
          else refuse (.memberOutside offset) : Traversing Unit) { state with rest }) := by
    intro memberClass
    by_cases hOffset : offset ≤ size
    · rw [if_pos hOffset, if_pos hOffset]
      exact (hCall memberClass (start + offset) (size - offset) { state with rest }
        hDepth).shifted offset
    · rw [if_neg hOffset, if_neg hOffset]
      exact agrees_refuse _
  cases memberClass with
  | atomic => exact agrees_atomic offset size
  | noOp => exact agrees_noOp offset size
  | array => exact hNests .array
  | compound => exact hNests .compound

theorem agrees_members (hCall : Unpacks depth walk call) (count start size : Nat)
    (state : Traversal) (hDepth : state.depth = depth) :
    Agrees state start (Walk.members walk size count state.rest)
      (times count (member call start size) state) := by
  induction count generalizing state with
  | zero => exact .done rfl rfl (kept_refl state)
  | succ count ih =>
    have hBoth := agrees_andThen (agrees_member hCall start size state hDepth)
      fun middle _ hKept => ih middle (hKept.depth_eq.trans hDepth)
    simp only [Walk.andThen_reading] at hBoth
    exact hBoth

theorem agrees_compound (hCall : Unpacks depth walk call) (start enclosing : Nat)
    (state : Traversal) (hDepth : state.depth = depth) :
    Agrees state start (Walk.compound walk enclosing state.rest)
      (compound call start enclosing state) :=
  agrees_read fun size _ => agrees_fit <| agrees_read fun count _ =>
    agrees_members hCall count start size _ hDepth

end

/-- What is unpacked is what the walk lays out, and the walk ends where the traversal does. -/
theorem unpacks_nested {calls levels depth : Nat} (hCalls : levels < calls)
    (hDepth : depth + levels = maxNesting) :
    Unpacks depth (Walk.datatype levels) (nested calls) := by
  induction calls generalizing levels depth with
  | zero => exact absurd hCalls (Nat.not_lt_zero levels)
  | succ calls ih =>
    intro datatypeClass start enclosing state hState
    cases datatypeClass with
    | atomic =>
      rw [Walk.datatype.eq_def]
      exact agrees_atomic 0 enclosing
    | noOp =>
      rw [Walk.datatype.eq_def]
      exact agrees_noOp 0 enclosing
    | array =>
      cases levels with
      | zero => exact agrees_deeper_tooDeep _ (by omega)
      | succ levels =>
        have hInside : Unpacks (depth + 1) (Walk.datatype levels) (nested calls) :=
          ih (by omega) (by omega)
        have hSkip : Skips (Description.skip levels) (skip calls · (depth + 1)) :=
          skips_skip (by omega) (by omega)
        exact agrees_within (by omega) fun deepest =>
          agrees_array hInside hSkip start enclosing
            { state with depth := state.depth + 1, deepest } (congrArg (· + 1) hState)
    | compound =>
      cases levels with
      | zero => exact agrees_deeper_tooDeep _ (by omega)
      | succ levels =>
        have hInside : Unpacks (depth + 1) (Walk.datatype levels) (nested calls) :=
          ih (by omega) (by omega)
        exact agrees_within (by omega) fun deepest =>
          agrees_compound hInside start enclosing
            { state with depth := state.depth + 1, deepest } (congrArg (· + 1) hState)

end

end Traversing

end ChunkFilters.Nbit
