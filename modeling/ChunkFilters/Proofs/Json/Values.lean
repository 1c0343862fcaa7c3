import ChunkFilters.Proofs.Json.Scanning

/-!
# Reading what is spelled

A value has one list of tokens, whatever its spelling (`tokens`). Its texts are the spellings of
these (`SpelledAs`).

* `run_tokens`: the reader goes through the tokens of a value and has read the value, whatever is
  still open around it;
* `ofText?_of_spelledAs`: so every spelling of a value is read as this value.

The induction is on the value. Open arrays and objects keep what they have so far in reverse, which
is what the statements on items and members account for.
-/

namespace ChunkFilters.Json

/-! ## The tokens of a value -/

mutual

def tokens : Json → List Token
  | .null => [.null]
  | .bool value => [.bool value]
  | .natural value => [.natural value]
  | .numeral => [.numeral]
  | .string text => [.string text]
  | .array [] => [.openArray, .closeArray]
  | .array (item :: items) => .openArray :: (item.tokens ++ itemTokens items)
  | .object [] => [.openObject, .closeObject]
  | .object ((key, value) :: members) =>
    .openObject :: .string key :: .colon :: (value.tokens ++ memberTokens members)

/-- The rest of an array, with items to come. -/
def itemTokens : List Json → List Token
  | [] => [.closeArray]
  | item :: items => .comma :: (item.tokens ++ itemTokens items)

/-- The rest of an object, with members to come. -/
def memberTokens : List (Option String × Json) → List Token
  | [] => [.closeObject]
  | (key, value) :: members =>
    .comma :: .string key :: .colon :: (value.tokens ++ memberTokens members)

end

/-- The text is a spelling of the value. -/
def SpelledAs (value : Json) (text : String) : Prop := Spelled value.tokens text.toList

/-! ## Reading -/

open Reading

theorem run_of_step {reading next : Reading} {token : Token} (h : reading.step token = some next)
    (rest : List Token) : reading.run (token :: rest) = next.run rest := by
  rw [run, h, Option.bind_some]

/-- The first item of an array is read like any other value. -/
theorem run_firstItem (item : Json) (stack : List Frame) (rest : List Token) :
    run ⟨.array [] :: stack, .firstItem⟩ (item.tokens ++ rest) =
      run ⟨.array [] :: stack, .value⟩ (item.tokens ++ rest) := by
  cases item with
  | array items => cases items <;> rw [tokens] <;> rfl
  | object members => cases members <;> rw [tokens] <;> rfl
  | _ =>
    rw [tokens]
    rfl

mutual

theorem run_tokens (value : Json) (stack : List Frame) (rest : List Token) :
    run ⟨stack, .value⟩ (value.tokens ++ rest) = run ⟨stack, .afterValue value⟩ rest := by
  cases value with
  | null | bool _ | natural _ | numeral | string _ =>
    rw [tokens]
    rfl
  | array items =>
    cases items with
    | nil =>
      rw [tokens]
      rfl
    | cons item items =>
      rw [tokens, List.cons_append, List.append_assoc, run_of_step rfl, run_firstItem,
        run_tokens item, run_itemTokens items item []]
      rfl
  | object members =>
    cases members with
    | nil =>
      rw [tokens]
      rfl
    | cons member members =>
      obtain ⟨key, value⟩ := member
      rw [tokens]
      simp only [List.cons_append, List.append_assoc]
      rw [run_of_step rfl, run_of_step rfl, run_of_step rfl, run_tokens value,
        run_memberTokens members key value []]
      rfl

theorem run_itemTokens (items : List Json) (item : Json) (before : List Json)
    (stack : List Frame) (rest : List Token) :
    run ⟨.array before :: stack, .afterValue item⟩ (itemTokens items ++ rest) =
      run ⟨stack, .afterValue (.array ((item :: before).reverse ++ items))⟩ rest := by
  cases items with
  | nil =>
    rw [itemTokens, List.append_nil]
    rfl
  | cons next items =>
    rw [itemTokens, List.cons_append, List.append_assoc, run_of_step rfl, run_tokens next,
      run_itemTokens items next (item :: before), List.reverse_cons, List.append_assoc]
    rfl

theorem run_memberTokens (members : List (Option String × Json)) (key : Option String)
    (value : Json) (before : Members) (stack : List Frame) (rest : List Token) :
    run ⟨.object before key :: stack, .afterValue value⟩ (memberTokens members ++ rest) =
      run ⟨stack, .afterValue (.object (((key, value) :: before).reverse ++ members))⟩ rest := by
  cases members with
  | nil =>
    rw [memberTokens, List.append_nil]
    rfl
  | cons member members =>
    obtain ⟨nextKey, next⟩ := member
    rw [memberTokens]
    simp only [List.cons_append, List.append_assoc]
    rw [run_of_step rfl, run_of_step rfl, run_of_step rfl, run_tokens next,
      run_memberTokens members nextKey next ((key, value) :: before), List.reverse_cons,
      List.append_assoc]
    rfl

end

theorem ofTokens?_tokens (value : Json) : ofTokens? value.tokens = some value := by
  have hRun := run_tokens value [] []
  rw [List.append_nil] at hRun
  rw [ofTokens?, hRun]
  rfl

theorem ofText?_of_spelledAs {value : Json} {text : String} (h : value.SpelledAs text) :
    ofText? text = some value := by
  rw [ofText?, tokens?_of_spelled h, Option.bind_some, ofTokens?_tokens]

end ChunkFilters.Json
