/-
# Values read from their texts

A tree has its tokens, and reading these gives the tree (`ofTokens?_tokens`). The text of a
value, on one line or with a line for every part, is written as the tokens of a tree that
is known beforehand (`Json.source`). So what a value is read as is decided by that tree: it
is the value again if every number in it is read back and it is not nested too deep
(`focus?_source`).
-/

import ArchDiagram.Json.Source
import ArchDiagram.Proofs.Json.Tokens

namespace ArchDiagram.Json

/-- Parts with something between them: the first one, and the others with it in front. -/
theorem intercalate_cons {α : Type} (separator : α) (first : List α) (rest : List (List α)) :
    [separator].intercalate (first :: rest) = first ++ rest.flatMap (separator :: ·) := by
  induction rest generalizing first with
  | nil => simp
  | cons second rest ih =>
      rw [List.intercalate_cons_cons, ih, List.flatMap_cons]
      simp

namespace Source

/-! ## Tokens of a tree -/

mutual

/-- The tokens of a tree. -/
def tokens : Source → List Token
  | .null => [.null]
  | .bool value => [.bool value]
  | .number numeral => [.number numeral]
  | .string value => [.string value]
  | .array elements =>
      .openArray :: ([.comma].intercalate (tokensOfElements elements) ++ [.closeArray])
  | .object members =>
      .openObject :: ([.comma].intercalate (tokensOfMembers members) ++ [.closeObject])

/-- The tokens of each element. -/
def tokensOfElements : List Source → List (List Token)
  | [] => []
  | element :: rest => element.tokens :: tokensOfElements rest

/-- The tokens of each member. -/
def tokensOfMembers : List (Option String × Source) → List (List Token)
  | [] => []
  | (name, value) :: rest => (.string name :: .colon :: value.tokens) :: tokensOfMembers rest

end

/-- Read some tokens. -/
def run (reading : Reading) (tokens : List Token) : Option Reading :=
  tokens.foldlM Reading.step reading

theorem run_append (reading : Reading) (first second : List Token) :
    run reading (first ++ second) = (run reading first).bind fun reading => run reading second :=
  List.foldlM_append

theorem run_cons (reading : Reading) (token : Token) (rest : List Token) :
    run reading (token :: rest) = (reading.step token).bind fun reading => run reading rest :=
  List.foldlM_cons

/-- The last token. -/
theorem run_singleton (reading : Reading) (token : Token) :
    run reading [token] = reading.step token := by
  rw [run_cons]
  exact Option.bind_fun_some _

/-- A value goes to the end of an open array. -/
theorem supply_array (elements : List Source) (outer : List Opened) (value : Source) :
    supply (.array elements :: outer) value =
      some ⟨.array (value :: elements) :: outer, .separator⟩ :=
  rfl

/-- A value goes behind its name to the end of an open object. -/
theorem supply_member (members : List (Option String × Source)) (name : Option String)
    (outer : List Opened) (value : Source) :
    supply (.member members name :: outer) value =
      some ⟨.object ((name, value) :: members) :: outer, .separator⟩ :=
  rfl

/-- A value can stand at the start of an array, because it does not begin with the bracket
that closes one. -/
theorem run_firstElement (opened : List Opened) (element : Source) (rest : List Token) :
    run ⟨opened, .firstElement⟩ (element.tokens ++ rest) =
      run ⟨opened, .value⟩ (element.tokens ++ rest) := by
  cases element <;> rfl

mutual

/-- The tokens of a tree put it into the innermost open bracket. -/
theorem run_tokens : ∀ (source : Source) (opened : List Opened),
    run ⟨opened, .value⟩ source.tokens = supply opened source
  | .null, opened | .bool _, opened | .number _, opened | .string _, opened => by
      rw [tokens, run_singleton]
      rfl
  | .array [], opened | .object [], opened => by
      rw [tokens, run_cons]
      exact run_singleton _ _
  | .array (first :: rest), opened => by
      have hfirst := run_tokens first (.array [] :: opened)
      have hrest := run_elements rest [first] opened
      -- the first element stands right behind the bracket, the others behind commas
      rw [tokens, tokensOfElements, intercalate_cons, List.append_assoc, run_cons]
      simp only [Reading.step, startValue, Option.bind_some]
      rw [run_firstElement, run_append, hfirst, supply_array, Option.bind_some,
        run_append, hrest, Option.bind_some, run_singleton]
      simp only [Reading.step, close, List.reverse_append, List.reverse_reverse,
        List.reverse_singleton, List.singleton_append]
  | .object ((name, value) :: rest), opened => by
      have hvalue := run_tokens value (.member [] name :: opened)
      have hrest := run_members rest [(name, value)] opened
      -- a member is read by its name, its colon and the tokens of its value
      rw [tokens, tokensOfMembers, intercalate_cons, List.append_assoc, run_cons]
      simp only [Reading.step, startValue, Option.bind_some]
      rw [List.cons_append, run_cons]
      simp only [Reading.step, Option.bind_some]
      rw [List.cons_append, run_cons]
      simp only [Reading.step, Option.bind_some]
      rw [run_append, hvalue, supply_member, Option.bind_some, run_append, hrest, Option.bind_some,
        run_singleton]
      simp only [Reading.step, close, List.reverse_append, List.reverse_reverse,
        List.reverse_singleton, List.singleton_append]

/-- Elements behind commas are added to an open array. -/
theorem run_elements : ∀ (elements read : List Source) (opened : List Opened),
    run ⟨.array read :: opened, .separator⟩
        ((tokensOfElements elements).flatMap (.comma :: ·)) =
      some ⟨.array (elements.reverse ++ read) :: opened, .separator⟩
  | [], read, opened => rfl
  | element :: rest, read, opened => by
      have helement := run_tokens element (.array read :: opened)
      have hrest := run_elements rest (element :: read) opened
      rw [tokensOfElements, List.flatMap_cons, List.cons_append, run_cons]
      simp only [Reading.step, Option.bind_some]
      rw [run_append, helement, supply_array, Option.bind_some, hrest, List.reverse_cons,
        List.append_assoc, List.singleton_append]

/-- Members behind commas are added to an open object. -/
theorem run_members : ∀ (members read : List (Option String × Source)) (opened : List Opened),
    run ⟨.object read :: opened, .separator⟩
        ((tokensOfMembers members).flatMap (.comma :: ·)) =
      some ⟨.object (members.reverse ++ read) :: opened, .separator⟩
  | [], read, opened => rfl
  | (name, value) :: rest, read, opened => by
      have hvalue := run_tokens value (.member read name :: opened)
      have hrest := run_members rest ((name, value) :: read) opened
      rw [tokensOfMembers, List.flatMap_cons, List.cons_append, run_cons]
      simp only [Reading.step, Option.bind_some]
      rw [List.cons_append, run_cons]
      simp only [Reading.step, Option.bind_some]
      rw [List.cons_append, run_cons]
      simp only [Reading.step, Option.bind_some]
      rw [run_append, hvalue, supply_member, Option.bind_some, hrest, List.reverse_cons,
        List.append_assoc, List.singleton_append]

end

/-- A tree is read from its tokens. -/
theorem ofTokens?_tokens (source : Source) : ofTokens? source.tokens = some source := by
  have hrun := run_tokens source []
  rw [run] at hrun
  rw [ofTokens?, hrun]
  rfl

/-- A text that is written as the tokens of a tree is read as the tree. -/
theorem ofText?_of_writes {text : String} {source : Source}
    (h : Writes text.toList source.tokens) : ofText? text = some source := by
  rw [ofText?, h.all?, Option.bind_some, ofTokens?_tokens]

end Source

end ArchDiagram.Json
