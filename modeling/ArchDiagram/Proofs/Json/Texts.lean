/-
# Values read back from their texts

The text of a value, on one line or with a line for every part, is written as the tokens
of one tree (`Json.source`). So it is read as what this tree stands for, and that is the
value itself except for its numbers: each of them becomes what its own text is read as
(`Json.reread?`). Only a value that is nested too deep is not read at all
(`read?_of_writes`).
-/

import ArchDiagram.Proofs.Json.Trees

namespace ArchDiagram.Json

/-! ## The tree of a value -/

mutual

/-- The tree a value is written as. -/
def source : Json → Source
  | .null => .null
  | .bool value => .bool value
  | .integer value => .number (Numeral.ofInt value)
  | .real value => if value.isInfinite then .null else .number (Numeral.ofReal value)
  | .string value => .string (some value)
  | .array elements => .array (sourceOfElements elements)
  | .object members => .object (sourceOfMembers members)

/-- The trees of the elements of an array. -/
def sourceOfElements : List Json → List Source
  | [] => []
  | element :: rest => element.source :: sourceOfElements rest

/-- The trees of the members of an object. -/
def sourceOfMembers : List (String × Json) → List (Option String × Source)
  | [] => []
  | (name, value) :: rest => (some name, value.source) :: sourceOfMembers rest

end

theorem writes_scalarText_real (x : Binary64) :
    Writes (scalarText (.real x)).toList (source (.real x)).tokens := by
  rw [source]
  split
  · rename_i hinfinite
    rw [scalarText, realText, if_pos hinfinite]
    exact writes_null
  · rename_i hfinite
    exact writes_real (by simpa using hfinite)

mutual

/-- The text of a value on one line is written as the tokens of its tree. -/
theorem writes_compact : ∀ value : Json, Writes value.compact.toList value.source.tokens
  | .null => writes_null
  | .bool value => writes_bool value
  | .integer value => writes_integer value
  | .real value => writes_scalarText_real value
  | .string value => writes_string value
  | .array elements => by
      have hparts := writes_compactElements elements
      have hclose := Writes.nil.closeArray
      simp only [compact, String.toList_append, String.toList_intercalate]
      exact (Writes.intercalate hparts (ends_cons (by decide) _) hclose).openArray
  | .object members => by
      have hparts := writes_compactMembers members
      have hclose := Writes.nil.closeObject
      simp only [compact, String.toList_append, String.toList_intercalate]
      exact (Writes.intercalate hparts (ends_cons (by decide) _) hclose).openObject

theorem writes_compactElements : ∀ elements : List Json,
    List.Forall₂ Writes ((compactElements elements).map String.toList)
      (Source.tokensOfElements (sourceOfElements elements))
  | [] => .nil
  | element :: rest => .cons (writes_compact element) (writes_compactElements rest)

theorem writes_compactMembers : ∀ members : List (String × Json),
    List.Forall₂ Writes ((compactMembers members).map String.toList)
      (Source.tokensOfMembers (sourceOfMembers members))
  | [] => .nil
  | (name, value) :: rest => by
      refine .cons ?_ (writes_compactMembers rest)
      rw [String.toList_append, String.toList_append, List.append_assoc]
      exact (writes_string name).append (ends_cons (by decide) _) (writes_compact value).colon

end

/-! ## A line for every part -/

theorem isBlank_lineStart (depth : ℕ) : ∀ c ∈ (lineStart depth).toList, Token.isBlank c = true := by
  intro c hc
  rw [lineStart, String.toList_append, String.toList_ofList, List.mem_append] at hc
  rcases hc with hc | hc
  · obtain rfl : c = '\n' := by simpa using hc
    rfl
  · rw [String.toList_ofList] at hc
    rw [List.eq_of_mem_replicate hc]
    rfl

theorem ends_lineStart (depth : ℕ) : Ends (lineStart depth).toList := by
  rw [lineStart, String.toList_append]
  exact ends_cons (by decide) _

/-- Parts in brackets, each on a line of its own, are written as the parts without lines. -/
theorem writes_block (opening closing : String) {opens closes : Token}
    (hopen : ∀ {text tokens}, Writes text tokens →
      Writes (opening.toList ++ text) (opens :: tokens))
    (hclose : Writes closing.toList [closes]) (hends : Ends closing.toList) (depth : ℕ)
    {parts : List String} {written : List (List Token)}
    (hparts : List.Forall₂ Writes (parts.map String.toList) written) :
    Writes (block opening closing depth parts).toList
      (opens :: ([Token.comma].intercalate written ++ [closes])) := by
  have hlast := hclose.blanks (isBlank_lineStart depth)
  cases parts with
  | nil =>
      cases hparts
      rw [block, String.toList_append]
      exact hopen hclose
  | cons first rest =>
      have hlines : List.Forall₂ Writes
          (((first :: rest).map (lineStart (depth + 1) ++ ·)).map String.toList) written := by
        rw [List.map_map, List.forall₂_map_left_iff]
        refine (List.forall₂_map_left_iff.mp hparts).imp fun part tokens hpart => ?_
        rw [Function.comp_apply, String.toList_append]
        exact hpart.blanks (isBlank_lineStart (depth + 1))
      simp only [block, String.toList_append, String.toList_intercalate, List.append_assoc]
      exact hopen (Writes.intercalate hlines ((ends_lineStart depth).append hends) hlast)

mutual

/-- The text of a value with a line for every part is written as the tokens of its tree. -/
theorem writes_indented : ∀ (depth : ℕ) (value : Json),
    Writes (value.indented depth).toList value.source.tokens
  | _, .null => writes_null
  | _, .bool value => writes_bool value
  | _, .integer value => writes_integer value
  | _, .real value => writes_scalarText_real value
  | _, .string value => writes_string value
  | depth, .array elements =>
      writes_block "[" "]" .openArray Writes.nil.closeArray (ends_cons (by decide) _) depth
        (writes_indentedElements (depth + 1) elements)
  | depth, .object members =>
      writes_block "\x7b" "\x7d" .openObject Writes.nil.closeObject
        (ends_cons (by decide) _) depth (writes_indentedMembers (depth + 1) members)

theorem writes_indentedElements : ∀ (depth : ℕ) (elements : List Json),
    List.Forall₂ Writes ((indentedElements depth elements).map String.toList)
      (Source.tokensOfElements (sourceOfElements elements))
  | _, [] => .nil
  | depth, element :: rest =>
      .cons (writes_indented depth element) (writes_indentedElements depth rest)

theorem writes_indentedMembers : ∀ (depth : ℕ) (members : List (String × Json)),
    List.Forall₂ Writes ((indentedMembers depth members).map String.toList)
      (Source.tokensOfMembers (sourceOfMembers members))
  | _, [] => .nil
  | depth, (name, value) :: rest => by
      refine .cons ?_ (writes_indentedMembers depth rest)
      have hvalue := ((writes_indented depth value).blank (c := ' ') rfl).colon
      rw [String.toList_append, String.toList_append, List.append_assoc]
      exact (writes_string name).append (ends_cons (by decide) _) hvalue

end

/-- So is the text with a line break behind it. -/
theorem writes_pretty_append (value : Json) :
    Writes (value.pretty ++ "\n").toList value.source.tokens := by
  have hbreak : Writes ['\n'] [] := Writes.nil.blank rfl
  have htext := (writes_indented 0 value).append (ends_cons (by decide) _) hbreak
  rwa [List.append_nil, ← String.toList_singleton, ← String.toList_append] at htext

/-! ## What is read of a value -/

mutual

/-- How many brackets deep a value is nested. -/
def depth : Json → ℕ
  | .array elements => depthOfElements elements + 1
  | .object members => depthOfMembers members + 1
  | .null | .bool _ | .integer _ | .real _ | .string _ => 0

/-- The depth of the deepest element. -/
def depthOfElements : List Json → ℕ
  | [] => 0
  | element :: rest => max element.depth (depthOfElements rest)

/-- The depth of the deepest member. -/
def depthOfMembers : List (String × Json) → ℕ
  | [] => 0
  | (_, value) :: rest => max value.depth (depthOfMembers rest)

end

mutual

/-- A value in which every number is what its own text is read as. -/
def reread? : Json → Option Json
  | .null => some .null
  | .bool value => some (.bool value)
  | .integer value => read? .whole (scalarText (.integer value))
  | .real value => read? .whole (scalarText (.real value))
  | .string value => some (.string value)
  | .array elements => (rereadElements? elements).map .array
  | .object members => (rereadMembers? members).map .object

/-- Elements in which every number is what its own text is read as. -/
def rereadElements? : List Json → Option (List Json)
  | [] => some []
  | element :: rest =>
      element.reread?.bind fun read => (rereadElements? rest).map (read :: ·)

/-- Members in which every number is what its own text is read as. -/
def rereadMembers? : List (String × Json) → Option (List (String × Json))
  | [] => some []
  | (name, value) :: rest =>
      value.reread?.bind fun read => (rereadMembers? rest).map ((name, read) :: ·)

end

/-- A text is read as its tree is looked at. -/
theorem read?_of_writes_source {text : String} {source : Source}
    (h : Writes text.toList source.tokens) (interest : Interest) :
    read? interest text = source.focus? interest depthLimit := by
  rw [read?, Source.ofText?_of_writes h, Option.bind_some]

theorem focus?_source_integer (value : ℤ) (depth : ℕ) :
    (source (.integer value)).focus? .whole depth = reread? (.integer value) := by
  have hwrites : Writes (scalarText (.integer value)).toList (source (.integer value)).tokens :=
    writes_integer value
  rw [reread?, read?_of_writes_source hwrites]
  rfl

theorem focus?_source_real (x : Binary64) (depth : ℕ) :
    (source (.real x)).focus? .whole depth = reread? (.real x) := by
  rw [reread?, read?_of_writes_source (writes_scalarText_real x), source]
  split <;> rfl

mutual

/-- The tree of a value is the value with its numbers read again, unless it is nested too
deep. -/
theorem focus?_source : ∀ (value : Json) (limit : ℕ),
    value.source.focus? .whole limit = if value.depth ≤ limit then value.reread? else none
  | .null, _ | .bool _, _ | .string _, _ => rfl
  | .integer value, limit => focus?_source_integer value limit
  | .real value, limit => focus?_source_real value limit
  | .array elements, 0 => rfl
  | .array elements, limit + 1 => by
      rw [source, Source.focus?, focusElements?_source elements limit 0]
      simp only [depth, Nat.succ_le_succ_iff, reread?]
      split <;> rfl
  | .object members, 0 => rfl
  | .object members, limit + 1 => by
      rw [source, Source.focus?, focusMembers?_source members limit]
      simp only [depth, Nat.succ_le_succ_iff, reread?]
      split <;> rfl

theorem focusElements?_source : ∀ (elements : List Json) (limit index : ℕ),
    Source.focusElements? .whole limit index (sourceOfElements elements) =
      if depthOfElements elements ≤ limit then rereadElements? elements else none
  | [], _, _ => rfl
  | element :: rest, limit, index => by
      rw [sourceOfElements, Source.focusElements?, Interest.element, focus?_source element limit,
        focusElements?_source rest limit (index + 1)]
      simp only [depthOfElements, max_le_iff, rereadElements?]
      by_cases hfirst : element.depth ≤ limit <;> by_cases hrest : depthOfElements rest ≤ limit <;>
        cases element.reread? <;> cases rereadElements? rest <;> simp [hfirst, hrest]

theorem focusMembers?_source : ∀ (members : List (String × Json)) (limit : ℕ),
    Source.focusMembers? .whole limit (sourceOfMembers members) =
      if depthOfMembers members ≤ limit then rereadMembers? members else none
  | [], _ => rfl
  | (name, value) :: rest, limit => by
      rw [sourceOfMembers, Source.focusMembers?, Interest.member?]
      simp only [focus?_source value limit, focusMembers?_source rest limit]
      simp only [depthOfMembers, max_le_iff, rereadMembers?]
      by_cases hfirst : value.depth ≤ limit <;> by_cases hrest : depthOfMembers rest ≤ limit <;>
        cases value.reread? <;> cases rereadMembers? rest <;> simp [hfirst, hrest]

end

/-- What is read of a text that is written as the tree of a value. -/
theorem read?_of_writes {text : String} {value : Json}
    (h : Writes text.toList value.source.tokens) :
    read? .whole text = if value.depth ≤ depthLimit then value.reread? else none := by
  rw [read?_of_writes_source h, focus?_source]

/-- A whole number of 64 bits is read back from its text. -/
theorem reread?_integer {value : ℤ} (h : Property.fits value = true) :
    reread? (.integer value) = some (.integer value) := by
  rw [← focus?_source_integer value 0]
  exact Numeral.value?_ofInt h

/-- A number whose numeral is exact is read back from its text. -/
theorem reread?_real_of_exact {x : Binary64} (hfinite : x.isInfinite = false)
    (h : (Numeral.ofReal x).Exact) : reread? (.real x) = some (.real x) := by
  obtain ⟨-, hspells⟩ := Numeral.ofReal_spec hfinite
  have hvalue := Numeral.value?_of_exact h hspells.no_integer
  rw [hspells.nearest] at hvalue
  rw [← focus?_source_real x 0, source, if_neg (by simp [hfinite])]
  exact hvalue

/-- There is no numeral for infinity. -/
theorem reread?_of_isInfinite {x : Binary64} (h : x.isInfinite = true) :
    reread? (.real x) = some .null := by
  rw [← focus?_source_real x 0, source, if_pos h]
  rfl

/-- A real number is read as another one or not at all, never as a whole number. -/
theorem exists_real_of_reread? {x : Binary64} (hfinite : x.isInfinite = false) {value : Json}
    (h : reread? (.real x) = some value) : ∃ y, value = .real y := by
  rw [← focus?_source_real x 0, source, if_neg (by simp [hfinite])] at h
  exact Numeral.exists_real_of_value? (Numeral.ofReal_spec hfinite).2.no_integer h

end ArchDiagram.Json
