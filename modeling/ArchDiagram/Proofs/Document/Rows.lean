/-
# Rows

What is read of a line is its indentation and its text, its row. Pieces without a
refusal are written as a text whose lines have the rows of the pieces, blank ones
left out. Of lines in a row, those that are not deeper than all lines before them
start a new outline.
-/

import ArchDiagram.Document.Outline
import ArchDiagram.Document.Printer
import ArchDiagram.Proofs.Text.Trimmed
import Mathlib.Data.List.TakeWhile

namespace ArchDiagram.Document

/-- The indentation and the text of a line. -/
abbrev Row := ℕ × List Char

/-- What is read of a line. -/
def Line.row (line : Line) : Row := (line.indent, line.text)

/-! ## Rows of pieces -/

namespace Piece

/-- The rows of the lines among some pieces that are not blank. -/
def rows : List Piece → List Row
  | [] => []
  | .line depth text :: rest =>
      if text.toList = [] then rows rest else (depth, text.toList) :: rows rest
  | .note _ :: rest | .refusal _ :: rest => rows rest

theorem rows_append (first second : List Piece) :
    rows (first ++ second) = rows first ++ rows second := by
  induction first with
  | nil => rfl
  | cons piece rest ih =>
      cases piece with
      | line depth text =>
          simp only [List.cons_append, rows, ih]
          split <;> rfl
      | note event => simpa only [List.cons_append, rows] using ih
      | refusal fault => simpa only [List.cons_append, rows] using ih

/-- A piece can be written, and a line of it is read as it is. -/
def Legible : Piece → Prop
  | .line _ text => Text.Trimmed text.toList ∧ '\n' ∉ text.toList
  | .note _ => True
  | .refusal _ => False

theorem toList_lineText_append (depth : ℕ) (text after : String) :
    (lineText depth text ++ after).toList =
      (List.replicate depth ' ' ++ text.toList) ++ '\n' :: after.toList := by
  simp [lineText]

/-- A trimmed line is read as its row, and not at all if it is blank. -/
theorem ofText?_indented (number depth : ℕ) {text : List Char} (h : Text.Trimmed text) :
    Line.ofText? number (List.replicate depth ' ' ++ text) =
      if text = [] then none else some ⟨number, depth, text⟩ := by
  rw [Line.ofText?, Text.trim_indented depth h]
  by_cases hne : text = []
  · simp [hne]
  · simp [hne, Text.trimEnd_indented depth h hne, Text.takeWhile_space_indented depth h]

/-- Legible pieces are written as lines that are read as their rows. -/
theorem exists_text_assemble {pieces : List Piece} (h : ∀ piece ∈ pieces, piece.Legible) :
    ∃ text, (assemble pieces).text = .ok text ∧
      ∀ number, (Line.listFrom number (Text.splitAll '\n' text.toList)).map Line.row =
        rows pieces := by
  induction pieces with
  | nil => exact ⟨"", rfl, fun _ => rfl⟩
  | cons piece rest ih =>
      obtain ⟨after, hafter, hrows⟩ := ih fun other hother => h other (List.mem_cons_of_mem _ hother)
      have hpiece := h piece List.mem_cons_self
      -- only a line adds to the text, and its end splits it off the rest
      cases piece with
      | line depth text =>
          obtain ⟨htrimmed, hline⟩ := hpiece
          refine ⟨lineText depth text ++ after, by simp [assemble, hafter, Except.map], fun number => ?_⟩
          have hbreak : '\n' ∉ List.replicate depth ' ' ++ text.toList := by
            rw [List.mem_append, not_or]
            exact ⟨fun hmem => absurd (List.eq_of_mem_replicate hmem) (by decide), hline⟩
          rw [toList_lineText_append, Text.splitAll_append_cons hbreak, Line.listFrom,
            ofText?_indented number depth htrimmed, rows]
          split
          · exact hrows (number + 1)
          · simp only [Option.toList_some, List.singleton_append, List.map_cons, hrows, Line.row]
      | note event => exact ⟨after, hafter, hrows⟩
      | refusal fault => exact hpiece.elim

end Piece

/-! ## Outlines of lines -/

/-- No line is deeper than the lines before it if it follows a line and all that this one owns. -/
theorem Line.cut_of_block {header : Line} {block tail : List Line}
    (hblock : ∀ l ∈ block, header.indent < l.indent)
    (htail : ∀ next ∈ tail.head?, next.indent ≤ header.indent) :
    ∀ l ∈ header :: block, ∀ next ∈ tail.head?, next.indent ≤ l.indent := by
  intro l hl next hnext
  rcases List.mem_cons.mp hl with rfl | hl
  · exact htail next hnext
  · exact (htail next hnext).trans (hblock l hl).le

namespace Outline

variable {lines : List Line}

theorem head?_ofLines (lines : List Line) : (ofLines lines).head?.map line = lines.head? := by
  cases lines with
  | nil => rfl
  | cons first rest => rfl

theorem line_mem_flattenAll {outline : Outline} {outlines : List Outline}
    (h : outline ∈ outlines) : outline.line ∈ flattenAll outlines := by
  induction outlines with
  | nil => exact absurd h List.not_mem_nil
  | cons first rest ih =>
      rw [flattenAll, List.mem_append]
      rcases List.mem_cons.mp h with rfl | h
      · obtain ⟨line, children⟩ := outline
        exact Or.inl List.mem_cons_self
      · exact Or.inr (ih h)

/-- Lines start outlines of their own if the first of them is not deeper than any line
before. -/
theorem ofLines_append {rest : List Line}
    (h : ∀ l ∈ lines, ∀ next ∈ rest.head?, next.indent ≤ l.indent) :
    ofLines (lines ++ rest) = ofLines lines ++ ofLines rest := by
  induction lines with
  | nil => rfl
  | cons first lines ih =>
      -- what a line before owns ends at the first outline of the rest
      have hstop : ∀ outline ∈ (ofLines rest).head?, deeper first outline = false := by
        intro outline houtline
        have hnext : outline.line ∈ rest.head? := by
          rw [← head?_ofLines, Option.mem_def.mp houtline]
          rfl
        have hle := h first List.mem_cons_self _ hnext
        simpa [deeper] using hle
      rw [List.cons_append, ofLines, ih fun l hl => h l (List.mem_cons_of_mem _ hl), ofLines, cons,
        cons, Text.takeWhile_append_of_head _ hstop,
        Text.dropWhile_append_of_head _ hstop, List.cons_append]

/-- A line owns all lines after it if they are deeper. -/
theorem ofLines_cons_of_deeper {header : Line} (h : ∀ l ∈ lines, header.indent < l.indent) :
    ofLines (header :: lines) = [node header (ofLines lines)] := by
  have hdeeper : ∀ outline ∈ ofLines lines, deeper header outline = true := by
    intro outline houtline
    have hline : outline.line ∈ lines := by
      rw [← flattenAll_ofLines lines]
      exact line_mem_flattenAll houtline
    simpa [deeper] using h _ hline
  rw [ofLines, cons, List.takeWhile_eq_self_iff.mpr hdeeper,
    List.dropWhile_eq_nil_iff.mpr hdeeper]

/-- Lines cut at the line after those that the first one owns. -/
theorem ofLines_cons_append {header : Line} {block tail : List Line}
    (hblock : ∀ l ∈ block, header.indent < l.indent)
    (htail : ∀ next ∈ tail.head?, next.indent ≤ header.indent) :
    ofLines (header :: (block ++ tail)) = node header (ofLines block) :: ofLines tail := by
  rw [← List.cons_append, ofLines_append (Line.cut_of_block hblock htail),
    ofLines_cons_of_deeper hblock, List.singleton_append]

end Outline

/-- Induction along what lines own: a line comes with the deeper lines after it and with the
lines from there on. -/
theorem Line.block_induction {motive : List Line → Prop} (nil : motive [])
    (cons : ∀ header block tail, (∀ l ∈ block, header.indent < l.indent) →
      (∀ next ∈ tail.head?, next.indent ≤ header.indent) → motive block → motive tail →
      motive (header :: (block ++ tail)))
    (lines : List Line) : motive lines := by
  induction hlength : lines.length using Nat.strong_induction_on generalizing lines with
  | _ n ih =>
      cases lines with
      | nil => exact nil
      | cons header rest =>
          rw [List.length_cons] at hlength
          set deeper : Line → Bool := fun l => header.indent < l.indent
          have hblock := (List.takeWhile_sublist deeper (l := rest)).length_le
          have htail := (List.dropWhile_sublist deeper (l := rest)).length_le
          rw [← List.takeWhile_append_dropWhile (p := deeper) (l := rest)]
          refine cons header _ _ (fun l hl => ?_) (fun next hnext => ?_)
            (ih _ (by omega) _ rfl) (ih _ (by omega) _ rfl)
          · simpa [deeper] using List.mem_takeWhile_imp hl
          · have hnot := List.head?_dropWhile_not deeper rest
            rw [Option.mem_def.mp hnext] at hnot
            simpa [deeper] using hnot

/-! ## Readings of outlines -/

theorem exists_of_map_eq_ok {ε α β : Type} {f : α → β} {result : Except ε α} {b : β}
    (h : result.map f = .ok b) : ∃ a, result = .ok a ∧ f a = b := by
  cases result with
  | error fault => cases h
  | ok a => exact ⟨a, rfl, Except.ok.inj h⟩

theorem exists_of_bind_eq_ok {ε α β : Type} {f : α → Except ε β} {result : Except ε α} {b : β}
    (h : result.bind f = .ok b) : ∃ a, result = .ok a ∧ f a = .ok b := by
  cases result with
  | error fault => cases h
  | ok a => exact ⟨a, rfl, h⟩

theorem eq_error_of_map_eq_error {ε α β : Type} {f : α → β} {result : Except ε α} {fault : ε}
    (h : result.map f = .error fault) : result = .error fault := by
  cases result with
  | error other => exact congrArg Except.error (Except.error.inj h)
  | ok a => cases h

/-- Outlines are read one by one, and what they give is put together. -/
structure Reading {ε β : Type} (one : Outline → Except ε (List β))
    (all : List Outline → Except ε (List β)) : Prop where
  nil : all [] = .ok []
  cons : ∀ outline rest,
    all (outline :: rest) = (one outline).bind fun first => (all rest).map (first ++ ·)

namespace Reading

variable {ε β : Type} {one : Outline → Except ε (List β)} {all : List Outline → Except ε (List β)}
  {outline : Outline} {rest : List Outline}

/-- What is read of an outline and others is what is read of it and what is read of them. -/
theorem exists_of_cons (h : Reading one all) {results : List β}
    (hall : all (outline :: rest) = .ok results) :
    ∃ first others, one outline = .ok first ∧ all rest = .ok others ∧ results = first ++ others := by
  rw [h.cons] at hall
  cases hfirst : one outline with
  | error fault =>
      rw [hfirst] at hall
      cases hall
  | ok first =>
      rw [hfirst] at hall
      cases hothers : all rest with
      | error fault =>
          simp only [Except.bind, hothers, Except.map] at hall
          cases hall
      | ok others =>
          simp only [Except.bind, hothers, Except.map] at hall
          exact ⟨first, others, rfl, rfl, (Except.ok.inj hall).symm⟩

/-- An outline and others cannot be read because of it or because of them. -/
theorem error_of_cons (h : Reading one all) {fault : ε}
    (hall : all (outline :: rest) = .error fault) :
    one outline = .error fault ∨ all rest = .error fault := by
  rw [h.cons] at hall
  cases hfirst : one outline with
  | error other =>
      rw [hfirst] at hall
      exact Or.inl hall
  | ok first =>
      rw [hfirst] at hall
      exact Or.inr (eq_error_of_map_eq_error hall)

theorem singleton (h : Reading one all) {results : List β} (hone : one outline = .ok results) :
    all [outline] = .ok results := by
  rw [h.cons, hone, h.nil]
  exact congrArg Except.ok (List.append_nil results)

theorem append (h : Reading one all) {first second : List Outline} {before after : List β}
    (hfirst : all first = .ok before) (hsecond : all second = .ok after) :
    all (first ++ second) = .ok (before ++ after) := by
  induction first generalizing before with
  | nil =>
      rw [h.nil] at hfirst
      obtain rfl := Except.ok.inj hfirst
      exact hsecond
  | cons outline rest ih =>
      obtain ⟨own, others, hown, hothers, rfl⟩ := h.exists_of_cons hfirst
      rw [List.cons_append, h.cons, hown]
      simp only [Except.bind, ih hothers, Except.map, List.append_assoc]

end Reading

/-! ## Outlines of pieces -/

/-- Some outlines are what is read of some pieces: they are made of lines with their
rows. -/
def ReadAs (pieces : List Piece) (outlines : List Outline) : Prop :=
  ∃ lines : List Line, lines.map Line.row = Piece.rows pieces ∧ outlines = Outline.ofLines lines

/-- No row of some pieces is indented less than the first one, which is at a depth. -/
structure Hangs (depth : ℕ) (pieces : List Piece) : Prop where
  le : ∀ row ∈ Piece.rows pieces, depth ≤ row.1
  first : ∀ row ∈ (Piece.rows pieces).head?, row.1 = depth

namespace Hangs

variable {depth : ℕ} {first second pieces : List Piece}

theorem nil : Hangs depth [] := ⟨nofun, nofun⟩

theorem of_level (h : ∀ row ∈ Piece.rows pieces, row.1 = depth) : Hangs depth pieces :=
  ⟨fun row hrow => (h row hrow).ge, fun row hrow => h row (List.mem_of_mem_head? hrow)⟩

theorem append (hfirst : Hangs depth first) (hsecond : Hangs depth second) :
    Hangs depth (first ++ second) := by
  constructor
  · intro row hrow
    rw [Piece.rows_append, List.mem_append] at hrow
    exact hrow.elim (hfirst.le row) (hsecond.le row)
  · intro row hrow
    rw [Piece.rows_append] at hrow
    cases hrows : Piece.rows first with
    | nil => exact hsecond.first row (by rwa [hrows] at hrow)
    | cons other rest =>
        rw [hrows] at hrow
        exact hfirst.first row (by rwa [hrows])

theorem cons {text : String} {width : ℕ} (h : Hangs (depth + width) pieces)
    (hne : text.toList ≠ []) : Hangs depth (.line depth text :: pieces) := by
  have hrows : Piece.rows (.line depth text :: pieces) =
      (depth, text.toList) :: Piece.rows pieces := if_neg hne
  constructor
  · intro row hrow
    rw [hrows] at hrow
    rcases List.mem_cons.mp hrow with rfl | hrow
    · exact le_rfl
    · exact (Nat.le_add_right _ _).trans (h.le row hrow)
  · rw [hrows]
    rintro _ ⟨⟩
    rfl

end Hangs

namespace ReadAs

variable {depth : ℕ} {first second pieces : List Piece} {outlines : List Outline}

theorem nil (h : ReadAs [] outlines) : outlines = [] := by
  obtain ⟨lines, hlines, rfl⟩ := h
  rw [List.map_eq_nil_iff.mp hlines]
  rfl

theorem flattenAll (h : ReadAs pieces outlines) :
    (Outline.flattenAll outlines).map Line.row = Piece.rows pieces := by
  obtain ⟨lines, hlines, rfl⟩ := h
  rw [Outline.flattenAll_ofLines, hlines]

/-- Pieces at one depth are read apart. -/
theorem append (h : ReadAs (first ++ second) outlines) (hfirst : Hangs depth first)
    (hsecond : Hangs depth second) :
    ∃ before after, outlines = before ++ after ∧ ReadAs first before ∧ ReadAs second after := by
  obtain ⟨lines, hlines, rfl⟩ := h
  rw [Piece.rows_append] at hlines
  obtain ⟨before, after, rfl, hbefore, hafter⟩ := List.map_eq_append_iff.mp hlines
  have hdepth : ∀ l ∈ before, ∀ next ∈ after.head?, next.indent ≤ l.indent := by
    intro l hl next hnext
    have hle : depth ≤ l.indent := hfirst.le _ (hbefore ▸ List.mem_map_of_mem hl)
    -- the rest starts where all of the pieces hang
    have heq : next.indent = depth := by
      apply hsecond.first next.row
      rw [← hafter, List.head?_map, Option.mem_def.mp hnext]
      rfl
    omega
  exact ⟨_, _, Outline.ofLines_append hdepth, ⟨before, hbefore, rfl⟩, ⟨after, hafter, rfl⟩⟩

/-- A line owns the pieces below it. -/
theorem cons {text : String} {width : ℕ} (h : ReadAs (.line depth text :: pieces) outlines)
    (hne : text.toList ≠ []) (hwidth : 0 < width) (hpieces : Hangs (depth + width) pieces) :
    ∃ header children, outlines = [.node header children] ∧ header.indent = depth ∧
      header.text = text.toList ∧ ReadAs pieces children := by
  obtain ⟨lines, hlines, rfl⟩ := h
  rw [Piece.rows, if_neg hne] at hlines
  obtain ⟨header, below, rfl, hheader, hbelow⟩ := List.map_eq_cons_iff.mp hlines
  obtain ⟨hindent, htext⟩ := Prod.mk.inj hheader
  have hdeeper : ∀ l ∈ below, header.indent < l.indent := by
    intro l hl
    have hle : depth + width ≤ l.indent := hpieces.le _ (hbelow ▸ List.mem_map_of_mem hl)
    omega
  exact ⟨header, _, Outline.ofLines_cons_of_deeper hdeeper, hindent, htext, ⟨below, hbelow, rfl⟩⟩

/-- A line with nothing below it is read apart from the pieces after it. -/
theorem leaf {text : String} (h : ReadAs (.line depth text :: pieces) outlines)
    (hne : text.toList ≠ []) (hpieces : Hangs depth pieces) :
    ∃ line rest, outlines = .node line [] :: rest ∧ line.text = text.toList ∧
      ReadAs pieces rest := by
  have hnothing : Hangs (depth + 1) [] := Hangs.nil
  have hline : Hangs depth [.line depth text] := hnothing.cons hne
  obtain ⟨before, rest, rfl, hbefore, hrest⟩ := append h hline hpieces
  obtain ⟨line, children, rfl, -, htext, hchildren⟩ := cons hbefore hne Nat.one_pos hnothing
  exact ⟨line, rest, by rw [hchildren.nil]; rfl, htext, hrest⟩

end ReadAs

end ArchDiagram.Document
