/-
# Documents that read back

Architectures that can be expressed are written, and what is written is read as
the same architectures. Every line without indentation names an architecture,
because what stands below a name is indented by at least one space. Main
statement: `parse_print`.
-/

import ArchDiagram.Proofs.Document.Blocks
import ArchDiagram.Proofs.Document.Parts

namespace ArchDiagram.Document

/-! ## Slices -/

variable {header : Line} {body rest : List Line}

theorem slices_append (h : ∀ line ∈ body, isHeader line = false) :
    slices (body ++ rest) = (body ++ (slices rest).1, (slices rest).2) := by
  induction body with
  | nil => rfl
  | cons line body ih =>
      rw [List.forall_mem_cons] at h
      rw [List.cons_append, slices_cons_of_not h.1, ih h.2]
      rfl

/-- If the first line names an architecture, a document is read slice by slice. -/
theorem ofLines_cons (h : isHeader header = true) (hne : rest ≠ []) :
    ofLines (header :: rest) =
      (architecturesOf (slices (header :: rest)).2).map Entries.collect := by
  have hheading : header.heading?.isSome := isSome_heading?_of_isHeader h
  rw [ofLines_eq_map hheading hne, parts_eq_of_header (by rintro _ ⟨⟩; exact h)]

/-! ## Architectures -/

variable {indent : ℕ} {name : String} {architecture : Architecture}

theorem levelWidth_pos (indent : ℕ) : 0 < levelWidth indent :=
  Nat.lt_of_lt_of_le Nat.one_pos (Nat.le_max_right indent 1)

theorem architecturePieces_eq (h : architecture.Expressible name) (indent : ℕ) :
    architecturePieces indent name architecture =
      .line 0 s!"{name}:" ::
        blockPieces (levelWidth indent) (levelWidth indent) architecture.entries := by
  rw [architecturePieces, if_neg (by simpa using h.entries_ne)]

theorem legible_architecturePieces (h : architecture.Expressible name) (indent : ℕ) :
    ∀ piece ∈ architecturePieces indent name architecture, piece.Legible := by
  rw [architecturePieces_eq h, List.forall_mem_cons]
  exact ⟨legible_header h.name 0, legible_blockPieces _ _ h.entries⟩

/-- An architecture is read from the lines of its block. -/
theorem architectureOf_of_rows (h : architecture.Expressible name)
    (hheader : header.heading? = some name.toList)
    (hbody : body.map Line.row = Piece.rows
      (blockPieces (levelWidth indent) (levelWidth indent) architecture.entries)) :
    architectureOf ⟨header, body⟩ = .ok (name, architecture) := by
  have hentries := entriesOfAll_blockPieces (levelWidth_pos indent) h.entries ⟨body, hbody, rfl⟩
  have hblock : blockOf body = .ok architecture.entries := by
    rw [blockOf, hentries]
    exact congrArg Except.ok (Entries.collect_eq_self h.entries.nodup)
  obtain ⟨first, others, hsome⟩ := List.exists_cons_of_ne_nil h.entries_ne
  obtain ⟨entries⟩ := architecture
  simp only at hsome hblock
  subst hsome
  simp only [architectureOf, hblock, hheader, Option.getD_some, String.ofList_toList]

/-- The lines of an architecture are a header and lines that are none. -/
theorem exists_slice (h : architecture.Expressible name) {lines : List Line}
    (hlines : lines.map Line.row = Piece.rows (architecturePieces indent name architecture)) :
    ∃ header body, lines = header :: body ∧ body ≠ [] ∧ isHeader header = true ∧
      (∀ line ∈ body, isHeader line = false) ∧
      architectureOf ⟨header, body⟩ = .ok (name, architecture) := by
  rw [architecturePieces_eq h, Piece.rows, if_neg (by rw [toList_header]; simp)] at hlines
  obtain ⟨header, body, rfl, hheader, hbody⟩ := List.map_eq_cons_iff.mp hlines
  obtain ⟨hindent, htext⟩ := Prod.mk.inj hheader
  rw [toList_header] at htext
  have hheading := Line.heading?_of_text htext h.name.trimmed
  have harchitecture := architectureOf_of_rows h hheading hbody
  refine ⟨header, body, rfl, ?_, by simp [isHeader, hheading, hindent], ?_, harchitecture⟩
  · rintro rfl
    simp [architectureOf, blockOf, Outline.ofLines, entriesOfAll, Entries.collect, Entries.putAll,
      Except.map] at harchitecture
  · intro line hline
    -- everything below the name is indented by a level
    have hle : levelWidth indent ≤ line.indent :=
      (hangs_blockPieces _ _ h.entries).le line.row (hbody ▸ List.mem_map_of_mem hline)
    have hpos := levelWidth_pos indent
    have hne : line.indent ≠ 0 := by omega
    simp [isHeader, hne]

/-- The pieces of architectures one after the other. -/
def allPieces (indent : ℕ) (architectures : Architectures) : List Piece :=
  architectures.flatMap fun entry => architecturePieces indent entry.1 entry.2

/-- Architectures are read from their slices. -/
theorem architecturesOf_slices {architectures : Architectures}
    (h : ∀ entry ∈ architectures, entry.2.Expressible entry.1) {lines : List Line}
    (hlines : lines.map Line.row = Piece.rows (allPieces indent architectures)) :
    (slices lines).1 = [] ∧ architecturesOf (slices lines).2 = .ok architectures := by
  induction architectures generalizing lines with
  | nil =>
      rw [List.map_eq_nil_iff.mp hlines]
      exact ⟨rfl, rfl⟩
  | cons entry others ih =>
      rw [List.forall_mem_cons] at h
      rw [allPieces, List.flatMap_cons, Piece.rows_append] at hlines
      obtain ⟨own, later, rfl, hown, hlater⟩ := List.map_eq_append_iff.mp hlines
      obtain ⟨header, body, rfl, -, hheader, hbody, harchitecture⟩ := exists_slice h.1 hown
      obtain ⟨hnone, hothers⟩ := ih h.2 hlater
      rw [List.cons_append, slices_cons hheader, slices_append hbody, hnone, List.append_nil]
      refine ⟨rfl, ?_⟩
      simp only [architecturesOf, harchitecture, hothers]
      rfl

/-! ## Documents -/

/-- The blank lines between architectures are not read. -/
theorem rows_intercalate (blocks : List (List Piece)) :
    Piece.rows ([Piece.line 0 ""].intercalate blocks) = Piece.rows blocks.flatten := by
  have hblank : Piece.rows [Piece.line 0 ""] = [] := by decide
  induction blocks with
  | nil => rfl
  | cons block rest ih =>
      cases rest with
      | nil => simp
      | cons next rest =>
          rw [List.intercalate_cons_cons, List.flatten_cons, Piece.rows_append, Piece.rows_append,
            Piece.rows_append, ih, hblank, List.append_nil]

theorem legible_intercalate {blocks : List (List Piece)}
    (h : ∀ block ∈ blocks, ∀ piece ∈ block, piece.Legible) :
    ∀ piece ∈ [Piece.line 0 ""].intercalate blocks, piece.Legible := by
  have hblank : ∀ piece ∈ [Piece.line 0 ""], piece.Legible := by
    rw [List.forall_mem_singleton]
    exact ⟨by decide, by decide⟩
  induction blocks with
  | nil => exact nofun
  | cons block rest ih =>
      rw [List.forall_mem_cons] at h
      cases rest with
      | nil => simpa using h.1
      | cons next rest =>
          rw [List.intercalate_cons_cons, List.forall_mem_append, List.forall_mem_append]
          exact ⟨⟨h.1, hblank⟩, ih h.2⟩

/-- Architectures that can be expressed are written as lines with the rows of their
pieces. -/
theorem exists_text_print (indent : ℕ) {architectures : Architectures}
    (h : architectures.Expressible) :
    ∃ text, (print indent architectures).text = .ok text ∧
      (Line.all text.toList).map Line.row = Piece.rows (allPieces indent architectures) := by
  have hlegible : ∀ block ∈ architectures.map fun entry =>
      architecturePieces indent entry.1 entry.2, ∀ piece ∈ block, piece.Legible := by
    intro block hblock
    obtain ⟨entry, hentry, rfl⟩ := List.mem_map.mp hblock
    exact legible_architecturePieces (h.each entry hentry) indent
  obtain ⟨text, htext, hrows⟩ := Piece.exists_text_assemble (legible_intercalate hlegible)
  refine ⟨text, htext, ?_⟩
  rw [Line.all, hrows, rows_intercalate, allPieces, List.flatMap_def]

/-- Lines with the rows of architectures are read as these. -/
theorem ofLines_of_rows {architectures : Architectures} (hne : architectures ≠ [])
    (h : architectures.Expressible) {lines : List Line}
    (hlines : lines.map Line.row = Piece.rows (allPieces indent architectures)) :
    ofLines lines = .ok architectures := by
  have hslices := (architecturesOf_slices h.each hlines).2
  -- the first line is a header and not the only line
  obtain ⟨entry, others, rfl⟩ := List.exists_cons_of_ne_nil hne
  have hfirst := h.each entry List.mem_cons_self
  rw [allPieces, List.flatMap_cons, Piece.rows_append] at hlines
  obtain ⟨own, later, rfl, hown, -⟩ := List.map_eq_append_iff.mp hlines
  obtain ⟨header, body, rfl, hbody, hheader, -⟩ := exists_slice hfirst hown
  rw [List.cons_append] at hslices ⊢
  rw [ofLines_cons hheader (by simp [hbody]), hslices]
  exact congrArg Except.ok (Entries.collect_eq_self h.nodup)

/-- Architectures that can be expressed are written, and what is written is read as
the same architectures in the same order. -/
theorem parse_print (indent : ℕ) {architectures : Architectures} (hne : architectures ≠ [])
    (h : architectures.Expressible) :
    ∃ text, (print indent architectures).text = .ok text ∧ parse text = .ok architectures := by
  obtain ⟨text, htext, hrows⟩ := exists_text_print indent h
  exact ⟨text, htext, ofLines_of_rows hne h hrows⟩

/-- Two architectures with entries of every kind that has a text. -/
def library : Architectures :=
  [("Overview", ⟨[
      ("references", .references [
        { title := "A \"quoted\" title", link := some "https://example.org", info := none,
          authors := ["First Author", "Second Author"], refType := some "book",
          others := [("note", .string "two\nlines")] }]),
      ("properties", .properties [
        ("width", .integer (-3)), ("ratio", .real (Binary64.ofRank false 4609434218613702656)),
        ("label", .text "12")]),
      ("reader", .nested [("source", .swap "file" (some [("cache", .default)]))]),
      ("writer", .default)]⟩),
    ("Detail", ⟨[("source", .swap "socket" none)]⟩)]

theorem parse_print_library : library ≠ [] ∧ library.Expressible ∧
    ∃ text, (print 2 library).text = .ok text ∧ parse text = .ok library :=
  ⟨List.cons_ne_nil _ _, by decide, parse_print 2 (List.cons_ne_nil _ _) (by decide)⟩

end ArchDiagram.Document
