/-
# Faults and their lines

A document that cannot be read is refused with the number of a line and with what stands there.
The number is that of the line in the text, blank lines counted, and what the fault says of the
line is so: a line without a name heads the document, an architecture without entries is followed
by the next header or by nothing, and a malformed line lies in a section that is open at it. A
section ends at the first line that is not deeper than the one it starts with, and a line within
one starts no other. Main statement: `exists_line_of_parse`.
-/

import ArchDiagram.Proofs.Document.Blocks
import ArchDiagram.Proofs.Document.Indentation
import ArchDiagram.Proofs.Document.Parts

namespace ArchDiagram.Document

variable {lines block tail earlier : List Line} {line header : Line} {text : List Char} {fault : Fault}

/-! ## Sections among lines -/

/-- A line with the text that starts a section. -/
def Line.IsSection (line : Line) : Prop :=
  line.text = "references:".toList ∨ line.text = "properties:".toList

/-- One of some lines starts a section, and what comes after it is deeper, up to and including
the line that follows them. -/
def SectionOpen (earlier : List Line) (line : Line) : Prop :=
  ∃ before opener between, earlier = before ++ opener :: between ∧ opener.IsSection ∧
    ∀ l ∈ between ++ [line], opener.indent < l.indent

/-- A line lies in a section that a line of the given text starts. -/
def LiesIn (text : List Char) (lines : List Line) (line : Line) : Prop :=
  ∃ earlier opener between later, lines = earlier ++ opener :: (between ++ line :: later) ∧
    opener.text = text ∧ (∀ l ∈ between ++ [line], opener.indent < l.indent) ∧
      ¬ SectionOpen earlier opener

theorem not_sectionOpen_nil : ¬ SectionOpen [] line := by
  rintro ⟨before, opener, between, hlines, -⟩
  exact List.append_ne_nil_of_right_ne_nil _ (List.cons_ne_nil _ _) hlines.symm

/-- Sections that are closed before the later lines do not count at their end. -/
theorem SectionOpen.of_append
    (hclosed : ∀ l ∈ block, l.IsSection → ∃ next ∈ earlier ++ [line], next.indent ≤ l.indent)
    (h : SectionOpen (block ++ earlier) line) : SectionOpen earlier line := by
  induction block with
  | nil => exact h
  | cons first block ih =>
      rw [List.forall_mem_cons] at hclosed
      obtain ⟨before, opener, between, hlines, hsection, hdeeper⟩ := h
      rw [List.cons_append, eq_comm, List.append_eq_cons_iff] at hlines
      rcases hlines with ⟨-, hrest⟩ | ⟨before, -, hrest⟩
      · -- the first line would have to be open, but a line after it is not deeper
        obtain ⟨rfl, rfl⟩ := List.cons.inj hrest
        obtain ⟨next, hnext, hle⟩ := hclosed.1 hsection
        rw [List.append_assoc] at hdeeper
        exact absurd (hdeeper next (List.mem_append_right block hnext)) hle.not_gt
      · exact ih hclosed.2 ⟨before, opener, between, hrest, hsection, hdeeper⟩

namespace LiesIn

theorem mem (h : LiesIn text lines line) : line ∈ lines := by
  obtain ⟨earlier, opener, between, later, rfl, -⟩ := h
  simp

theorem append_right (h : LiesIn text lines line) (tail : List Line) :
    LiesIn text (lines ++ tail) line := by
  obtain ⟨earlier, opener, between, later, rfl, htext, hdeeper, hopen⟩ := h
  exact ⟨earlier, opener, between, later ++ tail, by simp, htext, hdeeper, hopen⟩

theorem append_left (hcut : ∀ l ∈ block, l.IsSection → ∀ next ∈ lines.head?, next.indent ≤ l.indent)
    (h : LiesIn text lines line) : LiesIn text (block ++ lines) line := by
  obtain ⟨earlier, opener, between, later, rfl, htext, hdeeper, hopen⟩ := h
  refine ⟨block ++ earlier, opener, between, later, by simp, htext, hdeeper, fun hblock => ?_⟩
  refine hopen (hblock.of_append fun l hl hsection => ?_)
  -- the next line after those before is one of the earlier ones or the opener itself
  cases earlier with
  | nil => exact ⟨opener, List.mem_singleton_self opener, hcut l hl hsection opener rfl⟩
  | cons next earlier => exact ⟨next, List.mem_cons_self, hcut l hl hsection next rfl⟩

/-- What a line owns lies in its section. -/
theorem of_mem_block (hblock : ∀ l ∈ block, header.indent < l.indent) (h : line ∈ block) :
    LiesIn header.text (header :: block) line := by
  obtain ⟨between, later, rfl⟩ := List.append_of_mem h
  refine ⟨[], header, between, later, rfl, rfl, fun l hl => hblock l ?_, not_sectionOpen_nil⟩
  rcases List.mem_append.mp hl with hl | hl
  · exact List.mem_append_left _ hl
  · rw [List.mem_singleton.mp hl]
    exact h

end LiesIn

/-! ## Faults in sections -/

/-- A fault is in a line of a section, and says what stands there. -/
inductive Fault.InSection (lines : List Line) : Fault → Line → Prop
  | reference {line : Line} : LiesIn "references:".toList lines line →
      InSection lines (.malformedReference line.number line.string) line
  | property {line : Line} : LiesIn "properties:".toList lines line →
      InSection lines (.malformedProperty line.number line.string) line

theorem Fault.InSection.append_right (h : fault.InSection lines line) (tail : List Line) :
    fault.InSection (lines ++ tail) line := by
  cases h with
  | reference hlies => exact .reference (hlies.append_right tail)
  | property hlies => exact .property (hlies.append_right tail)

theorem Fault.InSection.append_left
    (hcut : ∀ l ∈ block, l.IsSection → ∀ next ∈ lines.head?, next.indent ≤ l.indent)
    (h : fault.InSection lines line) : fault.InSection (block ++ lines) line := by
  cases h with
  | reference hlies => exact .reference (hlies.append_left hcut)
  | property hlies => exact .property (hlies.append_left hcut)

theorem exists_of_propertiesOfLines_eq_error (h : propertiesOfLines lines = .error fault) :
    ∃ line ∈ lines, fault = .malformedProperty line.number line.string := by
  induction lines with
  | nil => cases h
  | cons line rest ih =>
      rw [propertiesOfLines, propertyOfLine] at h
      cases hpair : line.pair? with
      | none =>
          simp only [hpair] at h
          exact ⟨line, List.mem_cons_self, (Except.error.inj h).symm⟩
      | some pair =>
          simp only [hpair] at h
          obtain ⟨later, hlater, hfault⟩ := ih (eq_error_of_map_eq_error h)
          exact ⟨later, List.mem_cons_of_mem _ hlater, hfault⟩

mutual

theorem exists_of_membersOf_eq_error : ∀ {outline : Outline} {fault : Fault},
    membersOf outline = .error fault →
    ∃ line ∈ Outline.flatten outline, fault = .malformedReference line.number line.string
  | .node line children, fault, h => by
      rw [Outline.flatten]
      rw [membersOf] at h
      cases hpair : line.pair? with
      | none =>
          simp only [hpair] at h
          exact ⟨line, List.mem_cons_self, (Except.error.inj h).symm⟩
      | some pair =>
          obtain ⟨name, value⟩ := pair
          simp only [hpair] at h
          -- only the lines of an author or of a plain value are read on as members
          have hchildren : membersOfAll children = .error fault := by
            split at h
            · exact eq_error_of_map_eq_error h
            · cases h
            · exact eq_error_of_map_eq_error h
            · cases h
          obtain ⟨below, hbelow, hfault⟩ := exists_of_membersOfAll_eq_error hchildren
          exact ⟨below, List.mem_cons_of_mem _ hbelow, hfault⟩

theorem exists_of_membersOfAll_eq_error : ∀ {outlines : List Outline} {fault : Fault},
    membersOfAll outlines = .error fault →
    ∃ line ∈ Outline.flattenAll outlines, fault = .malformedReference line.number line.string
  | [], _, h => by cases h
  | outline :: rest, fault, h => by
      rw [Outline.flattenAll]
      rcases reading_membersOf.error_of_cons h with hfirst | hrest
      · obtain ⟨line, hline, hfault⟩ := exists_of_membersOf_eq_error hfirst
        exact ⟨line, List.mem_append_left _ hline, hfault⟩
      · obtain ⟨line, hline, hfault⟩ := exists_of_membersOfAll_eq_error hrest
        exact ⟨line, List.mem_append_right _ hline, hfault⟩

end

theorem exists_of_referencesAt_eq_error {depth : ℕ} {outlines : List Outline}
    (h : referencesAt depth outlines = .error fault) :
    ∃ line ∈ Outline.flattenAll outlines, fault = .malformedReference line.number line.string := by
  induction outlines with
  | nil => cases h
  | cons outline rest ih =>
      obtain ⟨line, children⟩ := outline
      rw [Outline.flattenAll, Outline.flatten]
      rw [referencesAt] at h
      split at h
      · exact ⟨line, List.mem_cons_self, (Except.error.inj h).symm⟩
      · split at h
        · rename_i hmembers
          obtain rfl := Except.error.inj h
          obtain ⟨below, hbelow, hfault⟩ := exists_of_membersOfAll_eq_error hmembers
          exact ⟨below, List.mem_append_left _ (List.mem_cons_of_mem _ hbelow), hfault⟩
        · obtain ⟨later, hlater, hfault⟩ := ih (eq_error_of_map_eq_error h)
          exact ⟨later, List.mem_append_right _ hlater, hfault⟩

theorem exists_of_referencesOf_eq_error {children : List Outline}
    (h : referencesOf children = .error fault) :
    ∃ line ∈ Outline.flattenAll children, fault = .malformedReference line.number line.string := by
  cases children with
  | nil => cases h
  | cons first rest => exact exists_of_referencesAt_eq_error h

/-- An outline cannot be read because of its section or because of the lines below it. -/
theorem cases_of_entriesOf_eq_error {children : List Outline}
    (h : entriesOf (.node line children) = .error fault) :
    line.text = "references:".toList ∧ referencesOf children = .error fault ∨
      line.text = "properties:".toList ∧ propertiesOf children = .error fault ∨
      ¬ line.IsSection ∧ entriesOfAll children = .error fault := by
  rw [entriesOf] at h
  by_cases hreferences : line.text = "references:".toList
  · rw [Heading.ofLine, if_pos hreferences] at h
    exact .inl ⟨hreferences, eq_error_of_map_eq_error h⟩
  by_cases hproperties : line.text = "properties:".toList
  · rw [Heading.ofLine, if_neg hreferences, if_pos hproperties] at h
    exact .inr (.inl ⟨hproperties, eq_error_of_map_eq_error h⟩)
  refine .inr (.inr ⟨not_or.mpr ⟨hreferences, hproperties⟩, ?_⟩)
  rw [Heading.ofLine_of_ne hreferences hproperties] at h
  cases hheading : line.heading? with
  | some name =>
      simp only [hheading] at h
      exact eq_error_of_map_eq_error h
  | none =>
      cases hpair : line.pair? with
      | some parts =>
          simp only [hheading, hpair] at h
          exact eq_error_of_map_eq_error h
      | none =>
          simp only [hheading, hpair] at h
          exact eq_error_of_map_eq_error h

/-- Lines that cannot be read have a fault in one of their sections. -/
theorem exists_inSection (h : entriesOfAll (Outline.ofLines lines) = .error fault) :
    ∃ line, fault.InSection lines line := by
  induction lines using Line.block_induction with
  | nil => cases h
  | cons header block tail hblock htail ihblock ihtail =>
      rw [Outline.ofLines_cons_append hblock htail] at h
      rcases reading_entriesOf.error_of_cons h with hfirst | hrest
      · rcases cases_of_entriesOf_eq_error hfirst with ⟨htext, hlisted⟩ | ⟨htext, hlisted⟩ |
          ⟨hsection, hinner⟩
        · -- all lines that the header owns are lines of its section
          obtain ⟨line, hline, rfl⟩ := exists_of_referencesOf_eq_error hlisted
          rw [Outline.flattenAll_ofLines] at hline
          have hlies := LiesIn.of_mem_block hblock hline
          rw [htext] at hlies
          exact ⟨line, .reference (hlies.append_right tail)⟩
        · obtain ⟨line, hline, rfl⟩ :=
            exists_of_propertiesOfLines_eq_error (eq_error_of_map_eq_error hlisted)
          rw [Outline.flattenAll_ofLines] at hline
          have hlies := LiesIn.of_mem_block hblock hline
          rw [htext] at hlies
          exact ⟨line, .property (hlies.append_right tail)⟩
        · -- a header that starts no section leaves those below it as they are
          obtain ⟨line, hline⟩ := ihblock hinner
          have hcut : ∀ l ∈ [header], l.IsSection → ∀ next ∈ block.head?, next.indent ≤ l.indent :=
            List.forall_mem_singleton.mpr fun hheader => absurd hheader hsection
          exact ⟨line, (hline.append_left hcut).append_right tail⟩
      · -- no section of the lines before is open any more
        obtain ⟨line, hline⟩ := ihtail hrest
        exact ⟨line, hline.append_left fun l hl _ => Line.cut_of_block hblock htail l hl⟩

/-! ## Faults in documents -/

/-- Only a block without lines has no entries. -/
theorem eq_nil_of_entriesOfAll (h : entriesOfAll (Outline.ofLines lines) = .ok []) : lines = [] := by
  by_contra hne
  obtain ⟨first, rest, rfl⟩ := List.exists_cons_of_ne_nil hne
  exact ne_nil_of_entriesOfAll (List.cons_ne_nil _ _) h rfl

/-- An architecture cannot be read because of a section or because it has no lines. -/
theorem cases_of_architectureOf_eq_error {slice : Slice} (h : architectureOf slice = .error fault) :
    (∃ line, fault.InSection slice.lines line) ∨
      slice.lines = [] ∧
        fault = .emptyArchitecture slice.header.number
          (String.ofList (slice.header.heading?.getD [])) := by
  rw [architectureOf] at h
  split at h
  · rename_i hblock
    obtain rfl := Except.error.inj h
    exact .inl (exists_inSection (eq_error_of_map_eq_error hblock))
  · rename_i hblock
    obtain ⟨pairs, hpairs, hempty⟩ := exists_of_map_eq_ok hblock
    obtain rfl : pairs = [] := by_contra fun hne => Entries.collect_ne_nil hne hempty
    exact .inr ⟨eq_nil_of_entriesOfAll hpairs, (Except.error.inj h).symm⟩
  · cases h

/-- A fault is in one of some lines, and is what is wrong there. -/
inductive Fault.PointsAt (lines : List Line) : Fault → Line → Prop
  /-- The first line does not end in a colon. -/
  | missingHeader {first : Line} {rest : List Line} : lines = first :: rest →
      first.text.getLast? ≠ some ':' →
      PointsAt lines (.missingHeader first.number first.string) first
  /-- What comes after a line with a name and a colon is a header, or there is nothing. -/
  | emptyArchitecture {before after : List Line} {header : Line} {name : List Char} :
      lines = before ++ header :: after → header.text = name ++ [':'] →
      (∀ next ∈ after.head?, next.indent = 0 ∧ next.text.getLast? = some ':') →
      PointsAt lines (.emptyArchitecture header.number (String.ofList (Text.trim name))) header
  /-- A line lies in a section of an architecture. -/
  | inSection {slice : Slice} {fault : Fault} {line : Line} : slice ∈ parts lines →
      fault.InSection slice.lines line → PointsAt lines fault line

namespace Fault.PointsAt

theorem mem (h : fault.PointsAt lines line) : line ∈ lines := by
  cases h with
  | missingHeader hlines =>
      rw [hlines]
      exact List.mem_cons_self
  | emptyArchitecture hlines =>
      rw [hlines]
      exact List.mem_append_right _ List.mem_cons_self
  | inSection hslice hsection =>
      apply mem_of_mem_parts hslice
      cases hsection with
      | reference hlies | property hlies => exact List.mem_cons_of_mem _ hlies.mem

theorem line?_eq (h : fault.PointsAt lines line) : fault.line? = some line.number := by
  cases h with
  | missingHeader | emptyArchitecture => rfl
  | inSection hslice hsection => cases hsection <;> rfl

end Fault.PointsAt

/-- If a document cannot be read, and not for having no two lines, there is a line to point
at. -/
theorem exists_pointsAt (h : ofLines lines = .error fault) (hline : fault.line?.isSome) :
    ∃ line, fault.PointsAt lines line := by
  rcases lines with _ | ⟨first, rest⟩
  · obtain rfl := Except.error.inj h
    cases hline
  rcases eq_or_ne rest [] with rfl | hne
  · obtain rfl := Except.error.inj h
    cases hline
  by_cases hheading : first.heading?.isSome
  · rw [ofLines_eq_map hheading hne] at h
    obtain ⟨slice, hslice, hfault⟩ := exists_slice_of_eq_error (eq_error_of_map_eq_error h)
    rcases cases_of_architectureOf_eq_error hfault with ⟨line, hline⟩ | ⟨hlines, rfl⟩
    · exact ⟨line, .inSection hslice hline⟩
    · have hname := isSome_heading?_of_mem_parts (by rintro _ ⟨⟩; exact hheading) hslice
      obtain ⟨name, hname⟩ := Option.isSome_iff_exists.mp hname
      obtain ⟨written, htext, rfl⟩ := Line.exists_of_heading? hname
      obtain ⟨before, after, hparts, hnext⟩ := exists_of_mem_parts hslice
      rw [hlines, List.nil_append] at hparts
      rw [hname]
      exact ⟨slice.header, .emptyArchitecture hparts htext fun next hmem =>
        isHeader_iff.mp (hnext next hmem)⟩
  · rw [ofLines_eq_error hheading hne] at h
    obtain rfl := Except.error.inj h
    refine ⟨first, .missingHeader rfl fun hlast => hheading ?_⟩
    rw [Line.heading?, if_pos hlast]
    rfl

/-- A line comes from the piece of its number. -/
theorem Line.exists_of_mem_listFrom {pieces : List (List Char)} {start : ℕ}
    (h : line ∈ listFrom start pieces) :
    ∃ offset written, pieces[offset]? = some written ∧
      ofText? (start + offset) written = some line := by
  induction pieces generalizing start with
  | nil => exact absurd h List.not_mem_nil
  | cons piece rest ih =>
      rw [listFrom, List.mem_append] at h
      rcases h with hfirst | hrest
      · exact ⟨0, piece, rfl, Option.mem_toList.mp hfirst⟩
      · obtain ⟨offset, written, hwritten, hline⟩ := ih hrest
        refine ⟨offset + 1, written, hwritten, ?_⟩
        rw [← hline, Nat.add_assoc, Nat.add_comm 1]

/-- The number of a fault is that of a line of the text, counted from one, and the fault points
at this line. -/
theorem exists_line_of_parse {text : String} {fault : Fault} {number : ℕ}
    (hread : parse text = .error fault) (hnumber : fault.line? = some number) :
    ∃ index written line, number = index + 1 ∧
      (Text.splitAll '\n' text.toList)[index]? = some written ∧
        line.number = number ∧ line.text = Text.trim written ∧
          fault.PointsAt (Line.all text.toList) line := by
  obtain ⟨line, hpoints⟩ := exists_pointsAt hread (Option.isSome_of_eq_some hnumber)
  obtain rfl : line.number = number := Option.some.inj (hpoints.line?_eq.symm.trans hnumber)
  obtain ⟨index, written, hwritten, hline⟩ := Line.exists_of_mem_listFrom hpoints.mem
  obtain ⟨hstart, htext, -⟩ := Line.spec_ofText? hline
  exact ⟨index, written, line, by rw [hstart, Nat.add_comm], hwritten, rfl, htext, hpoints⟩

/-- A document with a quoted value that goes on in later lines, one of them blank. -/
def strayText : String :=
  "\nhall:\n references:\n  \"a\":\n   info: \"b\"\n    properties:\n\n    c\n   authors:\n" ++
    "    d\n   e\n"

/-- The stray line is the eleventh, and the section it lies in is that of the references. -/
theorem parse_strayText :
    parse strayText = .error (.malformedReference 11 "e") ∧
      Fault.line? (.malformedReference 11 "e") = some 11 ∧
      ∃ index written line, 11 = index + 1 ∧
        (Text.splitAll '\n' strayText.toList)[index]? = some written ∧
          line.number = 11 ∧ line.text = Text.trim written ∧
            Fault.PointsAt (Line.all strayText.toList) (.malformedReference 11 "e") line := by
  have hread : parse strayText = .error (.malformedReference 11 "e") := by decide +kernel
  have hnumber : Fault.line? (.malformedReference 11 "e") = some 11 := rfl
  exact ⟨hread, hnumber, exists_line_of_parse hread hnumber⟩

end ArchDiagram.Document
