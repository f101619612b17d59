/-
# The width of an indentation

Reading compares the indentations of lines with each other, and looks at nothing
else of them but whether there is one. So the lines of a document may be moved:
where deeper lines stay deeper and lines without indentation stay without, the
document is read as before, or it is refused for the same fault in the same line.
Each part of reading is shown to commute with giving the lines other numbers and
other indentations. Main statement: `parse_reindented`.
-/

import ArchDiagram.Document
import Mathlib.Data.List.Nodup
import Mathlib.Order.Monotone.Basic

namespace ArchDiagram.Document

/-! ## Other numbers and indentations -/

/-- The fault at a line of another number. -/
def Fault.renumber (number : ℕ → ℕ) : Fault → Fault
  | .missingHeader line found => .missingHeader (number line) found
  | .emptyArchitecture line name => .emptyArchitecture (number line) name
  | .malformedReference line found => .malformedReference (number line) found
  | .malformedProperty line found => .malformedProperty (number line) found
  | .empty => .empty
  | .noContents => .noContents
  | .unwritable fault => .unwritable fault

/-- The number of the line a fault is found in. -/
def Fault.line? : Fault → Option ℕ
  | .missingHeader line _ | .emptyArchitecture line _ | .malformedReference line _
  | .malformedProperty line _ => some line
  | .empty | .noContents | .unwritable _ => none

namespace Fault

variable {fault : Fault}

theorem line?_renumber (number : ℕ → ℕ) (fault : Fault) :
    (fault.renumber number).line? = fault.line?.map number := by
  cases fault <;> rfl

theorem renumber_of_line?_eq_none {number : ℕ → ℕ} (h : fault.line? = none) :
    fault.renumber number = fault := by
  cases fault with
  | empty | noContents | unwritable => rfl
  | missingHeader | emptyArchitecture | malformedReference | malformedProperty => cases h

/-- Only the number of its own line counts for a fault. -/
theorem renumber_of_line?_eq_some {number : ℕ → ℕ} {line : ℕ} (h : fault.line? = some line) :
    fault.renumber number = fault.renumber fun _ => number line := by
  cases fault with
  | empty | noContents | unwritable => cases h
  | missingHeader | emptyArchitecture | malformedReference | malformedProperty =>
      obtain rfl := Option.some.inj h
      rfl

end Fault

/-- The line with another number and another indentation. -/
def Line.relabel (number indent : ℕ → ℕ) (line : Line) : Line :=
  ⟨number line.number, indent line.indent, line.text⟩

/-- The slice with other numbers and indentations of its lines. -/
def Slice.relabel (number indent : ℕ → ℕ) (slice : Slice) : Slice :=
  ⟨slice.header.relabel number indent, slice.lines.map (Line.relabel number indent)⟩

namespace Outline

mutual

/-- The outline with other numbers and indentations of its lines. -/
def relabel (number indent : ℕ → ℕ) : Outline → Outline
  | node line children => node (line.relabel number indent) (relabelAll number indent children)

/-- Some outlines with other numbers and indentations of their lines. -/
def relabelAll (number indent : ℕ → ℕ) : List Outline → List Outline
  | [] => []
  | outline :: rest => relabel number indent outline :: relabelAll number indent rest

end

end Outline

section

variable {number indent : ℕ → ℕ}

namespace Line

variable (line : Line)

@[simp]
theorem heading?_relabel : (line.relabel number indent).heading? = line.heading? := rfl

@[simp]
theorem pair?_relabel : (line.relabel number indent).pair? = line.pair? := rfl

@[simp]
theorem string_relabel : (line.relabel number indent).string = line.string := rfl

@[simp]
theorem ofLine_relabel : Heading.ofLine (line.relabel number indent) = Heading.ofLine line := rfl

end Line

/-! ## Outlines -/

namespace Outline

theorem relabelAll_eq_map (outlines : List Outline) :
    relabelAll number indent outlines = outlines.map (relabel number indent) := by
  induction outlines with
  | nil => rfl
  | cons outline rest ih => rw [relabelAll, ih, List.map_cons]

theorem line_relabel (outline : Outline) :
    (outline.relabel number indent).line = outline.line.relabel number indent := by
  obtain ⟨line, children⟩ := outline
  rfl

theorem deeper_relabel (hindent : StrictMono indent) (line : Line) (outline : Outline) :
    deeper (line.relabel number indent) (outline.relabel number indent) = deeper line outline := by
  rw [deeper, line_relabel]
  exact decide_eq_decide.mpr hindent.lt_iff_lt

/-- A line owns the same lines after it if deeper lines stay deeper. -/
theorem ofLines_relabel (hindent : StrictMono indent) (lines : List Line) :
    ofLines (lines.map (Line.relabel number indent)) = relabelAll number indent (ofLines lines) := by
  induction lines with
  | nil => rfl
  | cons line rest ih =>
      have hdeeper : deeper (line.relabel number indent) ∘ relabel number indent = deeper line :=
        funext (deeper_relabel hindent line)
      rw [List.map_cons, ofLines, ih, ofLines, cons, cons, relabelAll, relabel, relabelAll_eq_map,
        List.takeWhile_map, List.dropWhile_map, hdeeper, relabelAll_eq_map, relabelAll_eq_map]

mutual

theorem flatten_relabel : ∀ outline : Outline,
    flatten (relabel number indent outline) =
      (flatten outline).map (Line.relabel number indent)
  | node line children => by
      rw [relabel, flatten, flatten, flattenAll_relabelAll, List.map_cons]

theorem flattenAll_relabelAll : ∀ outlines : List Outline,
    flattenAll (relabelAll number indent outlines) =
      (flattenAll outlines).map (Line.relabel number indent)
  | [] => rfl
  | outline :: rest => by
      rw [relabelAll, flattenAll, flattenAll, flatten_relabel, flattenAll_relabelAll,
        List.map_append]

end

end Outline

/-! ## Sections -/

theorem mapError_map {ε ε' α β : Type} (f : α → β) (g : ε → ε') (result : Except ε α) :
    (result.map f).mapError g = (result.mapError g).map f := by
  cases result <;> rfl

theorem propertiesOfLines_relabel (lines : List Line) :
    propertiesOfLines (lines.map (Line.relabel number indent)) =
      (propertiesOfLines lines).mapError (Fault.renumber number) := by
  induction lines with
  | nil => rfl
  | cons line rest ih =>
      rw [List.map_cons, propertiesOfLines, propertiesOfLines, propertyOfLine, propertyOfLine,
        Line.pair?_relabel, Line.string_relabel]
      cases line.pair? with
      | none => rfl
      | some pair => rw [ih, mapError_map]

theorem propertiesOf_relabelAll (children : List Outline) :
    propertiesOf (Outline.relabelAll number indent children) =
      (propertiesOf children).mapError (Fault.renumber number) := by
  rw [propertiesOf, Outline.flattenAll_relabelAll, propertiesOfLines_relabel, propertiesOf,
    mapError_map]

mutual

theorem membersOf_relabel : ∀ outline : Outline,
    membersOf (outline.relabel number indent) =
      (membersOf outline).mapError (Fault.renumber number)
  | .node line children => by
      have htexts : (Outline.flattenAll (Outline.relabelAll number indent children)).map
          Line.string = (Outline.flattenAll children).map Line.string := by
        rw [Outline.flattenAll_relabelAll, List.map_map]
        rfl
      have hbelow (inner : List Char) :
          continued inner (Outline.flattenAll (Outline.relabelAll number indent children)) =
            continued inner (Outline.flattenAll children) := by
        rw [Outline.flattenAll_relabelAll, continued, continued, List.flatMap_map]
        rfl
      rw [Outline.relabel, membersOf, membersOf, Line.pair?_relabel, Line.string_relabel,
        membersOfAll_relabelAll children, htexts]
      cases line.pair? with
      | none => rfl
      | some pair =>
          simp only
          cases MemberForm.ofPair pair.1 pair.2 with
          | author author => exact (mapError_map _ _ _).symm
          | authorsBelow => rfl
          | plain name value => exact (mapError_map _ _ _).symm
          | quoted name inner => simp only [hbelow]; rfl

theorem membersOfAll_relabelAll : ∀ outlines : List Outline,
    membersOfAll (Outline.relabelAll number indent outlines) =
      (membersOfAll outlines).mapError (Fault.renumber number)
  | [] => rfl
  | outline :: rest => by
      rw [Outline.relabelAll, membersOfAll, membersOfAll, membersOf_relabel outline,
        membersOfAll_relabelAll rest]
      cases membersOf outline with
      | error fault => rfl
      | ok first => exact (mapError_map _ _ _).symm

end

theorem title?_relabel (hindent : StrictMono indent) (depth : ℕ) (line : Line) :
    title? (indent depth) (line.relabel number indent) = title? depth line := by
  rw [title?, title?, Line.heading?_relabel]
  exact if_congr hindent.injective.eq_iff rfl rfl

theorem referencesAt_relabelAll (hindent : StrictMono indent) (depth : ℕ)
    (outlines : List Outline) :
    referencesAt (indent depth) (Outline.relabelAll number indent outlines) =
      (referencesAt depth outlines).mapError (Fault.renumber number) := by
  induction outlines with
  | nil => rfl
  | cons outline rest ih =>
      obtain ⟨line, children⟩ := outline
      rw [Outline.relabelAll, Outline.relabel, referencesAt, referencesAt, title?_relabel hindent,
        Line.string_relabel, membersOfAll_relabelAll, ih]
      cases title? depth line with
      | none => rfl
      | some title =>
          cases membersOfAll children with
          | error fault => rfl
          | ok members => exact (mapError_map _ _ _).symm

theorem referencesOf_relabelAll (hindent : StrictMono indent) (children : List Outline) :
    referencesOf (Outline.relabelAll number indent children) =
      (referencesOf children).mapError (Fault.renumber number) := by
  cases children with
  | nil => rfl
  | cons first rest =>
      -- the titles are where the first one is, and that is moved with them
      have hdepth : (first.relabel number indent).line.indent = indent first.line.indent := by
        rw [Outline.line_relabel]
        rfl
      rw [Outline.relabelAll, referencesOf, hdepth, ← Outline.relabelAll,
        referencesAt_relabelAll hindent, referencesOf]

/-! ## Blocks -/

mutual

theorem entriesOf_relabel (hindent : StrictMono indent) : ∀ outline : Outline,
    entriesOf (outline.relabel number indent) =
      (entriesOf outline).mapError (Fault.renumber number)
  | .node line children => by
      have hempty : (Outline.relabelAll number indent children).isEmpty = children.isEmpty := by
        cases children <;> rfl
      rw [Outline.relabel, entriesOf, entriesOf, Line.ofLine_relabel,
        entriesOfAll_relabelAll hindent children, hempty, referencesOf_relabelAll hindent,
        propertiesOf_relabelAll]
      cases Heading.ofLine line <;> exact (mapError_map _ _ _).symm

theorem entriesOfAll_relabelAll (hindent : StrictMono indent) : ∀ outlines : List Outline,
    entriesOfAll (Outline.relabelAll number indent outlines) =
      (entriesOfAll outlines).mapError (Fault.renumber number)
  | [] => rfl
  | outline :: rest => by
      rw [Outline.relabelAll, entriesOfAll, entriesOfAll, entriesOf_relabel hindent outline,
        entriesOfAll_relabelAll hindent rest]
      cases entriesOf outline with
      | error fault => rfl
      | ok first => exact (mapError_map _ _ _).symm

end

theorem blockOf_relabel (hindent : StrictMono indent) (lines : List Line) :
    blockOf (lines.map (Line.relabel number indent)) =
      (blockOf lines).mapError (Fault.renumber number) := by
  rw [blockOf, Outline.ofLines_relabel hindent, entriesOfAll_relabelAll hindent, blockOf,
    mapError_map]

/-! ## Documents -/

theorem isHeader_relabel (hindent : StrictMono indent) (hzero : indent 0 = 0) (line : Line) :
    isHeader (line.relabel number indent) = isHeader line := by
  have hlevel : (indent line.indent == 0) = (line.indent == 0) := by
    rw [Bool.eq_iff_iff, beq_iff_eq, beq_iff_eq]
    exact ⟨fun h => hindent.injective (h.trans hzero.symm), fun h => by rw [h, hzero]⟩
  exact congrArg (line.heading?.isSome && ·) hlevel

theorem slices_relabel (hindent : StrictMono indent) (hzero : indent 0 = 0) (lines : List Line) :
    slices (lines.map (Line.relabel number indent)) =
      ((slices lines).1.map (Line.relabel number indent),
        (slices lines).2.map (Slice.relabel number indent)) := by
  induction lines with
  | nil => rfl
  | cons line rest ih =>
      rw [List.map_cons, slices, slices, ih]
      simp only [isHeader_relabel hindent hzero]
      split <;> rfl

theorem architectureOf_relabel (hindent : StrictMono indent) (slice : Slice) :
    architectureOf (slice.relabel number indent) =
      (architectureOf slice).mapError (Fault.renumber number) := by
  rw [architectureOf, architectureOf, Slice.relabel, blockOf_relabel hindent,
    Line.heading?_relabel]
  cases blockOf slice.lines with
  | error fault => rfl
  | ok entries => cases entries <;> rfl

theorem architecturesOf_relabel (hindent : StrictMono indent) (found : List Slice) :
    architecturesOf (found.map (Slice.relabel number indent)) =
      (architecturesOf found).mapError (Fault.renumber number) := by
  induction found with
  | nil => rfl
  | cons slice rest ih =>
      rw [List.map_cons, architecturesOf, architecturesOf, architectureOf_relabel hindent, ih]
      cases architectureOf slice with
      | error fault => rfl
      | ok architecture => exact (mapError_map _ _ _).symm

/-- Lines with other numbers and indentations are read as the same, or there is the
same fault at the other number. -/
theorem ofLines_relabel (hindent : StrictMono indent) (hzero : indent 0 = 0)
    (lines : List Line) :
    ofLines (lines.map (Line.relabel number indent)) =
      (ofLines lines).mapError (Fault.renumber number) := by
  match lines with
  | [] => rfl
  | [_] => rfl
  | first :: second :: rest =>
      rw [List.map_cons, List.map_cons, ofLines, ofLines, Line.heading?_relabel, ← List.map_cons,
        slices_relabel hindent hzero]
      split
      · exact (congrArg _ (architecturesOf_relabel hindent
          (⟨first, (slices (second :: rest)).1⟩ :: (slices (second :: rest)).2))).trans
            (mapError_map _ _ _).symm
      · rfl
      all_goals exact nofun

end

/-! ## Lines that correspond -/

/-- A line that has been moved: its text is the same, and its indentation is the one
that has been given to that of the other line. -/
structure Line.MovedTo (indent : ℕ → ℕ) (line moved : Line) : Prop where
  text : moved.text = line.text
  indent : moved.indent = indent line.indent

instance (indent : ℕ → ℕ) (line moved : Line) : Decidable (line.MovedTo indent moved) :=
  decidable_of_iff (moved.text = line.text ∧ moved.indent = indent line.indent)
    ⟨fun h => ⟨h.1, h.2⟩, fun h => ⟨h.1, h.2⟩⟩

/-- The same fault, in lines that correspond to each other. -/
inductive Fault.MovedTo (lines : List (Line × Line)) (fault : Fault) : Fault → Prop
  | nowhere : fault.line? = none → MovedTo lines fault fault
  | line {pair : Line × Line} : pair ∈ lines → fault.line? = some pair.1.number →
      MovedTo lines fault (fault.renumber fun _ => pair.2.number)

/-- Numbers for the lines of a list: each line is given the number of its partner. -/
def Renumbers (number : ℕ → ℕ) (lines : List (Line × Line)) : Prop :=
  ∀ pair ∈ lines, number pair.1.number = pair.2.number

/-- If a fault becomes the same under all numbers that fit some lines, it is in one of
these lines. -/
theorem Fault.movedTo_of_forall {lines : List (Line × Line)} {fault moved : Fault}
    (hexists : ∃ number, Renumbers number lines)
    (hmoved : ∀ number, Renumbers number lines → fault.renumber number = moved) :
    fault.MovedTo lines moved := by
  obtain ⟨number, hnumber⟩ := hexists
  rw [← hmoved number hnumber]
  cases hline : fault.line? with
  | none =>
      rw [renumber_of_line?_eq_none hline]
      exact .nowhere hline
  | some line =>
      -- if no line had the number, it could be given another one, and the fault would differ
      have hmem : ∃ pair ∈ lines, pair.1.number = line := by
        by_contra hnone
        have hother : Renumbers (Function.update number line (number line + 1)) lines := by
          intro pair hpair
          have hne : pair.1.number ≠ line := fun heq => hnone ⟨pair, hpair, heq⟩
          rw [Function.update_of_ne hne]
          exact hnumber pair hpair
        have heq := congrArg line? ((hmoved _ hother).trans (hmoved number hnumber).symm)
        rw [line?_renumber, line?_renumber, hline, Option.map_some, Option.map_some,
          Function.update_self] at heq
        exact Nat.succ_ne_self _ (Option.some.inj heq)
      obtain ⟨pair, hpair, rfl⟩ := hmem
      rw [renumber_of_line?_eq_some hline, hnumber pair hpair]
      exact .line hpair hline

/-- The lines of a text are numbered upwards. -/
theorem Line.pairwise_number_listFrom (pieces : List (List Char)) (start : ℕ) :
    (∀ line ∈ listFrom start pieces, start ≤ line.number) ∧
      (listFrom start pieces).Pairwise fun line later => line.number < later.number := by
  induction pieces generalizing start with
  | nil => exact ⟨nofun, List.Pairwise.nil⟩
  | cons piece rest ih =>
      obtain ⟨hle, hpairwise⟩ := ih (start + 1)
      have hfirst : ∀ line ∈ ofText? start piece, line.number = start := fun line hline =>
        (spec_ofText? hline).1
      simp only [listFrom, List.mem_append, Option.mem_toList, List.pairwise_append]
      refine ⟨?_, ?_, hpairwise, fun line hline later hlater => ?_⟩
      · rintro line (hline | hline)
        · exact (hfirst line hline).ge
        · exact Nat.le_of_succ_le (hle line hline)
      · cases ofText? start piece <;> simp
      · rw [hfirst line hline]
        exact hle later hlater

/-- Lines with different numbers can be given any numbers. -/
theorem exists_renumbers {lines : List Line} (moved : List Line)
    (hlines : lines.Pairwise fun line later => line.number < later.number) :
    ∃ number, Renumbers number (lines.zip moved) := by
  induction lines generalizing moved with
  | nil => exact ⟨id, by simp [Renumbers]⟩
  | cons line rest ih =>
      obtain ⟨hlater, hrest⟩ := List.pairwise_cons.mp hlines
      cases moved with
      | nil => exact ⟨id, by simp [Renumbers]⟩
      | cons other others =>
          obtain ⟨number, hnumber⟩ := ih others hrest
          refine ⟨Function.update number line.number other.number, fun pair hpair => ?_⟩
          rw [List.zip_cons_cons, List.mem_cons] at hpair
          rcases hpair with rfl | hpair
          · exact Function.update_self ..
          · have hne := (hlater pair.1 (List.of_mem_zip hpair).1).ne'
            rw [Function.update_of_ne hne]
            exact hnumber pair hpair

theorem map_relabel_of_renumbers {indent number : ℕ → ℕ} {lines moved : List Line}
    (hlines : List.Forall₂ (Line.MovedTo indent) lines moved)
    (hnumber : Renumbers number (lines.zip moved)) :
    lines.map (Line.relabel number indent) = moved := by
  induction hlines with
  | nil => rfl
  | @cons line other rest others hline _ ih =>
      rw [Renumbers, List.zip_cons_cons, List.forall_mem_cons] at hnumber
      obtain ⟨hfirst, hrest⟩ := hnumber
      rw [List.map_cons, ih hrest, Line.relabel, hfirst, ← hline.indent, ← hline.text]

/-- Two documents of the same lines, indented otherwise but in the same order of depths,
are read as the same, or both are refused for the same fault in the same line. -/
theorem parse_reindented {indent : ℕ → ℕ} (hindent : StrictMono indent) (hzero : indent 0 = 0)
    {text other : String}
    (hlines : List.Forall₂ (Line.MovedTo indent) (Line.all text.toList) (Line.all other.toList)) :
    (∃ architectures, parse text = .ok architectures ∧ parse other = .ok architectures) ∨
      ∃ fault moved, parse text = .error fault ∧ parse other = .error moved ∧
        fault.MovedTo ((Line.all text.toList).zip (Line.all other.toList)) moved := by
  have hparse : ∀ number, Renumbers number ((Line.all text.toList).zip (Line.all other.toList)) →
      parse other = (parse text).mapError (Fault.renumber number) := by
    intro number hnumber
    rw [parse, parse, ← ofLines_relabel hindent hzero, map_relabel_of_renumbers hlines hnumber]
  have hexists : ∃ number,
      Renumbers number ((Line.all text.toList).zip (Line.all other.toList)) :=
    exists_renumbers _ (Line.pairwise_number_listFrom _ 1).2
  obtain ⟨number, hnumber⟩ := hexists
  cases htext : parse text with
  | ok architectures =>
      refine Or.inl ⟨architectures, rfl, ?_⟩
      rw [hparse number hnumber, htext]
      rfl
  | error fault =>
      refine Or.inr ⟨fault, fault.renumber number, rfl, ?_, ?_⟩
      · rw [hparse number hnumber, htext]
        rfl
      · refine Fault.movedTo_of_forall ⟨number, hnumber⟩ fun number' hnumber' => ?_
        have heq := (hparse number' hnumber').symm.trans (hparse number hnumber)
        rw [htext] at heq
        exact Except.error.inj heq

/-- A document with a line among the properties that has no colon. -/
def narrowText : String :=
  "a:\n references:\n  b:\n   link: \"c\"\n    d\n e: f\n  properties:\n   g\n"

/-- The same lines between blank ones and with other indentations and ends. -/
def wideText : String :=
  "\r\na: \n references:\n\n    b:\r\n         link: \"c\"\n                d\n" ++
    "\n e: f\n    properties:\t\n         g"

/-- The fault is in the eighth line of the one document and in the eleventh of the other. -/
theorem parse_wideText :
    StrictMono (fun n : ℕ => n * n) ∧
      List.Forall₂ (Line.MovedTo fun n => n * n) (Line.all narrowText.toList)
        (Line.all wideText.toList) ∧
      parse narrowText = .error (.malformedProperty 8 "g") ∧
      parse wideText = .error (.malformedProperty 11 "g") ∧
      Fault.MovedTo ((Line.all narrowText.toList).zip (Line.all wideText.toList))
        (.malformedProperty 8 "g") (.malformedProperty 11 "g") := by
  have hstrict : StrictMono fun n : ℕ => n * n := fun _ _ => Nat.mul_self_lt_mul_self
  have hnarrow : parse narrowText = .error (.malformedProperty 8 "g") := by decide +kernel
  have hwide : parse wideText = .error (.malformedProperty 11 "g") := by decide +kernel
  have hlines : List.Forall₂ (Line.MovedTo fun n => n * n) (Line.all narrowText.toList)
      (Line.all wideText.toList) := by
    decide +kernel
  refine ⟨hstrict, hlines, hnarrow, hwide, ?_⟩
  rcases parse_reindented hstrict rfl hlines with ⟨architectures, htext, -⟩ |
    ⟨fault, moved, htext, hother, hmoved⟩
  · rw [hnarrow] at htext
    cases htext
  · rw [hnarrow] at htext
    rw [hwide] at hother
    cases htext
    cases hother
    exact hmoved

end ArchDiagram.Document
