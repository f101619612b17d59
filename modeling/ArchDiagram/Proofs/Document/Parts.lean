/-
# The parts of a document

A document is cut into one slice for each architecture: its first line heads the first one,
wherever it stands, and every later line without indentation that ends in a colon heads another.
No line is lost (`flatMap_parts`), and if a document can be read, it is read slice by slice
(`ofLines_eq_ok_iff`).
-/

import ArchDiagram.Document
import ArchDiagram.Proofs.Document.Rows
import Mathlib.Data.List.Forall2

namespace ArchDiagram.Document

variable {lines before after rest : List Line} {line first header : Line} {slice : Slice}

theorem slices_cons (h : isHeader header = true) :
    slices (header :: rest) = ([], ⟨header, (slices rest).1⟩ :: (slices rest).2) := by
  rw [slices]
  simp [h]

theorem slices_cons_of_not (h : isHeader header = false) :
    slices (header :: rest) = (header :: (slices rest).1, (slices rest).2) := by
  rw [slices]
  simp [h]

theorem isSome_heading?_of_isHeader (h : isHeader header = true) : header.heading?.isSome := by
  rw [isHeader, Bool.and_eq_true] at h
  exact h.1

/-- The lines of a slice, with its header. -/
def Slice.all (slice : Slice) : List Line :=
  slice.header :: slice.lines

/-- The slices of a document, the first of which starts with the first line. -/
def parts : List Line → List Slice
  | [] => []
  | first :: rest => ⟨first, (slices rest).1⟩ :: (slices rest).2

theorem slices_spec (lines : List Line) :
    (slices lines).1 ++ (slices lines).2.flatMap Slice.all = lines ∧
      (∀ line ∈ (slices lines).1, isHeader line = false) ∧
      ∀ slice ∈ (slices lines).2,
        isHeader slice.header = true ∧ ∀ line ∈ slice.lines, isHeader line = false := by
  induction lines with
  | nil => exact ⟨rfl, nofun, nofun⟩
  | cons line rest ih =>
      obtain ⟨hlines, hown, hlater⟩ := ih
      cases hheader : isHeader line with
      | true =>
          rw [slices_cons hheader]
          refine ⟨?_, nofun, List.forall_mem_cons.mpr ⟨⟨hheader, hown⟩, hlater⟩⟩
          rw [List.nil_append, List.flatMap_cons, Slice.all, List.cons_append, hlines]
      | false =>
          rw [slices_cons_of_not hheader]
          refine ⟨?_, List.forall_mem_cons.mpr ⟨hheader, hown⟩, hlater⟩
          rw [List.cons_append, hlines]

/-- Every line is in a slice, in its place. -/
theorem flatMap_parts (lines : List Line) : (parts lines).flatMap Slice.all = lines := by
  cases lines with
  | nil => rfl
  | cons first rest =>
      rw [parts, List.flatMap_cons, Slice.all, List.cons_append, (slices_spec rest).1]

theorem mem_of_mem_parts (h : slice ∈ parts lines) (hline : line ∈ slice.all) : line ∈ lines := by
  rw [← flatMap_parts lines]
  exact List.mem_flatMap.mpr ⟨slice, h, hline⟩

theorem isHeader_of_mem_parts (h : slice ∈ parts lines) :
    ∀ line ∈ slice.lines, isHeader line = false := by
  cases lines with
  | nil => exact absurd h List.not_mem_nil
  | cons first rest =>
      obtain ⟨-, hown, hlater⟩ := slices_spec rest
      rcases List.mem_cons.mp h with rfl | h
      · exact hown
      · exact (hlater slice h).2

theorem isHeader_of_mem_tail_parts (h : slice ∈ (parts lines).tail) :
    isHeader slice.header = true := by
  cases lines with
  | nil => exact absurd h List.not_mem_nil
  | cons first rest => exact ((slices_spec rest).2.2 slice h).1

theorem isHeader_iff : isHeader line = true ↔ line.indent = 0 ∧ line.text.getLast? = some ':' := by
  rw [isHeader, Line.heading?]
  split <;> simp_all

/-- If the first line names an architecture, so do the headers of all slices. -/
theorem isSome_heading?_of_mem_parts (hfirst : ∀ first ∈ lines.head?, first.heading?.isSome)
    (h : slice ∈ parts lines) : slice.header.heading?.isSome := by
  cases lines with
  | nil => exact absurd h List.not_mem_nil
  | cons first rest =>
      rcases List.mem_cons.mp h with rfl | hlater
      · exact hfirst first rfl
      · exact isSome_heading?_of_isHeader ((slices_spec rest).2.2 slice hlater).1

/-- Lines that start with a header are cut off from those before them. -/
theorem slices_append_of_header (h : ∀ line ∈ after.head?, isHeader line = true) :
    slices (before ++ after) = ((slices before).1, (slices before).2 ++ (slices after).2) := by
  induction before with
  | nil =>
      cases after with
      | nil => rfl
      | cons header rest =>
          rw [List.nil_append, slices_cons (h header rfl)]
          rfl
  | cons line before ih =>
      cases hheader : isHeader line with
      | true => rw [List.cons_append, slices_cons hheader, slices_cons hheader, ih, List.cons_append]
      | false => rw [List.cons_append, slices_cons_of_not hheader, slices_cons_of_not hheader, ih]

theorem parts_eq_of_header (h : ∀ line ∈ lines.head?, isHeader line = true) :
    parts lines = (slices lines).2 := by
  cases lines with
  | nil => rfl
  | cons header rest => rw [parts, slices_cons (h header rfl)]

/-- A document that starts with a header is cut off from a document before it. -/
theorem parts_append (hne : before ≠ []) (h : ∀ line ∈ after.head?, isHeader line = true) :
    parts (before ++ after) = parts before ++ parts after := by
  obtain ⟨first, rest, rfl⟩ := List.exists_cons_of_ne_nil hne
  rw [parts_eq_of_header h, List.cons_append, parts, parts, slices_append_of_header h,
    List.cons_append]

/-- What comes after a slice is the end of the document or a header. -/
theorem exists_of_mem_parts (h : slice ∈ parts lines) :
    ∃ before after, lines = before ++ slice.header :: (slice.lines ++ after) ∧
      ∀ next ∈ after.head?, isHeader next = true := by
  obtain ⟨earlier, later, hparts⟩ := List.append_of_mem h
  refine ⟨earlier.flatMap Slice.all, later.flatMap Slice.all, ?_, fun next hnext => ?_⟩
  · rw [← flatMap_parts lines, hparts, List.flatMap_append, List.flatMap_cons]
    rfl
  · cases later with
    | nil => cases hnext
    | cons following others =>
        obtain rfl := Option.some.inj hnext
        have hlater : following ∈ (parts lines).tail := by
          rw [hparts]
          cases earlier <;> simp
        exact isHeader_of_mem_tail_parts hlater

/-! ## Reading the parts -/

/-- An architecture is read if its lines give entries. -/
theorem architectureOf_eq_ok_iff {entry : String × Architecture} :
    architectureOf slice = .ok entry ↔
      ∃ pairs, entriesOfAll (Outline.ofLines slice.lines) = .ok pairs ∧
        Entries.collect pairs ≠ [] ∧
          entry = (String.ofList (slice.header.heading?.getD []), ⟨Entries.collect pairs⟩) := by
  rw [architectureOf, blockOf]
  constructor
  · intro h
    split at h
    · cases h
    · cases h
    · rename_i entries hne hblock
      obtain ⟨pairs, hpairs, rfl⟩ := exists_of_map_eq_ok hblock
      exact ⟨pairs, hpairs, hne, (Except.ok.inj h).symm⟩
  · rintro ⟨pairs, hpairs, hne, rfl⟩
    rw [hpairs, Except.map]
    split
    · rename_i hblock
      cases hblock
    · rename_i hblock
      exact absurd (Except.ok.inj hblock) hne
    · rename_i hblock
      rw [Except.ok.inj hblock]

theorem exists_slice_of_eq_error {found : List Slice} {fault : Fault}
    (h : architecturesOf found = .error fault) :
    ∃ slice ∈ found, architectureOf slice = .error fault := by
  induction found with
  | nil => cases h
  | cons slice rest ih =>
      rw [architecturesOf] at h
      split at h
      · rename_i hfirst
        obtain rfl := Except.error.inj h
        exact ⟨slice, List.mem_cons_self, hfirst⟩
      · obtain ⟨later, hlater, hfault⟩ := ih (eq_error_of_map_eq_error h)
        exact ⟨later, List.mem_cons_of_mem _ hlater, hfault⟩

/-- Slices are read one by one. -/
theorem architecturesOf_eq_ok_iff {found : List Slice}
    {architectures : List (String × Architecture)} :
    architecturesOf found = .ok architectures ↔
      List.Forall₂ (fun slice entry => architectureOf slice = .ok entry) found architectures := by
  induction found generalizing architectures with
  | nil => simp [architecturesOf, eq_comm]
  | cons slice rest ih =>
      rw [architecturesOf, List.forall₂_cons_left_iff]
      constructor
      · intro h
        cases hfirst : architectureOf slice with
        | error fault => simp [hfirst] at h
        | ok entry =>
            simp only [hfirst] at h
            obtain ⟨others, hothers, rfl⟩ := exists_of_map_eq_ok h
            exact ⟨entry, others, rfl, ih.mp hothers, rfl⟩
      · rintro ⟨entry, others, hfirst, hothers, rfl⟩
        simp only [hfirst, ih.mpr hothers]
        rfl

theorem exists_slice_of_mem {found : List Slice} {architectures : List (String × Architecture)}
    (h : architecturesOf found = .ok architectures) {entry : String × Architecture}
    (hentry : entry ∈ architectures) : ∃ slice ∈ found, architectureOf slice = .ok entry := by
  induction architecturesOf_eq_ok_iff.mp h with
  | nil => exact absurd hentry List.not_mem_nil
  | @cons slice first rest others hfirst hothers ih =>
      rcases List.mem_cons.mp hentry with rfl | hentry
      · exact ⟨slice, List.mem_cons_self, hfirst⟩
      · obtain ⟨later, hlater, hread⟩ := ih (architecturesOf_eq_ok_iff.mpr hothers) hentry
        exact ⟨later, List.mem_cons_of_mem _ hlater, hread⟩

/-- More than one line, the first of which names an architecture, is read slice by slice. -/
theorem ofLines_eq_map (hheading : first.heading?.isSome) (hne : rest ≠ []) :
    ofLines (first :: rest) = (architecturesOf (parts (first :: rest))).map Entries.collect := by
  obtain ⟨second, others, rfl⟩ := List.exists_cons_of_ne_nil hne
  rw [ofLines, if_pos hheading, parts]
  exact nofun

theorem ofLines_eq_error (hheading : ¬ first.heading?.isSome) (hne : rest ≠ []) :
    ofLines (first :: rest) = .error (.missingHeader first.number first.string) := by
  obtain ⟨second, others, rfl⟩ := List.exists_cons_of_ne_nil hne
  rw [ofLines, if_neg hheading]
  exact nofun

/-- A document is read if it has two lines, the first names an architecture, and each part
can be read. -/
theorem ofLines_eq_ok_iff {architectures : Architectures} :
    ofLines lines = .ok architectures ↔
      ∃ first rest found, lines = first :: rest ∧ rest ≠ [] ∧ first.heading?.isSome ∧
        architecturesOf (parts lines) = .ok found ∧ Entries.collect found = architectures := by
  constructor
  · intro h
    match lines with
    | [] => cases h
    | [_] => cases h
    | first :: second :: rest =>
        by_cases hheading : first.heading?.isSome
        · rw [ofLines_eq_map hheading (List.cons_ne_nil _ _)] at h
          obtain ⟨found, hfound, hcollect⟩ := exists_of_map_eq_ok h
          exact ⟨first, _, found, rfl, List.cons_ne_nil _ _, hheading, hfound, hcollect⟩
        · rw [ofLines_eq_error hheading (List.cons_ne_nil _ _)] at h
          cases h
  · rintro ⟨first, rest, found, rfl, hne, hheading, hfound, rfl⟩
    rw [ofLines_eq_map hheading hne, hfound]
    rfl

end ArchDiagram.Document
