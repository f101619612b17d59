/-
# References without a title

A reference without a title is reported and not written. Hence architectures have
the text they have without such references (`text_print_titled`).
-/

import ArchDiagram.Document.Printer
import Mathlib.Tactic

namespace ArchDiagram

/-- The references that have a title. -/
def Reference.titledAmong (listed : List Reference) : List Reference :=
  listed.filter fun reference => reference.title ≠ ""

namespace Override

mutual

/-- An entry without the references that have no title, at any depth. -/
def titled : Override → Override
  | .nested children => .nested (titledBlock children)
  | .swap replacement (some overrides) => .swap replacement (some (titledBlock overrides))
  | .references listed => .references (Reference.titledAmong listed)
  | .swap replacement none => .swap replacement none
  | .default => .default
  | .properties listed => .properties listed
  | .settings listed => .settings listed

/-- Entries without the references that have no title, at any depth. -/
def titledBlock : List (String × Override) → List (String × Override)
  | [] => []
  | (key, entry) :: rest => (key, entry.titled) :: titledBlock rest

end

theorem titledBlock_eq_map (entries : List (String × Override)) :
    titledBlock entries = entries.map fun entry => (entry.1, entry.2.titled) := by
  induction entries with
  | nil => rfl
  | cons entry rest ih => rw [titledBlock, ih, List.map_cons]

@[simp]
theorem names_titledBlock (entries : List (String × Override)) :
    Entries.names (titledBlock entries) = Entries.names entries := by
  rw [titledBlock_eq_map, Entries.names, List.map_map]
  rfl

end Override

/-- An architecture without the references that have no title. -/
def Architecture.titled (architecture : Architecture) : Architecture :=
  ⟨Override.titledBlock architecture.entries⟩

/-- Architectures without the references that have no title. -/
def Architectures.titled (architectures : Architectures) : Architectures :=
  architectures.map fun entry => (entry.1, entry.2.titled)

namespace Document

/-! ## What is written of pieces -/

namespace Piece

/-- Whether a piece is only reported. -/
def isNote : Piece → Bool
  | .note _ => true
  | .line _ _ | .refusal _ => false

/-- The pieces that are not only reported. -/
def written (pieces : List Piece) : List Piece :=
  pieces.filter fun piece => !piece.isNote

theorem written_append (first second : List Piece) :
    written (first ++ second) = written first ++ written second :=
  List.filter_append first second

theorem written_cons_line (depth : ℕ) (text : String) (pieces : List Piece) :
    written (.line depth text :: pieces) = .line depth text :: written pieces := rfl

/-- What is only reported does not change the text. -/
theorem text_assemble_written (pieces : List Piece) :
    (assemble (written pieces)).text = (assemble pieces).text := by
  induction pieces with
  | nil => rfl
  | cons piece rest ih =>
      cases piece with
      | line depth text =>
          rw [written_cons_line]
          simp only [assemble, ih]
      | note event => exact ih
      | refusal fault => rfl

end Piece

/-! ## Entries -/

theorem isNote_of_mem_referencePieces {reference : Reference} (h : reference.title ≠ "")
    {width depth : ℕ} {piece : Piece} (hpiece : piece ∈ referencePieces width depth reference) :
    piece.isNote = false := by
  rw [referencePieces, if_neg h] at hpiece
  simp only [List.mem_append, List.mem_cons, List.mem_map] at hpiece
  -- all of a reference with a title is lines
  rcases hpiece with ((((rfl | hauthor) | ⟨_, -, rfl⟩) | ⟨_, -, rfl⟩) | ⟨_, -, rfl⟩) | ⟨_, -, rfl⟩
  case inl.inl.inl.inl.inr =>
    split at hauthor
    · exact absurd hauthor List.not_mem_nil
    · rcases List.mem_cons.mp hauthor with rfl | hauthor
      · rfl
      · obtain ⟨_, -, rfl⟩ := List.mem_map.mp hauthor
        rfl
  all_goals rfl

theorem written_references (listed : List Reference) (width depth : ℕ) :
    Piece.written (listed.flatMap (referencePieces width depth)) =
      (Reference.titledAmong listed).flatMap (referencePieces width depth) := by
  induction listed with
  | nil => rfl
  | cons reference rest ih =>
      have hcons : Reference.titledAmong (reference :: rest) =
          if reference.title ≠ "" then reference :: Reference.titledAmong rest
          else Reference.titledAmong rest := by
        simp only [Reference.titledAmong, List.filter_cons, decide_eq_true_eq]
      rw [List.flatMap_cons, Piece.written_append, ih, hcons]
      by_cases h : reference.title = ""
      · -- without a title there is only the note, which is not written
        have hnote : referencePieces width depth reference = [.note .untitledReference] := if_pos h
        rw [hnote, if_neg (not_not_intro h)]
        rfl
      · have hall : Piece.written (referencePieces width depth reference) =
            referencePieces width depth reference :=
          List.filter_eq_self.mpr fun piece hpiece => by
            rw [isNote_of_mem_referencePieces h hpiece]
            rfl
        rw [hall, if_pos h, List.flatMap_cons]

theorem written_propertyPieces (depth : ℕ) (properties : Entries Property) :
    Piece.written (propertyPieces depth properties) = propertyPieces depth properties := by
  refine List.filter_eq_self.mpr fun piece hpiece => ?_
  obtain ⟨entry, -, rfl⟩ := List.mem_map.mp hpiece
  rfl

mutual

theorem written_entryPieces (width depth : ℕ) (key : String) :
    (entry : Override) → Piece.written (entryPieces width depth key entry) =
      entryPieces width depth key entry.titled
  | .default => rfl
  | .nested children => by
      rw [entryPieces, Piece.written_cons_line, written_blockPieces width _ children]
      rfl
  | .swap _ none => rfl
  | .swap _ (some overrides) => by
      rw [entryPieces, Piece.written_cons_line, written_blockPieces width _ overrides]
      rfl
  | .references listed => by
      rw [entryPieces, Override.titled, entryPieces]
      split
      · rw [Piece.written_cons_line, written_references]
      · rfl
  | .properties listed => by
      rw [Override.titled, entryPieces]
      split
      · rw [Piece.written_cons_line, written_propertyPieces]
      · rfl
  | .settings _ => rfl

theorem written_blockPieces (width depth : ℕ) :
    (entries : List (String × Override)) → Piece.written (blockPieces width depth entries) =
      blockPieces width depth (Override.titledBlock entries)
  | [] => rfl
  | (key, entry) :: rest => by
      rw [blockPieces, Piece.written_append, written_entryPieces width depth key entry,
        written_blockPieces width depth rest]
      rfl

end

/-! ## Documents -/

theorem written_architecturePieces (indent : ℕ) (name : String) (architecture : Architecture) :
    Piece.written (architecturePieces indent name architecture) =
      architecturePieces indent name architecture.titled := by
  have hempty : architecture.titled.entries.isEmpty = architecture.entries.isEmpty := by
    rw [Architecture.titled, Override.titledBlock_eq_map, List.isEmpty_map]
  rw [architecturePieces, architecturePieces, hempty]
  split
  · rfl
  · rw [Piece.written_cons_line, written_blockPieces]
    rfl

theorem written_intercalate (separator : List Piece) (blocks : List (List Piece)) :
    Piece.written (separator.intercalate blocks) =
      (Piece.written separator).intercalate (blocks.map Piece.written) := by
  induction blocks with
  | nil => rfl
  | cons block rest ih =>
      cases rest with
      | nil => simp
      | cons next rest =>
          rw [List.intercalate_cons_cons, Piece.written_append, Piece.written_append, ih,
            List.map_cons, List.map_cons, List.map_cons, List.intercalate_cons_cons]

/-- Architectures have the text they have without references that have no title. -/
theorem text_print_titled (indent : ℕ) (architectures : Architectures) :
    (print indent architectures.titled).text = (print indent architectures).text := by
  have hblocks : (architectures.titled.map fun entry => architecturePieces indent entry.1 entry.2) =
      (architectures.map fun entry => architecturePieces indent entry.1 entry.2).map
        Piece.written := by
    simp only [Architectures.titled, List.map_map, Function.comp_def, written_architecturePieces]
  have hseparator : Piece.written [Piece.line 0 ""] = [Piece.line 0 ""] := rfl
  simp only [print, hblocks]
  rw [← hseparator, ← written_intercalate, Piece.text_assemble_written, hseparator]

end Document

end ArchDiagram
