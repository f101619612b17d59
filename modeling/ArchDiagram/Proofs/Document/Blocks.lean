/-
# Blocks that read back

The lines of the entries of an architecture are read as these entries, at every
depth: the text of a line shows what it means, and everything below it is deeper.
Main statement: `entriesOfAll_blockPieces`.
-/

import ArchDiagram.Document.Block
import ArchDiagram.Proofs.Document.Sections

namespace ArchDiagram.Document

open Override (BlockExpressible ReplacementExpressible)

/-! ## What a line means -/

namespace Heading

variable {line : Line} {key : String}

theorem ofLine_of_ne (hreferences : line.text ≠ "references:".toList)
    (hproperties : line.text ≠ "properties:".toList) :
    ofLine line =
      match line.heading?, line.pair? with
      | some name, _ => .nested name
      | none, some (slotClass, replacement) => .swap slotClass replacement
      | none, none => .bare line.text :=
  (if_neg hreferences).trans (if_neg hproperties)

theorem ofLine_bare (htext : line.text = key.toList) (hcolon : ':' ∉ key.toList) :
    ofLine line = .bare key.toList := by
  rw [← htext] at hcolon ⊢
  -- sections, headers and pairs all have a colon
  have hlast : line.text.getLast? ≠ some ':' := fun h => hcolon (List.mem_of_getLast? h)
  rw [ofLine_of_ne, Line.heading?_eq_none hlast, Line.pair?_eq_none hcolon]
  all_goals
    intro h
    apply hcolon
    rw [h]
    decide

theorem ofLine_nested (htext : line.text = (s!"{key}:").toList) (hkey : Text.Trimmed key.toList)
    (hreferences : key ≠ "references") (hproperties : key ≠ "properties") :
    ofLine line = .nested key.toList := by
  rw [toList_header] at htext
  have hne {name : String} (hname : key ≠ name) : line.text ≠ name.toList ++ [':'] := by
    rw [htext]
    exact fun h => hname (String.toList_inj.mp (List.append_cancel_right h))
  rw [ofLine_of_ne (hne hreferences) (hne hproperties), Line.heading?_of_text htext hkey]

theorem ofLine_swap {replacement : String} (htext : line.text = (s!"{key}: {replacement}").toList)
    (hkey : TidyKey key) (hreplacement : ReplacementExpressible replacement) :
    ofLine line = .swap key.toList replacement.toList := by
  rw [toList_pair] at htext
  have hne : replacement.toList ≠ [] := by simpa using hreplacement.ne
  -- the line ends like the replacement, and sections and headers end in a colon
  have hlast : line.text.getLast? ≠ some ':' := by
    rw [htext, List.getLast?_append_of_ne_nil _ (List.cons_ne_nil _ _), List.getLast?_cons_cons,
      List.getLast?_cons_of_ne_nil hne]
    exact hreplacement.no_header
  rw [ofLine_of_ne, Line.heading?_eq_none hlast,
    Line.pair?_of_text htext hkey.no_colon hkey.trimmed hreplacement.trimmed]
  all_goals
    intro h
    apply hlast
    rw [h]
    decide

end Heading

/-! ## Depths of blocks -/

mutual

theorem hangs_entryPieces (width depth : ℕ) {key : String} :
    ∀ {entry : Override}, entry.Expressible key →
      Hangs depth (entryPieces width depth key entry)
  | .default, h => by
      have hnothing : Hangs (depth + width) [] := Hangs.nil
      exact hnothing.cons (by simpa using h.1)
  | .nested _, h =>
      (hangs_blockPieces width (depth + width) h.2.2).cons (by rw [toList_header]; simp)
  | .swap _ none, _ => by
      have hnothing : Hangs (depth + width) [] := Hangs.nil
      exact hnothing.cons (by rw [toList_pair]; simp)
  | .swap _ (some _), h =>
      (hangs_blockPieces width (depth + width) h.2.2.2).cons (by rw [toList_pair]; simp)
  | .references _, h => by
      rw [entryPieces, if_pos h.1]
      exact (hangs_references h.2 width (depth + width)).cons (by decide)
  | .properties _, h => by
      rw [entryPieces, if_pos h.1, propertyPieces_eq]
      exact (hangs_pairPieces (depth + width) _).cons (by decide)
  | .settings _, h => h.elim

theorem hangs_blockPieces (width depth : ℕ) :
    ∀ {entries : List (String × Override)}, BlockExpressible entries →
      Hangs depth (blockPieces width depth entries)
  | [], _ => Hangs.nil
  | (_, _) :: _, h =>
      (hangs_entryPieces width depth h.2.2.1).append (hangs_blockPieces width depth h.2.2.2)

end

/-! ## Lines of blocks -/

mutual

theorem legible_entryPieces (width depth : ℕ) {key : String} (hkey : Tidy key) :
    ∀ {entry : Override}, entry.Expressible key →
      ∀ piece ∈ entryPieces width depth key entry, piece.Legible
  | .default, _ => by
      rw [entryPieces, List.forall_mem_singleton]
      exact legible_of_tidy hkey depth
  | .nested children, h => by
      rw [entryPieces, List.forall_mem_cons]
      exact ⟨legible_header hkey depth, legible_blockPieces width (depth + width) h.2.2⟩
  | .swap replacement none, h => by
      rw [entryPieces, List.forall_mem_singleton]
      exact legible_pair hkey h.2.toTidy h.2.ne depth
  | .swap replacement (some overrides), h => by
      rw [entryPieces, List.forall_mem_cons]
      exact ⟨legible_pair hkey h.2.1.toTidy h.2.1.ne depth,
        legible_blockPieces width (depth + width) h.2.2.2⟩
  | .references listed, h => by
      rw [entryPieces, if_pos h.1, List.forall_mem_cons, List.forall_mem_flatMap]
      exact ⟨legible_of_tidy (by decide) depth, fun reference hreference =>
        legible_referencePieces (h.2 reference hreference) width (depth + width)⟩
  | .properties listed, h => by
      rw [entryPieces, if_pos h.1, List.forall_mem_cons]
      exact ⟨legible_of_tidy (by decide) depth, legible_propertyPieces h.2 (depth + width)⟩
  | .settings _, h => h.elim

theorem legible_blockPieces (width depth : ℕ) :
    ∀ {entries : List (String × Override)}, BlockExpressible entries →
      ∀ piece ∈ blockPieces width depth entries, piece.Legible
  | [], _ => by
      rw [blockPieces]
      exact nofun
  | (_, _) :: _, h => by
      rw [blockPieces, List.forall_mem_append]
      exact ⟨legible_entryPieces width depth h.2.1 h.2.2.1, legible_blockPieces width depth h.2.2.2⟩

end

/-! ## Reading blocks -/

theorem reading_entriesOf : Reading entriesOf entriesOfAll where
  nil := rfl
  cons outline rest := by
    rw [entriesOfAll]
    cases entriesOf outline with
    | error fault => rfl
    | ok entries => rfl

/-- Every line of a block gives an entry. -/
theorem ne_nil_of_entriesOf {outline : Outline} {entries : List (String × Override)}
    (h : entriesOf outline = .ok entries) : entries ≠ [] := by
  obtain ⟨line, children⟩ := outline
  rw [entriesOf] at h
  split at h
  all_goals
    obtain ⟨read, -, rfl⟩ := exists_of_map_eq_ok h
    exact List.cons_ne_nil _ _

theorem ne_nil_of_entriesOfAll {outlines : List Outline} {entries : List (String × Override)}
    (hne : outlines ≠ []) (h : entriesOfAll outlines = .ok entries) : entries ≠ [] := by
  obtain ⟨outline, rest, rfl⟩ := List.exists_cons_of_ne_nil hne
  obtain ⟨first, others, hfirst, -, rfl⟩ := reading_entriesOf.exists_of_cons h
  exact List.append_ne_nil_of_left_ne_nil (ne_nil_of_entriesOf hfirst) others

mutual

/-- An entry is read from its lines. -/
theorem entriesOfAll_entryPieces {width : ℕ} (hwidth : 0 < width) {key : String} (hkey : Tidy key) :
    ∀ {entry : Override} {depth : ℕ} {outlines : List Outline}, entry.Expressible key →
      ReadAs (entryPieces width depth key entry) outlines →
      entriesOfAll outlines = .ok [(key, entry)]
  | .default, depth, outlines, h, hread => by
      obtain ⟨line, children, rfl, -, htext, hchildren⟩ :=
        hread.cons (by simpa using h.1) hwidth Hangs.nil
      rw [hchildren.nil]
      apply reading_entriesOf.singleton
      rw [entriesOf, Heading.ofLine_bare htext h.2]
      simp [entriesOfAll, Except.map]
  | .nested children, depth, outlines, h, hread => by
      obtain ⟨hreferences, hproperties, hblock⟩ := h
      obtain ⟨line, below, rfl, -, htext, hbelow⟩ :=
        hread.cons (by rw [toList_header]; simp) hwidth (hangs_blockPieces width _ hblock)
      apply reading_entriesOf.singleton
      rw [entriesOf, Heading.ofLine_nested htext hkey.trimmed hreferences hproperties]
      simp [entriesOfAll_blockPieces hwidth hblock hbelow, Entries.collect_eq_self hblock.nodup,
        Except.map]
  | .swap replacement none, depth, outlines, h, hread => by
      obtain ⟨line, children, rfl, -, htext, hchildren⟩ :=
        hread.cons (by rw [toList_pair]; simp) hwidth Hangs.nil
      rw [hchildren.nil]
      apply reading_entriesOf.singleton
      rw [entriesOf, Heading.ofLine_swap htext ⟨hkey, h.1⟩ h.2]
      simp [entriesOfAll, Except.map]
  | .swap replacement (some overrides), depth, outlines, h, hread => by
      obtain ⟨hcolon, hreplacement, hne, hblock⟩ := h
      obtain ⟨line, below, rfl, -, htext, hbelow⟩ :=
        hread.cons (by rw [toList_pair]; simp) hwidth (hangs_blockPieces width _ hblock)
      have hentries := entriesOfAll_blockPieces hwidth hblock hbelow
      -- with nothing below it the swap would be read without overrides
      have hsome : below.isEmpty = false := by
        cases below with
        | nil => exact absurd (Except.ok.inj hentries).symm hne
        | cons => rfl
      apply reading_entriesOf.singleton
      rw [entriesOf, Heading.ofLine_swap htext ⟨hkey, hcolon⟩ hreplacement]
      simp [hentries, hsome, Entries.collect_eq_self hblock.nodup, Except.map]
  | .references listed, depth, outlines, h, hread => by
      obtain ⟨rfl, hlisted⟩ := h
      rw [entryPieces, if_pos rfl] at hread
      obtain ⟨line, below, rfl, -, htext, hbelow⟩ :=
        hread.cons (by decide) hwidth (hangs_references hlisted width _)
      have hline : Heading.ofLine line = .references := if_pos htext
      apply reading_entriesOf.singleton
      rw [entriesOf, hline]
      simp [referencesOf_referencePieces hlisted hwidth hbelow, Except.map]
  | .properties listed, depth, outlines, h, hread => by
      obtain ⟨rfl, hlisted⟩ := h
      rw [entryPieces, if_pos rfl] at hread
      obtain ⟨line, below, rfl, -, htext, hbelow⟩ :=
        hread.cons (by decide) hwidth (by rw [propertyPieces_eq]; exact hangs_pairPieces _ _)
      have hline : Heading.ofLine line = .properties := by
        rw [Heading.ofLine, htext, if_neg (by decide), if_pos rfl]
      apply reading_entriesOf.singleton
      rw [entriesOf, hline]
      simp [propertiesOf_propertyPieces hlisted hbelow, Except.map]
  | .settings _, _, _, h, _ => h.elim

/-- The entries of a block are read from its lines. -/
theorem entriesOfAll_blockPieces {width : ℕ} (hwidth : 0 < width) :
    ∀ {entries : List (String × Override)} {depth : ℕ} {outlines : List Outline},
      BlockExpressible entries → ReadAs (blockPieces width depth entries) outlines →
      entriesOfAll outlines = .ok entries
  | [], _, _, _, hread => by
      rw [hread.nil]
      rfl
  | (_, _) :: _, depth, _, h, hread => by
      obtain ⟨before, after, rfl, hbefore, hafter⟩ :=
        hread.append (hangs_entryPieces width depth h.2.2.1) (hangs_blockPieces width depth h.2.2.2)
      exact reading_entriesOf.append (entriesOfAll_entryPieces hwidth h.2.1 h.2.2.1 hbefore)
        (entriesOfAll_blockPieces hwidth h.2.2.2 hafter)

end

end ArchDiagram.Document
