/-
# Trimmed texts

A text is trimmed if no blank stands at either end. Indentation before a trimmed
text comes off again, a line break behind a text of one line splits it off, and
the first separator behind a text without one is found there.
-/

import ArchDiagram.Text.Blank
import ArchDiagram.Text.Split
import Mathlib.Data.List.Basic
import Mathlib.Tactic

namespace ArchDiagram.Text

/-! ## Prefixes -/

theorem takeWhile_append_of_head {α : Type} {p : α → Bool} (first : List α) {rest : List α}
    (h : ∀ a ∈ rest.head?, p a = false) : (first ++ rest).takeWhile p = first.takeWhile p := by
  induction first with
  | nil =>
      cases rest with
      | nil => rfl
      | cons a rest => simp [h a rfl]
  | cons a first ih => simp only [List.cons_append, List.takeWhile_cons, ih]

theorem dropWhile_append_of_head {α : Type} {p : α → Bool} (first : List α) {rest : List α}
    (h : ∀ a ∈ rest.head?, p a = false) :
    (first ++ rest).dropWhile p = first.dropWhile p ++ rest := by
  induction first with
  | nil =>
      cases rest with
      | nil => rfl
      | cons a rest => simp [h a rfl]
  | cons a first ih =>
      simp only [List.cons_append, List.dropWhile_cons, ih]
      split <;> rfl

/-! ## Trimming -/

variable {text : List Char}

/-- A text is left as it is by trimming. -/
def Trimmed (text : List Char) : Prop := trim text = text

instance (text : List Char) : Decidable (Trimmed text) :=
  inferInstanceAs (Decidable (trim text = text))

theorem trimEnd_eq_self (h : ∀ c ∈ text.getLast?, isBlank c = false) : trimEnd text = text := by
  rcases List.eq_nil_or_concat text with rfl | ⟨front, last, rfl⟩
  · rfl
  · have hlast : isBlank last = false := h last (by simp)
    simp [trimEnd, hlast]

theorem dropWhile_isBlank_eq_self (h : ∀ c ∈ text.head?, isBlank c = false) :
    text.dropWhile isBlank = text := by
  cases text with
  | nil => rfl
  | cons first rest =>
      have hfirst : isBlank first = false := h first rfl
      simp [hfirst]

theorem isBlank_head?_dropWhile (text : List Char) :
    ∀ c ∈ (text.dropWhile isBlank).head?, isBlank c = false := by
  intro c hc
  have hnot := List.head?_dropWhile_not isBlank text
  rw [Option.mem_def.mp hc] at hnot
  simpa using hnot

theorem isBlank_getLast?_trimEnd (text : List Char) :
    ∀ c ∈ (trimEnd text).getLast?, isBlank c = false := by
  intro c hc
  rw [trimEnd, List.getLast?_reverse] at hc
  exact isBlank_head?_dropWhile text.reverse c hc

theorem isBlank_getLast?_trim (text : List Char) :
    ∀ c ∈ (trim text).getLast?, isBlank c = false := by
  intro c hc
  -- cutting the front off leaves a suffix, which has the same last character
  obtain ⟨front, hfront⟩ : trim text <:+ trimEnd text := List.dropWhile_suffix isBlank
  apply isBlank_getLast?_trimEnd text c
  rw [← hfront, List.getLast?_append, Option.mem_def.mp hc]
  rfl

/-- A text is trimmed if and only if its first and its last character are not blank. -/
theorem trimmed_iff : Trimmed text ↔
    (∀ c ∈ text.head?, isBlank c = false) ∧ ∀ c ∈ text.getLast?, isBlank c = false := by
  constructor
  · intro h
    rw [← (show trim text = text from h)]
    exact ⟨isBlank_head?_dropWhile _, isBlank_getLast?_trim text⟩
  · rintro ⟨hfirst, hlast⟩
    rw [Trimmed, trim, trimEnd_eq_self hlast, dropWhile_isBlank_eq_self hfirst]

theorem trimmed_trim (text : List Char) : Trimmed (trim text) :=
  trimmed_iff.mpr ⟨isBlank_head?_dropWhile _, isBlank_getLast?_trim text⟩

/-- Trimming keeps a last character that is not blank. -/
theorem getLast?_trim (h : ∀ c ∈ text.getLast?, isBlank c = false) :
    (trim text).getLast? = text.getLast? := by
  rw [trim, trimEnd_eq_self h]
  rcases List.eq_nil_or_concat text with rfl | ⟨front, last, rfl⟩
  · rfl
  · have hlast : ∀ c ∈ [last].head?, isBlank c = false := by
      rintro c ⟨⟩
      exact h last (by simp)
    rw [List.concat_eq_append, dropWhile_append_of_head front hlast, List.getLast?_concat,
      List.getLast?_concat]

theorem mem_of_mem_trim {c : Char} (h : c ∈ trim text) : c ∈ text := by
  have hdrop : c ∈ trimEnd text := (List.dropWhile_suffix isBlank).subset h
  rw [trimEnd, List.mem_reverse] at hdrop
  simpa using (List.dropWhile_suffix isBlank).subset hdrop

theorem Trimmed.append {first last : List Char} (hfirst : Trimmed first) (hlast : Trimmed last) :
    Trimmed (first ++ last) := by
  rw [trimmed_iff] at *
  refine ⟨fun c hc => ?_, fun c hc => ?_⟩
  · cases first with
    | nil => exact hlast.1 c hc
    | cons => exact hfirst.1 c hc
  -- with nothing behind it the first text ends the whole
  · by_cases hne : last = []
    · rw [hne, List.append_nil] at hc
      exact hfirst.2 c hc
    · rw [List.getLast?_append_of_ne_nil _ hne] at hc
      exact hlast.2 c hc

/-- Between two characters that are not blank anything may stand. -/
theorem trimmed_between {first last : Char} (hfirst : isBlank first = false)
    (hlast : isBlank last = false) (middle : List Char) :
    Trimmed (first :: (middle ++ [last])) := by
  rw [trimmed_iff]
  constructor
  · rintro c ⟨⟩
    exact hfirst
  · intro c hc
    rw [← List.cons_append, List.getLast?_concat] at hc
    obtain rfl := Option.some.inj hc
    exact hlast

/-! ## Indentation -/

theorem dropWhile_isBlank_indented (width : ℕ) (text : List Char) :
    (List.replicate width ' ' ++ text).dropWhile isBlank = text.dropWhile isBlank :=
  List.dropWhile_append_of_pos fun c hc => by rw [List.eq_of_mem_replicate hc]; decide

theorem trim_replicate (width : ℕ) : trim (List.replicate width ' ') = [] := by
  have hblank := dropWhile_isBlank_indented width []
  rw [List.append_nil] at hblank
  simp [trim, trimEnd, hblank]

theorem trimEnd_indented (width : ℕ) (h : Trimmed text) (hne : text ≠ []) :
    trimEnd (List.replicate width ' ' ++ text) = List.replicate width ' ' ++ text := by
  refine trimEnd_eq_self fun c hc => (trimmed_iff.mp h).2 c ?_
  rwa [List.getLast?_append_of_ne_nil _ hne] at hc

/-- Indentation comes off a trimmed text. -/
theorem trim_indented (width : ℕ) (h : Trimmed text) :
    trim (List.replicate width ' ' ++ text) = text := by
  by_cases hne : text = []
  · rw [hne, List.append_nil, trim_replicate]
  · rw [trim, trimEnd_indented width h hne, dropWhile_isBlank_indented,
      dropWhile_isBlank_eq_self (trimmed_iff.mp h).1]

/-- The spaces before a trimmed text are the indentation. -/
theorem takeWhile_space_indented (width : ℕ) (h : Trimmed text) :
    (List.replicate width ' ' ++ text).takeWhile (· == ' ') = List.replicate width ' ' := by
  rw [List.takeWhile_append_of_pos (by simp)]
  cases text with
  | nil => simp
  | cons first rest =>
      have hfirst : isBlank first = false := (trimmed_iff.mp h).1 first rfl
      have hspace : first ≠ ' ' := by
        rintro rfl
        exact absurd hfirst (by decide)
      simp [hspace]

/-! ## Separators -/

variable {separator : Char}

/-- A text without a separator is one piece. -/
theorem splitAll_of_notMem {first : List Char} (h : separator ∉ first) :
    splitAll separator first = [first] := by
  induction first with
  | nil => rfl
  | cons c first ih =>
      rw [List.mem_cons, not_or] at h
      simp [splitAll, Ne.symm h.1, ih h.2]

/-- A text is split at a separator in the middle, and before and behind it. -/
theorem splitAll_append (first rest : List Char) :
    splitAll separator (first ++ separator :: rest) =
      splitAll separator first ++ splitAll separator rest := by
  induction first with
  | nil => simp [splitAll]
  | cons c first ih =>
      by_cases hc : c = separator
      · simp [splitAll, hc, ih]
      · -- the character goes to the front of the first piece, which there is
        obtain ⟨piece, pieces, hpieces⟩ :=
          List.exists_cons_of_ne_nil (splitAll_ne_nil separator first)
        simp [splitAll, hc, ih, hpieces]

theorem splitAll_append_cons {first : List Char} (h : separator ∉ first) (rest : List Char) :
    splitAll separator (first ++ separator :: rest) = first :: splitAll separator rest := by
  rw [splitAll_append, splitAll_of_notMem h]
  rfl

theorem notMem_of_mem_splitAll {piece : List Char} (h : piece ∈ splitAll separator text) :
    separator ∉ piece := by
  induction text generalizing piece with
  | nil => simp_all [splitAll]
  | cons c rest ih =>
      rw [splitAll] at h
      split at h
      · rcases List.mem_cons.mp h with rfl | h
        · exact List.not_mem_nil
        · exact ih h
      -- a character that does not separate goes to the front of the first piece
      · rename_i hc
        split at h
        · simp_all [Ne.symm hc]
        · rename_i first others heq
          rcases List.mem_cons.mp h with rfl | h
          · have hfirst := ih (heq ▸ List.mem_cons_self)
            simp [Ne.symm hc, hfirst]
          · exact ih (heq ▸ List.mem_cons_of_mem _ h)

theorem splitFirst_append_cons {first : List Char} (h : separator ∉ first) (rest : List Char) :
    splitFirst separator (first ++ separator :: rest) = some (first, rest) := by
  induction first with
  | nil => simp [splitFirst]
  | cons c first ih =>
      rw [List.mem_cons, not_or] at h
      simp [splitFirst, Ne.symm h.1, ih h.2]

end ArchDiagram.Text
