/-
# Texts without placeholders

Putting a text for all placeholders replaces them from the left, each where the one before
it ends, and keeps every other character in its order (`Replaces`); this alone determines
the result. A text that is put in and the braces around it may form a new placeholder. They
do not if the text has a character and no brace (`Clears`): an opening brace that was kept
is followed by what followed it before, at least as far as the first closing brace. So
nothing is left to replace, whatever might be put in the second time.
-/

import ArchDiagram.Text.Replace
import Mathlib.Data.List.TakeWhile
import Mathlib.Tactic

namespace ArchDiagram.Text

variable {text rest after result replacement name : List Char} {c : Char}

/-! ## Where a placeholder starts -/

/-- A name that a placeholder can have. -/
structure IsName (name : List Char) : Prop where
  ne_nil : name ≠ []
  no_brace : '}' ∉ name

/-- A placeholder stands at the start of a text. -/
def OpensPlaceholder (text : List Char) : Prop :=
  ∃ name rest, IsName name ∧ text = placeholder name ++ rest

/-- No placeholder stands anywhere in a text. -/
def NoPlaceholder (text : List Char) : Prop :=
  ∀ position, ¬OpensPlaceholder (text.drop position)

/-- The reader of a placeholder finds the one at the start and what stands behind it. -/
theorem afterPlaceholder?_eq_some_iff :
    afterPlaceholder? text = some after ↔
      ∃ name, IsName name ∧ text = placeholder name ++ after := by
  constructor
  · intro h
    unfold afterPlaceholder? at h
    split at h
    · rename_i rest
      split at h
      · rename_i first others after' htake hdrop
        obtain rfl := Option.some.inj h
        refine ⟨first :: others, ⟨List.cons_ne_nil _ _, fun hbrace => ?_⟩, ?_⟩
        · rw [← htake] at hbrace
          simpa using List.mem_takeWhile_imp hbrace
        · rw [← List.takeWhile_append_dropWhile (p := (· != '}')) (l := rest), htake, hdrop]
          simp [placeholder]
      · cases h
    · cases h
  · rintro ⟨name, ⟨hsome, hbrace⟩, rfl⟩
    obtain ⟨first, others, rfl⟩ := List.exists_cons_of_ne_nil hsome
    have hname : ∀ d ∈ first :: others, (d != '}') = true := by
      intro d hd
      simpa using fun heq : d = '}' => hbrace (heq ▸ hd)
    have hsplit : placeholder (first :: others) ++ after =
        '{' :: '{' :: ((first :: others) ++ '}' :: '}' :: after) := by simp [placeholder]
    rw [hsplit, afterPlaceholder?, List.takeWhile_append_of_pos hname,
      List.dropWhile_append_of_pos hname]
    simp

theorem opensPlaceholder_iff :
    OpensPlaceholder text ↔ ∃ after, afterPlaceholder? text = some after := by
  simp only [afterPlaceholder?_eq_some_iff, OpensPlaceholder]
  exact exists_comm

theorem afterPlaceholder?_eq_none_iff : afterPlaceholder? text = none ↔ ¬OpensPlaceholder text := by
  rw [opensPlaceholder_iff, Option.eq_none_iff_forall_ne_some]
  exact not_exists.symm

theorem noPlaceholder_nil : NoPlaceholder [] := by
  rintro position ⟨name, rest, -, htext⟩
  simp [placeholder] at htext

theorem noPlaceholder_cons_iff :
    NoPlaceholder (c :: text) ↔ ¬OpensPlaceholder (c :: text) ∧ NoPlaceholder text := by
  refine ⟨fun h => ⟨h 0, fun position => h (position + 1)⟩, fun h position => ?_⟩
  cases position with
  | zero => exact h.1
  | succ position => exact h.2 position

/-- A text without an opening brace in front adds no placeholder. -/
theorem NoPlaceholder.append {first : List Char} (hfirst : '{' ∉ first) (h : NoPlaceholder text) :
    NoPlaceholder (first ++ text) := by
  induction first with
  | nil => exact h
  | cons d first ih =>
      rw [List.mem_cons, not_or] at hfirst
      refine noPlaceholder_cons_iff.mpr ⟨?_, ih hfirst.2⟩
      rintro ⟨name, rest, -, htext⟩
      exact hfirst.1 (List.cons.inj htext).1.symm

/-! ## Replacing from the left -/

theorem replacePlaceholders_nil : replacePlaceholders replacement [] = [] := by
  rw [replacePlaceholders]

theorem replacePlaceholders_cons (h : ¬OpensPlaceholder (c :: text)) :
    replacePlaceholders replacement (c :: text) = c :: replacePlaceholders replacement text := by
  rw [replacePlaceholders]
  split
  · rename_i after hafter
    exact absurd (opensPlaceholder_iff.mpr ⟨after, hafter⟩) h
  · rfl

theorem replacePlaceholders_placeholder (hname : IsName name) :
    replacePlaceholders replacement (placeholder name ++ rest) =
      replacement ++ replacePlaceholders replacement rest := by
  have hread : afterPlaceholder? (placeholder name ++ rest) = some rest :=
    afterPlaceholder?_eq_some_iff.mpr ⟨name, hname, rfl⟩
  obtain ⟨c, others, htext⟩ : ∃ c others, placeholder name ++ rest = c :: others := ⟨_, _, rfl⟩
  rw [htext] at hread ⊢
  rw [replacePlaceholders]
  split
  · rename_i after hafter
    obtain rfl := Option.some.inj (hread.symm.trans hafter)
    rfl
  · rename_i hnone
    cases hread.symm.trans hnone

/-- A text is empty, or a placeholder stands at its start, or its first character is kept. -/
theorem placeholder_induction {motive : List Char → Prop} (text : List Char) (nil : motive [])
    (filled : ∀ name rest, IsName name → motive rest → motive (placeholder name ++ rest))
    (kept : ∀ c rest, ¬OpensPlaceholder (c :: rest) → motive rest → motive (c :: rest)) :
    motive text := by
  induction text using replacePlaceholders.induct with
  | case1 => exact nil
  | case2 c rest after hafter ih =>
      obtain ⟨name, hname, htext⟩ := afterPlaceholder?_eq_some_iff.mp hafter
      rw [htext]
      exact filled name after hname ih
  | case3 c rest hafter ih => exact kept c rest (afterPlaceholder?_eq_none_iff.mp hafter) ih

theorem replacePlaceholders_eq_self (h : NoPlaceholder text) :
    replacePlaceholders replacement text = text := by
  induction text with
  | nil => exact replacePlaceholders_nil
  | cons c rest ih =>
      obtain ⟨hfirst, hrest⟩ := noPlaceholder_cons_iff.mp h
      rw [replacePlaceholders_cons hfirst, ih hrest]

/-- The replacement of the placeholders of a text, one after the other from the left: in
front of the first one the characters are kept, and behind it the search goes on. -/
inductive Replaces (replacement : List Char) : List Char → List Char → Prop
  | none {text : List Char} (hnone : NoPlaceholder text) : Replaces replacement text text
  | first (before : List Char) {name after result : List Char} (hname : IsName name)
      (hleftmost : ∀ position < before.length,
        ¬OpensPlaceholder ((before ++ (placeholder name ++ after)).drop position))
      (hafter : Replaces replacement after result) :
      Replaces replacement (before ++ (placeholder name ++ after))
        (before ++ (replacement ++ result))

/-- A character at which no placeholder starts is kept. -/
theorem Replaces.cons (hfirst : ¬OpensPlaceholder (c :: text))
    (h : Replaces replacement text result) : Replaces replacement (c :: text) (c :: result) := by
  cases h with
  | none hnone => exact .none (noPlaceholder_cons_iff.mpr ⟨hfirst, hnone⟩)
  | first before hname hleftmost hafter =>
      refine .first (c :: before) hname (fun position hposition => ?_) hafter
      cases position with
      | zero => exact hfirst
      | succ position => exact hleftmost position (Nat.lt_of_succ_lt_succ hposition)

/-- Characters in front of the first placeholder are kept. -/
theorem replacePlaceholders_append {before : List Char}
    (hleftmost : ∀ position < before.length, ¬OpensPlaceholder ((before ++ rest).drop position)) :
    replacePlaceholders replacement (before ++ rest) =
      before ++ replacePlaceholders replacement rest := by
  induction before with
  | nil => rfl
  | cons c before ih =>
      have hfirst : ¬OpensPlaceholder (c :: (before ++ rest)) :=
        hleftmost 0 (Nat.zero_lt_succ _)
      rw [List.cons_append, replacePlaceholders_cons hfirst,
        ih fun position hposition => hleftmost (position + 1) (Nat.succ_lt_succ hposition)]
      rfl

/-- The placeholders are replaced from the left, and nothing else is such a replacement. -/
theorem replaces_iff :
    Replaces replacement text result ↔ replacePlaceholders replacement text = result := by
  constructor
  · intro h
    induction h with
    | none hnone => exact replacePlaceholders_eq_self hnone
    | first before hname hleftmost _ ih =>
        rw [replacePlaceholders_append hleftmost, replacePlaceholders_placeholder hname, ih]
  · rintro rfl
    induction text using placeholder_induction with
    | nil =>
        rw [replacePlaceholders_nil]
        exact .none noPlaceholder_nil
    | filled name rest hname ih =>
        rw [replacePlaceholders_placeholder hname]
        exact .first [] hname (by simp) ih
    | kept c rest hfirst ih =>
        rw [replacePlaceholders_cons hfirst]
        exact ih.cons hfirst

/-! ## Nothing is left to replace -/

/-- A text with a character and without braces; it forms no placeholder with what is around
it. -/
structure Clears (replacement : List Char) : Prop where
  ne_nil : replacement ≠ []
  no_opening : '{' ∉ replacement
  no_closing : '}' ∉ replacement

namespace Clears

variable {brace : Char} {before : List Char}

/-- A brace at the start of the result was at the start of the text. -/
theorem exists_of_eq_cons (h : Clears replacement) (hbrace : brace = '{' ∨ brace = '}')
    (hresult : replacePlaceholders replacement text = brace :: result) :
    ∃ rest, text = brace :: rest ∧ replacePlaceholders replacement rest = result := by
  induction text using placeholder_induction with
  | nil => simp [replacePlaceholders_nil] at hresult
  | filled name rest hname _ =>
      obtain ⟨first, others, rfl⟩ := List.exists_cons_of_ne_nil h.ne_nil
      rw [replacePlaceholders_placeholder hname] at hresult
      have hfirst : first = brace := (List.cons.inj hresult).1
      rcases hbrace with rfl | rfl
      · exact absurd (hfirst ▸ List.mem_cons_self) h.no_opening
      · exact absurd (hfirst ▸ List.mem_cons_self) h.no_closing
  | kept c rest hfirst _ =>
      rw [replacePlaceholders_cons hfirst] at hresult
      obtain ⟨rfl, hrest⟩ := List.cons.inj hresult
      exact ⟨rest, rfl, hrest⟩

/-- If the first closing brace of the result is doubled, so is the first one of the text. -/
theorem exists_closing (h : Clears replacement) (hbefore : '}' ∉ before)
    (hresult : replacePlaceholders replacement text = before ++ '}' :: '}' :: result) :
    ∃ front rest, text = front ++ '}' :: '}' :: rest ∧ '}' ∉ front ∧
      (before ≠ [] → front ≠ []) := by
  induction text using placeholder_induction generalizing before with
  | nil => simp [replacePlaceholders_nil] at hresult
  | filled name rest hname _ =>
      -- the placeholder ends in the two braces
      exact ⟨'{' :: '{' :: name, rest, by simp [placeholder], by simp [hname.no_brace], by simp⟩
  | kept c rest hfirst ih =>
      rw [replacePlaceholders_cons hfirst] at hresult
      cases before with
      | nil =>
          obtain ⟨rfl, hrest⟩ := List.cons.inj hresult
          obtain ⟨others, rfl, -⟩ := h.exists_of_eq_cons (Or.inr rfl) hrest
          exact ⟨[], others, rfl, List.not_mem_nil, fun hne => absurd rfl hne⟩
      | cons d before =>
          obtain ⟨rfl, hrest⟩ := List.cons.inj hresult
          rw [List.mem_cons, not_or] at hbefore
          obtain ⟨front, others, rfl, hfront, -⟩ := ih hbefore.2 hrest
          exact ⟨c :: front, others, rfl, by simp [hbefore.1, hfront], fun _ => by simp⟩

/-- No placeholder starts at a character that was kept. -/
theorem not_opensPlaceholder (h : Clears replacement) (hfirst : ¬OpensPlaceholder (c :: text)) :
    ¬OpensPlaceholder (c :: replacePlaceholders replacement text) := by
  rintro ⟨name, rest, hname, hresult⟩
  obtain ⟨rfl, hrest⟩ := List.cons.inj hresult
  -- the second brace and the first closing ones stood in the text already
  obtain ⟨others, rfl, hothers⟩ := h.exists_of_eq_cons (Or.inl rfl) hrest
  obtain ⟨front, after, rfl, hfront, hsome⟩ :=
    h.exists_closing hname.no_brace (hothers.trans (List.append_assoc name ['}', '}'] rest))
  exact hfirst ⟨front, after, ⟨hsome hname.ne_nil, hfront⟩, by simp [placeholder]⟩

theorem noPlaceholder (h : Clears replacement) (text : List Char) :
    NoPlaceholder (replacePlaceholders replacement text) := by
  induction text using placeholder_induction with
  | nil =>
      rw [replacePlaceholders_nil]
      exact noPlaceholder_nil
  | filled name rest hname ih =>
      rw [replacePlaceholders_placeholder hname]
      exact ih.append h.no_opening
  | kept c rest hfirst ih =>
      rw [replacePlaceholders_cons hfirst]
      exact noPlaceholder_cons_iff.mpr ⟨h.not_opensPlaceholder hfirst, ih⟩

end Clears

/-- A text with a character and without braces replaces all placeholders once and for all:
from the left, with all else kept, and so that none is left to be replaced by any text. -/
theorem replacePlaceholders_clears (text replacement : List Char) (h : Clears replacement) :
    ∃ result, replacePlaceholders replacement text = result ∧
      (∀ other, Replaces replacement text other ↔ other = result) ∧ NoPlaceholder result ∧
      ∀ again, replacePlaceholders again result = result :=
  ⟨_, rfl, fun _ => replaces_iff.trans eq_comm, h.noPlaceholder text,
    fun _ => replacePlaceholders_eq_self (h.noPlaceholder text)⟩

/-- Braces that close too early and a placeholder without a name are kept. -/
theorem replacePlaceholders_clears_unnamed :
    Clears ['X'] ∧
      ∃ result, replacePlaceholders ['X']
          (['{', '{', 'b', '}'] ++ (placeholder [] ++ placeholder ['c'])) = result ∧
        result = ['{', '{', 'b', '}'] ++ (placeholder [] ++ ['X']) ∧ NoPlaceholder result ∧
        ∀ again, replacePlaceholders again result = result := by
  have hclears : Clears ['X'] := ⟨by decide, by decide, by decide⟩
  obtain ⟨result, hresult, -, hnone, hagain⟩ := replacePlaceholders_clears
    (['{', '{', 'b', '}'] ++ (placeholder [] ++ placeholder ['c'])) ['X'] hclears
  refine ⟨hclears, result, hresult, ?_, hnone, hagain⟩
  rw [← hresult]
  decide +kernel

end ArchDiagram.Text
