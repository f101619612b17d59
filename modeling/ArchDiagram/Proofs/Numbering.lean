/-
# Identifiers of items

An item is called by its instance and its name, and by a number between them if that is
taken already: by the least one that is free. Since the numbers give different
identifiers, whatever the names are made of, there is a free one, and it is found
(`firstFree_freshIdent`).
-/

import ArchDiagram.Expansion
import ArchDiagram.Proofs.Entries

namespace ArchDiagram

namespace Ident

/-- The identifier that an item gets where some are taken: its own if that is free, and
else the one with the least number from one on that is free. -/
inductive FirstFree (taken : List String) (owner item : String) : String → Prop
  | plain : namespaced owner item ∉ taken → FirstFree taken owner item (namespaced owner item)
  | numbered {n : ℕ} : namespaced owner item ∈ taken → 1 ≤ n → numbered owner n item ∉ taken →
      (∀ m, 1 ≤ m → m < n → Ident.numbered owner m item ∈ taken) →
      FirstFree taken owner item (Ident.numbered owner n item)

variable {taken : List String} {owner item ident : String}

theorem FirstFree.notMem (h : FirstFree taken owner item ident) : ident ∉ taken := by
  cases h with
  | plain hfree => exact hfree
  | numbered _ _ hfree _ => exact hfree

theorem FirstFree.eq_or (h : FirstFree taken owner item ident) :
    ident = namespaced owner item ∨ ∃ n, ident = Ident.numbered owner (n + 1) item := by
  cases h with
  | plain _ => exact Or.inl rfl
  | @numbered n _ hone _ _ =>
      refine Or.inr ⟨n - 1, ?_⟩
      rw [Nat.sub_add_cancel hone]

/-- The number can be read off, because what stands around it is the same. -/
theorem numbered_injective (owner item : String) :
    Function.Injective fun n => numbered owner n item := by
  intro n m h
  have hchars := congrArg String.toList h
  simp only [numbered, Nat.toString_eq_ofList_toDigits] at hchars
  have hdigits : Nat.toDigits 10 n = Nat.toDigits 10 m := by simpa using hchars
  have hvalues := congrArg (fun digits => Nat.ofDigitChars 10 digits 0) hdigits
  simpa using hvalues

end Ident

namespace Frame

open Ident

/-- Among one more number than there are items one gives a free identifier. -/
theorem exists_notMem_numbered (owner item : String) (taken : List String) :
    ∃ n < taken.length + 1, numbered owner (n + 1) item ∉ taken := by
  by_contra hnone
  push Not at hnone
  have hnodup : ((List.range (taken.length + 1)).map fun n => numbered owner (n + 1) item).Nodup :=
    List.nodup_range.map fun n m h => Nat.succ_injective (numbered_injective owner item h)
  have hsubset : ((List.range (taken.length + 1)).map fun n => numbered owner (n + 1) item) ⊆
      taken := by
    intro ident hident
    obtain ⟨n, hn, rfl⟩ := List.mem_map.mp hident
    exact hnone n (List.mem_range.mp hn)
  have hlength := (List.subperm_of_subset hnodup hsubset).length_le
  rw [List.length_map, List.length_range] at hlength
  exact Nat.not_succ_le_self _ hlength

/-- An item gets the first identifier that is free. -/
theorem firstFree_freshIdent (owner item : String) (placed : Entries Item) :
    FirstFree placed.names owner item (freshIdent owner item placed) := by
  unfold freshIdent
  split
  · rename_i htaken
    have hlength : placed.length = placed.names.length := by simp [Entries.names]
    obtain ⟨n, hn, hfree⟩ := exists_notMem_numbered owner item placed.names
    simp only [List.find?_map, hlength]
    cases hfound : (List.range (placed.names.length + 1)).find?
        ((fun ident => !placed.has ident) ∘ fun n => numbered owner (n + 1) item) with
    | none =>
        have htaken := List.find?_eq_none.mp hfound n (List.mem_range.mpr hn)
        simp only [Function.comp_apply, Bool.not_eq_true', Bool.not_eq_false,
          Entries.has_iff_mem_names] at htaken
        exact absurd htaken hfree
    | some found =>
        obtain ⟨hfree, -, hleast⟩ := List.find?_range_eq_some.mp hfound
        simp only [Function.comp_apply, Bool.not_eq_true', Bool.not_not,
          Entries.has_iff_mem_names, Bool.eq_false_iff, ne_eq] at hfree hleast
        refine .numbered (Entries.has_iff_mem_names.mp htaken) (Nat.succ_pos found) hfree ?_
        intro m hone hlt
        have := hleast (m - 1) (by omega)
        rwa [Nat.sub_add_cancel hone] at this
  · rename_i hfree
    rw [Entries.has_iff_mem_names] at hfree
    exact .plain hfree

end Frame

end ArchDiagram
