/-
# Collecting pairs

What is in a collection was put there. Pairs with different names are collected
as they stand (`collect_eq_self`). It does not matter whether pairs are collected
before they are put into entries (`putAll_collect`).
-/

import ArchDiagram.Entries
import Mathlib.Tactic

namespace ArchDiagram.Entries

universe u

variable {α : Type u} {entries : Entries α} {name : String} {value : α} {entry : String × α}

theorem mem_of_mem_put (h : entry ∈ put entries name value) :
    entry ∈ entries ∨ entry = (name, value) := by
  induction entries with
  | nil =>
      obtain rfl := List.mem_singleton.mp h
      exact Or.inr rfl
  | cons first rest ih =>
      obtain ⟨other, old⟩ := first
      simp only [put] at h
      split at h
      · rename_i hname
        rcases List.mem_cons.mp h with rfl | h
        · exact Or.inr (by rw [hname])
        · exact Or.inl (List.mem_cons_of_mem _ h)
      · rcases List.mem_cons.mp h with rfl | h
        · exact Or.inl List.mem_cons_self
        · exact (ih h).imp_left (List.mem_cons_of_mem _)

theorem mem_of_mem_putAll {pairs : List (String × α)} (h : entry ∈ putAll entries pairs) :
    entry ∈ entries ∨ entry ∈ pairs := by
  induction pairs generalizing entries with
  | nil => exact Or.inl h
  | cons pair rest ih =>
      rcases ih h with hput | hrest
      · rcases mem_of_mem_put hput with hold | rfl
        · exact Or.inl hold
        · exact Or.inr List.mem_cons_self
      · exact Or.inr (List.mem_cons_of_mem _ hrest)

/-- A collection has only pairs it was made of. -/
theorem mem_of_mem_collect {pairs : List (String × α)} (h : entry ∈ collect pairs) :
    entry ∈ pairs :=
  (mem_of_mem_putAll h).resolve_left List.not_mem_nil

theorem put_ne_nil (entries : Entries α) (name : String) (value : α) :
    put entries name value ≠ [] := by
  cases entries with
  | nil => exact List.cons_ne_nil _ _
  | cons first rest =>
      rw [put]
      split
      · exact List.cons_ne_nil _ _
      · exact List.cons_ne_nil _ _

theorem putAll_ne_nil {pairs : List (String × α)} (h : entries ≠ []) :
    putAll entries pairs ≠ [] := by
  induction pairs generalizing entries with
  | nil => exact h
  | cons pair rest ih => exact ih (put_ne_nil entries pair.1 pair.2)

theorem collect_ne_nil {pairs : List (String × α)} (h : pairs ≠ []) : collect pairs ≠ [] := by
  obtain ⟨pair, rest, rfl⟩ := List.exists_cons_of_ne_nil h
  change putAll (put [] pair.1 pair.2) rest ≠ []
  exact putAll_ne_nil (put_ne_nil [] pair.1 pair.2)

theorem put_of_notMem (h : name ∉ names entries) (value : α) :
    put entries name value = entries ++ [(name, value)] := by
  induction entries with
  | nil => rfl
  | cons first rest ih =>
      obtain ⟨other, old⟩ := first
      rw [names, List.map_cons, List.mem_cons, not_or] at h
      rw [put, if_neg (Ne.symm h.1), ih h.2, List.cons_append]

theorem putAll_eq_append {pairs : List (String × α)} (h : (names (entries ++ pairs)).Nodup) :
    putAll entries pairs = entries ++ pairs := by
  induction pairs generalizing entries with
  | nil => exact (List.append_nil entries).symm
  | cons pair rest ih =>
      obtain ⟨name, value⟩ := pair
      -- a name that is new goes to the end, so the pairs keep their order
      have hnew : name ∉ names entries := by
        intro hmem
        rw [names, List.map_append, List.nodup_append] at h
        exact h.2.2 name hmem name (by simp) rfl
      have hsplit : entries ++ (name, value) :: rest = entries ++ [(name, value)] ++ rest := by simp
      rw [hsplit] at h ⊢
      rw [← ih h, putAll, List.foldl_cons, put_of_notMem hnew]
      rfl

/-- Pairs with different names are collected as they stand. -/
theorem collect_eq_self {pairs : List (String × α)} (h : (names pairs).Nodup) :
    collect pairs = pairs :=
  putAll_eq_append h

theorem lookup_map {β : Type u} (f : α → β) (entries : Entries α) (name : String) :
    (entries.map fun entry => (entry.1, f entry.2)).lookup name = (entries.lookup name).map f := by
  induction entries with
  | nil => rfl
  | cons first rest ih =>
      rw [List.map_cons, List.lookup_cons, List.lookup_cons, ih]
      split <;> rfl

theorem names_append (first second : Entries α) :
    names (first ++ second) = names first ++ names second :=
  List.map_append

/-- What stands under a name does not depend on the order of different names. -/
theorem lookup_eq_of_perm {entries' : Entries α} (hnodup : (names entries).Nodup)
    (h : entries.Perm entries') (name : String) : entries.lookup name = entries'.lookup name := by
  induction h with
  | nil => rfl
  | cons entry hrest ih =>
      rw [List.lookup_cons, List.lookup_cons, ih (List.nodup_cons.mp hnodup).2]
  | swap first second rest =>
      obtain ⟨key, value⟩ := first
      obtain ⟨other, old⟩ := second
      -- of two different names at most one is the name asked for
      have hne : other ≠ key := fun heq =>
        (List.nodup_cons.mp hnodup).1 (heq ▸ List.mem_cons_self)
      by_cases hkey : name = key
      · simp [List.lookup_cons, hkey, beq_eq_false_iff_ne.mpr hne.symm]
      · simp [List.lookup_cons, beq_eq_false_iff_ne.mpr hkey]
  | trans hfirst _ ih ih' =>
      exact (ih hnodup).trans (ih' ((hfirst.map Prod.fst).nodup_iff.mp hnodup))

theorem has_iff_mem_names : entries.has name ↔ name ∈ entries.names := by
  simp [has, names, List.lookup_isSome_iff]

theorem lookup_eq_none_iff_notMem : entries.lookup name = none ↔ name ∉ entries.names := by
  rw [← has_iff_mem_names, has, Bool.not_eq_true, Option.isSome_eq_false_iff,
    Option.isNone_iff_eq_none]

/-- Under different names what is found is what is there. -/
theorem lookup_eq_some_iff_mem (hnodup : (names entries).Nodup) :
    entries.lookup name = some value ↔ (name, value) ∈ entries := by
  induction entries with
  | nil => simp
  | cons entry rest ih =>
      obtain ⟨other, old⟩ := entry
      have hrest := ih (List.nodup_cons.mp hnodup).2
      by_cases hname : name = other
      · subst hname
        have hnew : (name, value) ∉ rest := fun h =>
          (List.nodup_cons.mp hnodup).1 (List.mem_map.mpr ⟨_, h, rfl⟩)
        simp [hnew, eq_comm]
      · simp [List.lookup_cons, beq_eq_false_iff_ne.mpr hname, hname, hrest]

/-- A selection by names keeps what stands under them. -/
theorem lookup_filter (selected : String → Bool) (entries : Entries α) (name : String) :
    (entries.filter fun entry => selected entry.1).lookup name =
      if selected name then entries.lookup name else none := by
  induction entries with
  | nil => simp
  | cons entry rest ih =>
      obtain ⟨other, old⟩ := entry
      by_cases hname : name = other
      · subst hname
        cases hselected : selected name with
        | false => simpa [List.filter_cons, hselected] using ih
        | true => simp [hselected]
      · rw [List.filter_cons]
        split
        · simp [List.lookup_cons, beq_eq_false_iff_ne.mpr hname, ih]
        · simp [List.lookup_cons, beq_eq_false_iff_ne.mpr hname, ih]

/-! ## Putting entries together -/

theorem putAll_cons (entries : Entries α) (pair : String × α) (rest : List (String × α)) :
    putAll entries (pair :: rest) = putAll (put entries pair.1 pair.2) rest := rfl

/-- Of several values put under a name the last one is found. -/
theorem lookup_putAll (entries : Entries α) (pairs : List (String × α)) (name : String) :
    (putAll entries pairs).lookup name =
      (pairs.reverse.lookup name).or (entries.lookup name) := by
  induction pairs generalizing entries with
  | nil => rfl
  | cons pair rest ih =>
      obtain ⟨given, value⟩ := pair
      rw [putAll_cons, ih, List.reverse_cons, List.lookup_append, Option.or_assoc]
      congr 1
      by_cases hname : name = given
      · subst hname
        simp [lookup_put_self]
      · simp [lookup_put_of_ne _ _ hname, List.lookup_cons, beq_eq_false_iff_ne.mpr hname]

theorem put_put_self (entries : Entries α) (name : String) (old value : α) :
    put (put entries name old) name value = put entries name value := by
  induction entries with
  | nil => simp [put]
  | cons first rest ih =>
      obtain ⟨other, kept⟩ := first
      by_cases hname : other = name
      · simp [put, hname]
      · simp [put, hname, ih]

/-- A name that is there already keeps its place, so it does not matter whether another one
comes before. -/
theorem put_put_of_mem {other : String} (h : name ∈ names entries) (hne : other ≠ name)
    (value added : α) :
    put (put entries other added) name value = put (put entries name value) other added := by
  induction entries with
  | nil => simp [names] at h
  | cons first rest ih =>
      obtain ⟨key, kept⟩ := first
      by_cases hkey : key = name
      · subst hkey
        simp [put, hne.symm]
      · have hrest : name ∈ names rest := by
          rw [names, List.map_cons, List.mem_cons] at h
          exact h.resolve_left fun heq => hkey heq.symm
        by_cases hother : key = other
        · subst hother
          simp [put, hne]
        · simp [put, hkey, hother, ih hrest]

theorem put_putAll_of_mem {pairs : List (String × α)} (h : name ∈ names entries)
    (hnew : name ∉ names pairs) (value : α) :
    put (putAll entries pairs) name value = putAll (put entries name value) pairs := by
  induction pairs generalizing entries with
  | nil => rfl
  | cons pair rest ih =>
      rw [names, List.map_cons, List.mem_cons, not_or] at hnew
      have hmem : name ∈ names (put entries pair.1 pair.2) := by
        rw [names_put]
        split
        · exact h
        · exact List.mem_append_left _ h
      rw [putAll_cons, ih hmem hnew.2, put_put_of_mem h (Ne.symm hnew.1), putAll_cons]

/-- Putting one more pair into entries and then all of them somewhere is putting them there
and then that pair. -/
theorem putAll_put {added : Entries α} (h : (names added).Nodup) (entries : Entries α)
    (name : String) (value : α) :
    putAll entries (put added name value) = put (putAll entries added) name value := by
  induction added generalizing entries with
  | nil => rfl
  | cons first rest ih =>
      obtain ⟨other, old⟩ := first
      obtain ⟨hother, hrest⟩ := List.nodup_cons.mp h
      by_cases hname : other = name
      · subst hname
        have hmem : other ∈ names (put entries other old) := by
          rw [names_put]
          split <;> simp_all
        rw [put, if_pos rfl, putAll_cons, putAll_cons, put_putAll_of_mem hmem hother, put_put_self]
      · rw [put, if_neg hname, putAll_cons, putAll_cons, ih hrest]

/-- What is put into entries that are put somewhere can be put there afterwards. -/
theorem putAll_putAll {added : Entries α} (h : (names added).Nodup) (entries : Entries α)
    (pairs : List (String × α)) :
    putAll entries (putAll added pairs) = putAll (putAll entries added) pairs := by
  induction pairs generalizing added with
  | nil => rfl
  | cons pair rest ih =>
      have hnodup := nodup_names_put pair.1 pair.2 h
      rw [putAll_cons, putAll_cons, ih hnodup, putAll_put h]

/-- Collecting pairs first makes no difference to what they are put into. -/
theorem putAll_collect (entries : Entries α) (pairs : List (String × α)) :
    putAll entries (collect pairs) = putAll entries pairs :=
  putAll_putAll (by simp [names]) entries pairs

theorem collect_append (first second : List (String × α)) :
    collect (first ++ second) = putAll (collect first) second :=
  List.foldl_append

theorem filter_put (selected : String → Bool) (entries : Entries α) (name : String) (value : α) :
    (put entries name value).filter (fun entry => selected entry.1) =
      if selected name then put (entries.filter fun entry => selected entry.1) name value
      else entries.filter fun entry => selected entry.1 := by
  induction entries with
  | nil =>
      cases hname : selected name <;> simp [put, hname]
  | cons entry rest ih =>
      obtain ⟨other, old⟩ := entry
      by_cases hsame : other = name
      · subst hsame
        cases hname : selected other <;> simp [put, hname]
      · simp only [put, if_neg hsame, List.filter_cons, ih]
        cases hother : selected other <;> cases hname : selected name <;>
          simp [put, hsame]

theorem filter_putAll (selected : String → Bool) (entries : Entries α)
    (pairs : List (String × α)) :
    (putAll entries pairs).filter (fun entry => selected entry.1) =
      putAll (entries.filter fun entry => selected entry.1)
        (pairs.filter fun pair => selected pair.1) := by
  induction pairs generalizing entries with
  | nil => rfl
  | cons pair rest ih =>
      rw [putAll_cons, ih, filter_put, List.filter_cons]
      split <;> rfl

/-- Pairs can be selected by their names before they are collected. -/
theorem filter_collect (selected : String → Bool) (pairs : List (String × α)) :
    (collect pairs).filter (fun entry => selected entry.1) =
      collect (pairs.filter fun pair => selected pair.1) :=
  filter_putAll selected [] pairs

end ArchDiagram.Entries
