/-
# Entries: named values in the order of their names

Diagrams, templates and views keep their parts under names, and the order in
which the names were first given is part of the meaning. Putting a value under
a name that is already there keeps the place and replaces the value; a new name
goes to the end. Consequently a collection built by `put` alone names nothing
twice (`nodup_names_collect`).
-/

namespace ArchDiagram

universe u

/-- Values under names, in the order in which the names were first given. -/
abbrev Entries (α : Type u) := List (String × α)

namespace Entries

variable {α : Type u}

/-- The names, in order. -/
def names (entries : Entries α) : List String :=
  entries.map Prod.fst

/-- Put `value` under `name`: a name already present keeps its place, a new one
goes to the end. -/
def put (entries : Entries α) (name : String) (value : α) : Entries α :=
  match entries with
  | [] => [(name, value)]
  | (other, old) :: rest =>
      if other = name then (other, value) :: rest else (other, old) :: put rest name value

/-- Whether something is kept under `name`. -/
def has (entries : Entries α) (name : String) : Bool :=
  (entries.lookup name).isSome

/-- Everything except what is kept under `name`. -/
def without (entries : Entries α) (name : String) : Entries α :=
  entries.filter fun entry => entry.1 != name

/-- Put the pairs of a list one after the other into `entries`. -/
def putAll (entries : Entries α) (pairs : List (String × α)) : Entries α :=
  pairs.foldl (fun kept pair => put kept pair.1 pair.2) entries

/-- The entries a list of pairs stands for: of a repeated name the first place
and the last value count. -/
def collect (pairs : List (String × α)) : Entries α :=
  putAll [] pairs

theorem names_put (entries : Entries α) (name : String) (value : α) :
    names (put entries name value) =
      if name ∈ names entries then names entries else names entries ++ [name] := by
  induction entries with
  | nil => simp [put, names]
  | cons entry rest ih =>
      obtain ⟨other, old⟩ := entry
      simp only [names] at ih ⊢
      by_cases hname : other = name
      · simp [put, hname]
      · have hother : ¬name = other := fun h => hname h.symm
        simp only [put, if_neg hname, List.map_cons, ih, List.mem_cons, hother, false_or]
        by_cases hin : name ∈ rest.map Prod.fst <;> simp [hin]

theorem lookup_put_self (entries : Entries α) (name : String) (value : α) :
    (put entries name value).lookup name = some value := by
  induction entries with
  | nil => simp [put]
  | cons entry rest ih =>
      obtain ⟨other, old⟩ := entry
      by_cases hname : other = name
      · simp [put, hname]
      · have hother : (name == other) = false := by simpa using fun h => hname h.symm
        simp [put, hname, hother, ih, List.lookup_cons]

theorem lookup_put_of_ne (entries : Entries α) {name asked : String} (value : α)
    (hne : asked ≠ name) : (put entries name value).lookup asked = entries.lookup asked := by
  have htest : (asked == name) = false := beq_eq_false_iff_ne.mpr hne
  induction entries with
  | nil => simp [put, List.lookup_cons, htest]
  | cons entry rest ih =>
      obtain ⟨other, old⟩ := entry
      by_cases hname : other = name
      · subst hname
        simp [put, List.lookup_cons, htest]
      · simp [put, hname, List.lookup_cons, ih]

theorem nodup_names_put {entries : Entries α} (name : String) (value : α)
    (hnodup : (names entries).Nodup) : (names (put entries name value)).Nodup := by
  rw [names_put]
  split
  · exact hnodup
  · rename_i hnew
    refine List.nodup_append.mpr ⟨hnodup, by simp, ?_⟩
    rintro a ha b hb rfl
    exact hnew (by simpa using (List.mem_singleton.mp hb) ▸ ha)

theorem nodup_names_putAll {entries : Entries α} (pairs : List (String × α))
    (hnodup : (names entries).Nodup) : (names (putAll entries pairs)).Nodup := by
  induction pairs generalizing entries with
  | nil => exact hnodup
  | cons pair rest ih => exact ih (nodup_names_put pair.1 pair.2 hnodup)

theorem nodup_names_collect (pairs : List (String × α)) : (names (collect pairs)).Nodup :=
  nodup_names_putAll pairs (by simp [names])

end Entries

end ArchDiagram
