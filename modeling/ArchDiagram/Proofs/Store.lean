/-
# Writing to a store

What each write to a store does to the views that are kept and to the views listed
below each view. Keeping a view changes only what is kept under its name; linking
and starting anew change only the list of one view; forgetting a view changes only
what belongs to it.
-/

import ArchDiagram.Proofs.Entries
import ArchDiagram.Store

namespace ArchDiagram

namespace Entries

universe u

variable {α : Type u} {entries : Entries α} {name other : String}

theorem mem_names_iff_lookup_isSome : name ∈ names entries ↔ (entries.lookup name).isSome := by
  simp [names, List.lookup_isSome_iff]

theorem mem_names_put (value : α) :
    other ∈ names (put entries name value) ↔ other ∈ names entries ∨ other = name := by
  rw [names_put]
  split
  · rename_i hmem
    exact ⟨Or.inl, fun h => h.elim id fun heq => heq ▸ hmem⟩
  · rw [List.mem_append, List.mem_singleton]

theorem lookup_without_self (entries : Entries α) (name : String) :
    (without entries name).lookup name = none := by
  rw [List.lookup_eq_none_iff]
  intro entry hentry
  simp only [without, List.mem_filter, bne_iff_ne] at hentry
  simpa using Ne.symm hentry.2

theorem lookup_without_of_ne (entries : Entries α) (h : other ≠ name) :
    (without entries name).lookup other = entries.lookup other := by
  induction entries with
  | nil => rfl
  | cons entry rest ih =>
      obtain ⟨key, value⟩ := entry
      rw [without] at ih ⊢
      by_cases hkey : key = name
      · subst hkey
        rw [List.filter_cons_of_neg (by simp), ih, List.lookup_cons, beq_eq_false_iff_ne.mpr h]
      · rw [List.filter_cons_of_pos (by simpa using hkey), List.lookup_cons, List.lookup_cons, ih]

theorem names_without (entries : Entries α) (name : String) :
    names (without entries name) = (names entries).filter (· != name) := by
  rw [names, names, without, List.filter_map]
  rfl

end Entries

namespace Navigation

variable {navigation : Navigation} {view parent child name : String}

theorem children_reset_self (navigation : Navigation) (view : String) :
    (navigation.reset view).children view = [] := by
  simp [children, reset, Entries.lookup_put_self]

theorem lookup_reset_of_ne (navigation : Navigation) (h : name ≠ view) :
    (navigation.reset view).lookup name = navigation.lookup name :=
  Entries.lookup_put_of_ne _ _ h

theorem children_reset_of_ne (navigation : Navigation) (h : name ≠ view) :
    (navigation.reset view).children name = navigation.children name := by
  rw [children, children, lookup_reset_of_ne navigation h]

theorem lookup_link_of_ne (navigation : Navigation) (child : String) (h : name ≠ parent) :
    (navigation.link parent child).lookup name = navigation.lookup name :=
  Entries.lookup_put_of_ne _ _ h

theorem mem_children_link_self :
    name ∈ (navigation.link parent child).children parent ↔
      name ∈ navigation.children parent ∨ name = child := by
  have hlist : (navigation.link parent child).children parent =
      if child ∈ navigation.children parent then navigation.children parent
      else navigation.children parent ++ [child] := by
    rw [children, link, Entries.lookup_put_self]
    rfl
  rw [hlist]
  by_cases hchild : child ∈ navigation.children parent
  · rw [if_pos hchild]
    exact ⟨Or.inl, fun h => h.elim id fun heq => heq ▸ hchild⟩
  · rw [if_neg hchild, List.mem_append, List.mem_singleton]

end Navigation

namespace Store

variable {store : Store} {name other parent child : String} {view : View}

theorem contains_iff : store.contains name ↔ ∃ view, store.get? name = some view := by
  simp [contains, Entries.has, get?, Option.isSome_iff_exists]

theorem not_contains_iff : ¬store.contains name ↔ store.get? name = none := by
  rw [contains_iff, not_exists, Option.eq_none_iff_forall_ne_some]

@[simp]
theorem get?_empty (name : String) : empty.get? name = none := rfl

@[simp]
theorem get?_resetNavigation (store : Store) (name other : String) :
    (store.resetNavigation name).get? other = store.get? other := rfl

@[simp]
theorem contains_resetNavigation (store : Store) (name other : String) :
    (store.resetNavigation name).contains other = store.contains other := rfl

@[simp]
theorem get?_link (store : Store) (parent child other : String) :
    (store.link parent child).get? other = store.get? other := rfl

@[simp]
theorem get?_insert_self (store : Store) (name : String) (view : View) :
    (store.insert name view).get? name = some view :=
  Entries.lookup_put_self _ _ _

theorem get?_insert_of_ne (store : Store) (view : View) (h : other ≠ name) :
    (store.insert name view).get? other = store.get? other :=
  Entries.lookup_put_of_ne _ _ h

@[simp]
theorem navigation_insert (store : Store) (name : String) (view : View) :
    (store.insert name view).navigation = store.navigation := rfl

theorem contains_insert :
    (store.insert name view).contains other ↔ store.contains other ∨ other = name := by
  by_cases h : other = name
  · subst h
    simp [contains_iff]
  · simp [contains_iff, get?_insert_of_ne store view h, h]

@[simp]
theorem get?_invalidate_self (store : Store) (name : String) :
    (store.invalidate name).get? name = none :=
  Entries.lookup_without_self _ _

theorem get?_invalidate_of_ne (store : Store) (h : other ≠ name) :
    (store.invalidate name).get? other = store.get? other :=
  Entries.lookup_without_of_ne _ h

theorem contains_invalidate :
    (store.invalidate name).contains other ↔ store.contains other ∧ other ≠ name := by
  by_cases h : other = name
  · subst h
    simp [contains_iff]
  · simp [contains_iff, get?_invalidate_of_ne store h, h]

/-- What is kept after a view has been forgotten was kept before. -/
theorem get?_of_get?_invalidate (h : (store.invalidate name).get? other = some view) :
    store.get? other = some view := by
  by_cases heq : other = name
  · rw [heq, get?_invalidate_self] at h
    cases h
  · rwa [get?_invalidate_of_ne _ heq] at h

/-! ## Entering a view below another one -/

/-- The store once the view `name` can be had: it is entered below the view that asks
for it, unless that is the view itself. -/
def linked (store : Store) (parent name : String) : Store :=
  if name = parent then store else store.link parent name

@[simp]
theorem get?_linked (store : Store) (parent name other : String) :
    (store.linked parent name).get? other = store.get? other := by
  unfold linked
  split <;> rfl

@[simp]
theorem views_linked (store : Store) (parent name : String) :
    (store.linked parent name).views = store.views := by
  unfold linked
  split <;> rfl

@[simp]
theorem contains_linked (store : Store) (parent name other : String) :
    (store.linked parent name).contains other = store.contains other := by
  simp [contains]

theorem lookup_linked_of_ne (store : Store) (name : String) (h : other ≠ parent) :
    (store.linked parent name).navigation.lookup other = store.navigation.lookup other := by
  unfold linked
  split
  · rfl
  · exact Navigation.lookup_link_of_ne _ _ h

theorem children_linked_of_ne (store : Store) (name : String) (h : other ≠ parent) :
    (store.linked parent name).navigation.children other = store.navigation.children other := by
  rw [Navigation.children, Navigation.children, store.lookup_linked_of_ne name h]

/-- Linking adds one view to a list, and only one that is another view. -/
theorem mem_children_linked_self :
    other ∈ (store.linked parent name).navigation.children parent ↔
      other ∈ store.navigation.children parent ∨ (other = name ∧ name ≠ parent) := by
  unfold linked
  split
  · simp_all
  · rename_i hne
    simp [link, Navigation.mem_children_link_self, hne]

theorem mem_children_of_mem_children_linked {view : String}
    (h : other ∈ (store.linked parent name).navigation.children view) :
    other ∈ store.navigation.children view ∨ other = name := by
  by_cases heq : view = parent
  · subst heq
    exact (mem_children_linked_self.mp h).imp id And.left
  · rw [children_linked_of_ne store name heq] at h
    exact Or.inl h

/-- Linking takes nothing out of any list. -/
theorem children_subset_linked (store : Store) (parent name other : String) :
    store.navigation.children other ⊆ (store.linked parent name).navigation.children other := by
  intro child hchild
  by_cases h : other = parent
  · subst h
    exact mem_children_linked_self.mpr (Or.inl hchild)
  · rwa [children_linked_of_ne store name h]

end Store

end ArchDiagram
