/-
# What the navigation has entries for

Between two requests the navigation has an entry for each view that is kept, and for no other
one. While views are being built it also has entries for these, so this is what a step
preserves (`mirrors_perform`). The lists in the entries name no view twice, and never the view
whose list it is; therefore the roots are the views that no other view leads to
(`navigation_serveAll`).
-/

import ArchDiagram.Proofs.Viewer.Requests

namespace ArchDiagram

namespace Navigation

/-- Each list names no view twice, and not the view whose list it is. -/
def Proper (navigation : Navigation) : Prop :=
  ∀ entry ∈ navigation, entry.2.Nodup ∧ entry.1 ∉ entry.2

variable {navigation : Navigation} {view parent child : String}

theorem Proper.children (h : navigation.Proper) (view : String) :
    (navigation.children view).Nodup ∧ view ∉ navigation.children view := by
  rw [Navigation.children]
  cases hlist : navigation.lookup view with
  | none => simp
  | some list =>
      obtain ⟨before, after, heq, -⟩ := List.lookup_eq_some_iff.mp hlist
      exact h (view, list) (by rw [heq]; simp)

theorem Proper.put (h : navigation.Proper) {list : List String} (hlist : list.Nodup)
    (hview : view ∉ list) : Proper (Entries.put navigation view list) := by
  intro entry hentry
  rcases Entries.mem_of_mem_put hentry with hold | rfl
  · exact h entry hold
  · exact ⟨hlist, hview⟩

theorem Proper.reset (h : navigation.Proper) (view : String) : (navigation.reset view).Proper :=
  h.put List.nodup_nil List.not_mem_nil

theorem Proper.link (h : navigation.Proper) (hne : child ≠ parent) :
    (navigation.link parent child).Proper := by
  obtain ⟨hnodup, hparent⟩ := h.children parent
  rw [Navigation.link]
  split
  · exact h.put hnodup hparent
  · rename_i hnew
    refine h.put (List.nodup_append.mpr ⟨hnodup, List.nodup_singleton child, ?_⟩) ?_
    · -- the child is entered once
      rintro other hother _ hchild rfl
      exact hnew (List.mem_singleton.mp hchild ▸ hother)
    · rw [List.mem_append, List.mem_singleton]
      exact fun hmem => hmem.elim hparent fun heq => hne heq.symm

/-- In such a navigation the roots are the views that no other view leads to. -/
theorem Proper.roots (h : navigation.Proper) :
    navigation.roots = (Entries.names navigation).filter fun view =>
      decide (∀ entry ∈ navigation, entry.1 ≠ view → view ∉ entry.2) := by
  rw [Navigation.roots]
  refine List.filter_congr fun view _ => ?_
  rw [Bool.eq_iff_iff, Bool.not_eq_true', List.any_eq_false, decide_eq_true_iff]
  refine forall₂_congr fun entry hentry => ?_
  rw [List.contains_iff_mem]
  -- that the view is not in its own list need not be asked
  refine ⟨fun hout _ => hout, fun hout hmem => ?_⟩
  by_cases heq : entry.1 = view
  · exact (h entry hentry).2 (heq ▸ hmem)
  · exact hout heq hmem

end Navigation

namespace Store

/-- The navigation has entries exactly for the views that are kept and for those that have been
opened, one for each, and its lists are proper. -/
structure Mirrors (store : Store) (opened : List String) : Prop where
  names : ∀ name, name ∈ Entries.names store.navigation ↔ store.contains name ∨ name ∈ opened
  nodup : (Entries.names store.navigation).Nodup
  proper : store.navigation.Proper

namespace Mirrors

variable {store : Store} {opened : List String} {parent name : String}

theorem empty : Store.empty.Mirrors [] := by
  refine ⟨fun name => ?_, List.nodup_nil, fun _ => False.elim ∘ List.not_mem_nil⟩
  simp [Store.empty, Entries.names, contains, Entries.has]

theorem resetNavigation (h : store.Mirrors opened) (name : String) :
    (store.resetNavigation name).Mirrors (name :: opened) where
  names other := by
    have hput : other ∈ Entries.names (store.resetNavigation name).navigation ↔
        other ∈ Entries.names store.navigation ∨ other = name := Entries.mem_names_put []
    rw [hput, h.names, contains_resetNavigation, List.mem_cons]
    tauto
  nodup := Entries.nodup_names_put name [] h.nodup
  proper := h.proper.reset name

/-- Linking adds no entry, because the view that a step belongs to has been opened. -/
theorem linked (h : store.Mirrors opened) (hparent : parent ∈ opened) (name : String) :
    (store.linked parent name).Mirrors opened := by
  unfold Store.linked
  split
  · exact h
  · rename_i hne
    refine ⟨fun other => ?_, Entries.nodup_names_put parent _ h.nodup, h.proper.link hne⟩
    have hput : other ∈ Entries.names (store.link parent name).navigation ↔
        other ∈ Entries.names store.navigation ∨ other = parent := Entries.mem_names_put _
    have hkept : (store.link parent name).contains other = store.contains other := rfl
    rw [hput, h.names, hkept]
    exact ⟨fun hother => hother.elim id fun heq => Or.inr (heq ▸ hparent), Or.inl⟩

/-- A view that has been opened is kept. -/
theorem insert (h : store.Mirrors (name :: opened)) (view : View) :
    (store.insert name view).Mirrors opened where
  names other := by
    rw [navigation_insert, h.names, contains_insert, List.mem_cons]
    tauto
  nodup := h.nodup
  proper := h.proper

/-- A view is forgotten together with its entry. -/
theorem invalidate (h : store.Mirrors []) (name : String) :
    (store.invalidate name).Mirrors [] := by
  have hnames : Entries.names (store.invalidate name).navigation =
      (Entries.names store.navigation).filter (· != name) := Entries.names_without _ _
  refine ⟨fun other => ?_, ?_, fun entry hentry => h.proper entry (List.mem_of_mem_filter hentry)⟩
  · simp [hnames, h.names, contains_invalidate]
  · rw [hnames]
    exact h.nodup.filter _

end Mirrors

end Store

/-- Carrying out steps opens views and keeps them all. -/
theorem Registry.mirrors_perform {registry : Registry} {properties : Entries Property}
    {parent : String} {building : List String} {store : Store} {steps : List Step}
    {opened : List String} (h : store.Mirrors opened) (hparent : parent ∈ opened) :
    (registry.perform properties parent building store steps).store.Mirrors opened := by
  induction parent, building, store, steps using perform_induction registry properties
    generalizing opened with
  | nil parent building store => rwa [perform_nil]
  | note parent building store event rest ih =>
      rw [perform_note]
      exact ih h hparent
  | held parent building store name chain swaps rest hheld ih =>
      rw [perform_held hheld]
      exact ih (h.linked hparent name) hparent
  | missing parent building store name chain swaps rest hheld hmissing ih =>
      rw [perform_missing hheld hmissing]
      exact ih h hparent
  | build parent building store name chain swaps rest template hheld hfound ihInner ihRest =>
      rw [perform_build hheld hfound]
      -- the view has an entry from its beginning on, and is kept when it is finished
      have hinner := ihInner (h.resetNavigation name) List.mem_cons_self
      exact ihRest ((hinner.insert _).linked hparent name) hparent

namespace Viewer

variable {viewer : Viewer}

theorem mirrors_view (h : viewer.store.Mirrors []) (name : String) :
    (viewer.view name).1.store.Mirrors [] := by
  rcases viewer.view_cases name with ⟨hsame, -⟩ | ⟨opening, -, -, hopened⟩
  · rwa [hsame]
  · rw [hopened]
    exact (Registry.mirrors_perform (h.resetNavigation name) List.mem_cons_self).insert _

theorem mirrors_load (h : viewer.store.Mirrors []) (text : String) :
    (viewer.load text).1.store.Mirrors [] := by
  cases hparse : Document.parse text with
  | error fault => rwa [load_of_fault hparse]
  | ok architectures =>
      rw [load_of_parse hparse]
      exact List.foldlRecOn (motive := fun (store : Store) => store.Mirrors []) _ _ h
        fun store hstore name _ => hstore.invalidate name

theorem mirrors_serve (h : viewer.store.Mirrors []) (request : Request) :
    (viewer.serve request).store.Mirrors [] := by
  cases request with
  | load text => exact mirrors_load h text
  | visit visit =>
      cases visit with
      | view name => exact mirrors_view h name
      | invalidate name => exact h.invalidate name
      | navigation => exact h

theorem mirrors_serveAll (h : viewer.store.Mirrors []) (requests : List Request) :
    (viewer.serveAll requests).store.Mirrors [] := by
  induction requests generalizing viewer with
  | nil => exact h
  | cons request rest ih => exact ih (mirrors_serve h request)

/-- Whatever a viewer has been asked for, its navigation has one entry for each view that it
keeps and no others. No list names a view twice or the view whose list it is, and the roots that
are reported are the views that no other view leads to, in the order of the entries. -/
theorem navigation_serveAll (registry : Registry) (requests : List Request) :
    let viewer := (start registry).serveAll requests
    let navigation := viewer.store.navigation
    let roots := (Entries.names navigation).filter fun name =>
      decide (∀ entry ∈ navigation, entry.1 ≠ name → name ∉ entry.2)
    (∀ name, name ∈ Entries.names navigation ↔ viewer.store.contains name) ∧
      (Entries.names navigation).Nodup ∧
      (∀ entry ∈ navigation, entry.2.Nodup ∧ entry.1 ∉ entry.2) ∧
      viewer.navigation.toJson = .object [("ok", .bool true),
        ("navigation", navigation.toJson), ("roots", .array (roots.map .string))] := by
  intro viewer navigation roots
  have hmirrors : viewer.store.Mirrors [] := mirrors_serveAll .empty requests
  refine ⟨fun name => by simpa using hmirrors.names name, hmirrors.nodup, hmirrors.proper, ?_⟩
  have hroots : navigation.roots = roots := hmirrors.proper.roots
  rw [← hroots]
  rfl

end Viewer

end ArchDiagram
