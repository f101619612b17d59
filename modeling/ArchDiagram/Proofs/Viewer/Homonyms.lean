/-
# Architectures and details of one name

An architecture and a detail may have the same name, and then their views have one place
between them. Whichever comes first is kept there and is shown from then on. If no view was
kept under the name when it was first asked for, then it is the architecture that is shown,
and what its items open is listed below it; otherwise a view of the detail, which was built
when something else was opened (`toJson_view_homonym`).
-/

import ArchDiagram.Proofs.Flattening
import ArchDiagram.Proofs.Keeping
import ArchDiagram.Proofs.Viewer.Drilling
import ArchDiagram.Proofs.Viewer.Evaluation

namespace ArchDiagram

namespace Viewer

variable {viewer : Viewer} {root name : String} {view : View}

/-! ### Asking for views only -/

/-- Once a view has been asked for, it is kept as it was shown. -/
theorem get?_view_self (viewer : Viewer) (root : String) :
    (viewer.view root).1.store.get? root = viewer.shown? root := by
  rcases viewer.view_cases root with ⟨hsame, hkept | hnone⟩ | ⟨opening, hkept, hopening, hopened⟩
  · obtain ⟨view, hview⟩ := Store.contains_iff.mp hkept
    rw [hsame, hview, shown?_of_get? hview]
  · rw [hsame, shown?, Registry.viewAlone?, hnone, Option.map_none, Option.or_none]
  · rw [hopened, Store.get?_insert_self, shown?, hkept, Registry.viewAlone?, hopening]
    rfl

/-- Asking for views changes neither a view that is kept nor what is listed below it. -/
theorem kept_visitAll_view (h : viewer.store.get? root = some view) (names : List String) :
    (viewer.visitAll (names.map .view)).store.get? root = some view ∧
      (viewer.visitAll (names.map .view)).store.navigation.lookup root =
        viewer.store.navigation.lookup root := by
  induction names generalizing viewer with
  | nil => exact ⟨h, rfl⟩
  | cons name rest ih =>
      change ((viewer.view name).1.visitAll (rest.map .view)).store.get? root = some view ∧
        ((viewer.view name).1.visitAll (rest.map .view)).store.navigation.lookup root = _
      by_cases heq : name = root
      -- the view itself is asked for again, and nothing happens
      · rw [heq, view_of_get? h]
        exact ih h
      · have hextends : viewer.store.Extends [name] (viewer.view name).1.store :=
          (Session.start viewer.store).extends_viewOf viewer.registry name
        obtain ⟨hview, hlist⟩ := ih (hextends.views root view h)
        refine ⟨hview, hlist.trans (hextends.lists root (Store.contains_iff.mpr ⟨view, h⟩) ?_)⟩
        rw [List.mem_singleton]
        exact Ne.symm heq

/-- What is shown under a name and listed below it is settled when the name is first asked
for. -/
theorem settled_visitAll_view (viewer : Viewer) {root : String}
    (hopens : (viewer.registry.viewAlone? root).isSome) (names : List String) :
    let before := viewer.visitAll ((names.takeWhile (· != root)).map .view)
    let after := viewer.visitAll (names.map .view)
    (after.view root).1.store.get? root = (before.view root).1.store.get? root ∧
      (after.view root).1.store.navigation.lookup root =
        (before.view root).1.store.navigation.lookup root := by
  induction names generalizing viewer with
  | nil => exact ⟨rfl, rfl⟩
  | cons name rest ih =>
      by_cases heq : name = root
      -- from here on the view is kept
      · subst heq
        obtain ⟨view, hview⟩ := Store.contains_iff.mp (contains_view (Or.inr ⟨rfl, hopens⟩))
        obtain ⟨hkept, hlist⟩ := kept_visitAll_view hview rest
        rw [List.takeWhile_cons_of_neg (by simp)]
        change (((viewer.view name).1.visitAll (rest.map .view)).view name).1.store.get? name =
            (viewer.view name).1.store.get? name ∧
          (((viewer.view name).1.visitAll (rest.map .view)).view name).1.store.navigation.lookup
            name = (viewer.view name).1.store.navigation.lookup name
        rw [view_of_get? hkept]
        exact ⟨hkept.trans hview.symm, hlist⟩
      · rw [List.takeWhile_cons_of_pos (by simpa using heq)]
        exact @ih (viewer.view name).1 hopens

theorem shown?_visitAll_view (viewer : Viewer) {root : String}
    (hopens : (viewer.registry.viewAlone? root).isSome) (names : List String) :
    (viewer.visitAll (names.map .view)).shown? root =
      (viewer.visitAll ((names.takeWhile (· != root)).map .view)).shown? root := by
  rw [← get?_view_self, ← get?_view_self]
  exact (viewer.settled_visitAll_view hopens names).1

theorem children_visitAll_view (viewer : Viewer) {root : String}
    (hopens : (viewer.registry.viewAlone? root).isSome) (names : List String) :
    ((viewer.visitAll (names.map .view)).view root).1.store.navigation.children root =
      ((viewer.visitAll ((names.takeWhile (· != root)).map .view)).view
        root).1.store.navigation.children root := by
  rw [Navigation.children, Navigation.children, (viewer.settled_visitAll_view hopens names).2]

/-- What is kept was kept before, or it has been built when one of the names was opened. -/
theorem exists_opens_of_get?_visitAll_view {names : List String}
    (h : (viewer.visitAll (names.map .view)).store.get? name = some view) :
    viewer.store.get? name = some view ∨
      ∃ other ∈ names, viewer.registry.Opens other name view := by
  induction names generalizing viewer with
  | nil => exact Or.inl h
  | cons other rest ih =>
      rcases @ih (viewer.view other).1 h with hview | ⟨later, hmem, hopens⟩
      · refine (get?_or_opens_of_get?_view hview).imp_right fun hopens => ?_
        exact ⟨other, List.mem_cons_self, hopens⟩
      · exact Or.inr ⟨later, List.mem_cons_of_mem _ hmem, hopens⟩

/-! ### Opening an architecture -/

theorem events_view_architecture {architecture : Architecture}
    (hfound : viewer.registry.architecture? root = some architecture)
    (hnew : ¬viewer.store.contains root) :
    (viewer.view root).2.events = .viewStarted root ::
      (viewer.registry.perform architecture.properties root []
        (viewer.store.resetNavigation root)
        (viewer.registry.expandEntries View.empty architecture.entries).steps).events ++
      [.viewFinished root] := by
  simp [Viewer.view, Session.viewOf, Session.start, Session.resolve,
    Session.resolveArchitecture, Store.not_contains_iff.mp hnew, hfound]

/-- Opening an architecture lists below it the other views that its expansion asks for and
that can be had, unless a view of its own name is built on the way. -/
theorem mem_children_view {architecture : Architecture}
    (hfound : viewer.registry.architecture? root = some architecture)
    (hnew : ¬viewer.store.contains root)
    (honce : (viewer.view root).2.events.count (.viewStarted root) = 1) :
    name ∈ (viewer.view root).1.store.navigation.children root ↔ name ≠ root ∧
      name ∈ Step.attached (viewer.registry.expandEntries View.empty architecture.entries).steps ∧
        (viewer.store.contains name ∨ (viewer.registry.detailOf? name).isSome) := by
  have hnone := Store.not_contains_iff.mp hnew
  rw [view_of_opening hnone (Registry.opening?_of_architecture hfound), Store.navigation_insert,
    Registry.carriedOut, Registry.mem_children_perform fun hbuilt => ?_]
  · have hempty : (viewer.store.resetNavigation root).navigation.children root = [] :=
      Navigation.children_reset_self _ _
    simp only [hempty, Store.contains_resetNavigation, List.not_mem_nil, false_or, or_false]
  · -- a view of this name would have been started once more
    rcases Registry.built_of_contains_perform hbuilt with hkept | ⟨-, -, -, hevent⟩
    · exact hnew (by simpa using hkept)
    · rw [events_view_architecture hfound hnew, List.cons_append, List.count_cons_self,
        Nat.add_eq_right, List.count_eq_zero] at honce
      exact honce (List.mem_append_left _ hevent)

/-- What a new viewer shows under the name of an architecture depends on which views it has been
asked for before it was first asked for this one. If none of them has left a view under the
name, it is the flattening of the architecture. All that the items of the flattening open and
that can be had is listed below it, unless its own expansion builds a view of its name. Otherwise
it is the view of a detail that has been built when one of the other names was opened. -/
theorem toJson_view_homonym {registry : Registry} {root : String} {architecture : Architecture}
    (hfound : registry.architecture? root = some architecture) (names : List String) :
    let before := (start registry).visitAll ((names.takeWhile (· != root)).map .view)
    let viewer := (start registry).visitAll (names.map .view)
    let flattening := registry.expandEntries View.empty architecture.entries
    let children := (viewer.view root).1.store.navigation.children root
    (¬before.store.contains root →
      (viewer.view root).2.toJson = answer root (some flattening.view) ∧
      ((before.view root).2.events.count (.viewStarted root) = 1 →
        (∀ entry ∈ flattening.view.content, ∀ link ∈ entry.2.links,
          link ≠ root → before.store.contains link ∨ (registry.detailOf? link).isSome →
            link ∈ children) ∧
        ∀ child ∈ children, child ≠ root ∧ child ∈ Step.attached flattening.steps ∧
          (before.store.contains child ∨ (registry.detailOf? child).isSome))) ∧
    ∀ view, before.store.get? root = some view →
      (viewer.view root).2.toJson = answer root (some view) ∧
        ∃ other ∈ names, other ≠ root ∧ registry.Opens other root view := by
  intro before viewer flattening children
  have halone : registry.viewAlone? root = some flattening.view := by
    rw [Registry.viewAlone?, Registry.opening?_of_architecture hfound]
    rfl
  have hregistry : before.registry = registry := registry_visitAll _ _
  have hopens : (registry.viewAlone? root).isSome := Option.isSome_iff_exists.mpr ⟨_, halone⟩
  have hshown : viewer.shown? root = before.shown? root :=
    (start registry).shown?_visitAll_view hopens names
  refine ⟨fun hnew => ⟨?_, fun honce => ?_⟩, fun view hkept => ⟨?_, ?_⟩⟩
  -- nothing was kept under the name, so the architecture was opened
  · rw [toJson_view, hshown, shown?, Store.not_contains_iff.mp hnew, hregistry, Option.none_or,
      halone]
  · have hchildren (child : String) : child ∈ children ↔ child ≠ root ∧
        child ∈ Step.attached flattening.steps ∧
          (before.store.contains child ∨ (registry.detailOf? child).isSome) := by
      have hlisted : children = (before.view root).1.store.navigation.children root :=
        (start registry).children_visitAll_view hopens names
      rw [hlisted, mem_children_view (hregistry ▸ hfound) hnew honce, hregistry]
    refine ⟨fun entry hentry link hlink hne hhad => ?_, fun child => (hchildren child).mp⟩
    refine (hchildren link).mpr ⟨hne, ?_, hhad⟩
    exact (registry.asks_expandEntries View.empty architecture.entries link
      (View.mem_links.mpr ⟨entry, hentry, hlink⟩)).resolve_left (by simp [View.links, View.empty])
  -- a view was kept there, and a new viewer keeps only what has been built since
  · rw [toJson_view, hshown, shown?_of_get? hkept]
  · rcases exists_opens_of_get?_visitAll_view hkept with hstart | ⟨other, hmem, hopens⟩
    · simp [start] at hstart
    · have hne : (other != root) = true := List.all_eq_true.mp List.all_takeWhile other hmem
      exact ⟨other, (List.takeWhile_prefix _).subset hmem, by simpa using hne, hopens⟩

end Viewer

/-- A plan and a cellar, each of which is a diagram and a detail. The diagram of the cellar opens
the detail of its own name. -/
def Registry.homonymous : Registry where
  components := [("unit", .boxed (some "plan")), ("annex", .boxed (some "cellar"))]
  details := [("plan", .boxed none), ("cellar", .boxed none)]
  architectures := [("atlas", ⟨[("unit", .default)]⟩), ("plan", ⟨[("annex", .default)]⟩),
    ("cellar", ⟨[("unit", .default), ("annex", .default)]⟩)]

/-- A box with a predecessor that opens a view. -/
def Item.boxed (previous details : Option String) : Item :=
  { Item.blank with shape := some "box", previous, details }

namespace Viewer

/-- The flattening of an architecture is what a new viewer keeps when it is asked for it. -/
theorem expandEntries_eq_of_get? {registry : Registry} {root : String} {architecture : Architecture}
    {view : View} (hfound : registry.architecture? root = some architecture)
    (h : ((start registry).view root).1.store.get? root = some view) :
    (registry.expandEntries View.empty architecture.entries).view = view := by
  rw [get?_view_self, shown?, start, Store.get?_empty, Option.none_or, Registry.viewAlone?,
    Registry.opening?_of_architecture hfound, Option.map_some, Option.some_inj] at h
  exact h

theorem view_expandEntries_annex :
    (Registry.homonymous.expandEntries View.empty [("annex", .default)]).view =
      ⟨[], [], [], [("annex_box", .boxed none (some "cellar"))]⟩ :=
  expandEntries_eq_of_get? (rfl : Registry.homonymous.architecture? "plan" = _)
    (eq_of_viewBounded (fun served => served.1.store.get? "plan") (by decide +kernel))

/-- The plan is shown as a diagram if it comes first, and as a detail of the atlas if that comes
first. -/
theorem toJson_view_homonymous_plan :
    let first := (start .homonymous).visitAll (["plan", "atlas"].map .view)
    let later := (start .homonymous).visitAll (["atlas"].map .view)
    let view : View := ⟨[], [], [], [("plan_box", .boxed none none)]⟩
    Registry.homonymous.architecture? "plan" = some ⟨[("annex", .default)]⟩ ∧
      (¬(start .homonymous).store.contains "plan" ∧
        ((start .homonymous).view "plan").2.events.count (.viewStarted "plan") = 1 ∧
        (first.view "plan").2.toJson = answer "plan"
          (some (Registry.homonymous.expandEntries View.empty [("annex", .default)]).view) ∧
        "cellar" ∈ (first.view "plan").1.store.navigation.children "plan") ∧
      later.store.get? "plan" = some view ∧
        (later.view "plan").2.toJson = answer "plan" (some view) ∧
        ∃ other ∈ ["atlas"], other ≠ "plan" ∧ Registry.homonymous.Opens other "plan" view := by
  have hfound : Registry.homonymous.architecture? "plan" = some ⟨[("annex", .default)]⟩ := rfl
  have hnew : ¬(start .homonymous).store.contains "plan" := by decide +kernel
  have honce : ((start .homonymous).view "plan").2.events.count (.viewStarted "plan") = 1 :=
    eq_of_viewBounded (fun served => served.2.events.count (.viewStarted "plan"))
      (by decide +kernel)
  obtain ⟨hview, hlists⟩ := (toJson_view_homonym hfound ["plan", "atlas"]).1 hnew
  have hkept : ((start .homonymous).visitAll (["atlas"].map .view)).store.get? "plan" =
      some ⟨[], [], [], [("plan_box", .boxed none none)]⟩ :=
    eq_of_viewBounded (fun served => served.1.store.get? "plan") (by decide +kernel)
  refine ⟨hfound, ⟨hnew, honce, hview, ?_⟩, hkept, (toJson_view_homonym hfound ["atlas"]).2 _ hkept⟩
  refine (hlists honce).1 ("annex_box", .boxed none (some "cellar")) ?_ "cellar"
    (by decide +kernel) (by decide +kernel) (Or.inr (by decide +kernel))
  rw [view_expandEntries_annex]
  exact List.mem_cons_self

/-- A detail of the name may be shown in place of the architecture, and what its items open need
not be listed below it, since the list starts anew when the detail is built. -/
theorem not_forall_toJson_view_homonym :
    (¬∀ (registry : Registry) (root : String) (architecture : Architecture) (names : List String),
      registry.architecture? root = some architecture → root ∈ registry.linkNames →
      (registry.detailOf? root).isSome →
        (((start registry).visitAll (names.map .view)).view root).2.toJson = answer root
          (some (registry.expandEntries View.empty architecture.entries).view)) ∧
    ¬∀ (registry : Registry) (root : String) (architecture : Architecture) (names : List String),
      registry.architecture? root = some architecture → root ∈ registry.linkNames →
      (registry.detailOf? root).isSome →
        ∀ entry ∈ (registry.expandEntries View.empty architecture.entries).view.content,
          ∀ link ∈ entry.2.links, link ≠ root → (registry.detailOf? link).isSome →
            link ∈ (((start registry).visitAll (names.map .view)).view
              root).1.store.navigation.children root := by
  constructor
  · intro h
    have hplan := h .homonymous "plan" ⟨[("annex", .default)]⟩ ["atlas"] rfl (by decide +kernel)
      (by decide +kernel)
    rw [view_expandEntries_annex, ← Option.some_inj, ← answerBounded_eq] at hplan
    revert hplan
    decide +kernel
  · intro h
    have hflattening : (Registry.homonymous.expandEntries View.empty
        [("unit", .default), ("annex", .default)]).view = ⟨[], [], [],
          [("unit_box", .boxed none (some "plan")),
            ("annex_box", .boxed (some "unit_box") (some "cellar"))]⟩ :=
      expandEntries_eq_of_get? rfl
        (eq_of_viewBounded (fun served => served.1.store.get? "cellar") (by decide +kernel))
    have hcellar := h .homonymous "cellar" ⟨[("unit", .default), ("annex", .default)]⟩ [] rfl
      (by decide +kernel) (by decide +kernel) ("unit_box", .boxed none (some "plan"))
      (by rw [hflattening]; exact List.mem_cons_self) "plan" (by decide +kernel)
      (by decide +kernel) (by decide +kernel)
    have hchildren :
        ((start .homonymous).view "cellar").1.store.navigation.children "cellar" = [] :=
      eq_of_viewBounded (fun served => served.1.store.navigation.children "cellar")
        (by decide +kernel)
    exact List.not_mem_nil (hchildren ▸ hcellar)

end Viewer

end ArchDiagram
