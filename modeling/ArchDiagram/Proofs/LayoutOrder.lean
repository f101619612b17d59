/-
# The order of a layout

An item is laid out against one that was placed before it: the first item of an expansion
against the last one of the view, any other against an earlier item of its template. Only
an item that names itself is laid out against itself (`View.LooksBack`). So whoever
follows the anchors from item to item comes to one without an anchor, or to one that
names itself; and where no template has such an item, anchors point strictly backwards
(`Registry.laysOut`).
-/

import ArchDiagram.Proofs.Anchors
import ArchDiagram.Proofs.Nesting
import Mathlib.Logic.Relation

namespace ArchDiagram

open Relation

/-! ## Following anchors -/

/-- The item of `ident` is laid out against `anchor`. -/
def View.Follows (view : View) (ident anchor : String) : Prop :=
  ∃ item, view.item? ident = some item ∧ item.previous = some anchor

/-- Every item is laid out against one that is placed strictly before it, except that the
items of `loops` may be laid out against themselves. -/
def View.LooksBack (loops : String → Prop) (view : View) : Prop :=
  ∀ (i : Nat) (h : i < view.content.length), ∀ anchor ∈ view.content[i].2.previous,
    anchor ∈ Entries.names (view.content.take i) ∨
      anchor = view.content[i].1 ∧ loops view.content[i].1

/-- From the item of `ident` the anchors lead to an item that has none, or to one of `loops`
that is laid out against itself. -/
def View.ComesToRest (loops : String → Prop) (view : View) (ident : String) : Prop :=
  ∃ last item, ReflTransGen view.Follows ident last ∧ view.item? last = some item ∧
    (item.previous = none ∨ item.previous = some last ∧ loops last)

namespace View

variable {view : View} {loops : String → Prop} {ident : String}

theorem looksBack_of_content_eq_nil (h : view.content = []) : view.LooksBack loops := by
  intro i hi
  simp [h] at hi

/-- Appending an item that is laid out against an item of the view. -/
theorem looksBack_append {old : View} (hold : old.LooksBack loops) {entry : String × Item}
    (hcontent : view.content = old.content ++ [entry])
    (hanchor : ∀ anchor ∈ entry.2.previous,
      anchor ∈ Entries.names old.content ∨ anchor = entry.1 ∧ loops entry.1) :
    view.LooksBack loops := by
  intro i hi anchor hmem
  have hlength : view.content.length = old.content.length + 1 := by simp [hcontent]
  rcases Nat.lt_or_ge i old.content.length with hlt | hge
  -- an old item has the same items before it as it had
  · have hitem : view.content[i] = old.content[i] := by simp [hcontent, hlt]
    have htake : view.content.take i = old.content.take i := by
      rw [hcontent, List.take_append_of_le_length hlt.le]
    rw [hitem] at hmem ⊢
    rw [htake]
    exact hold i hlt anchor hmem
  -- before the new item is the whole old view
  · obtain rfl : i = old.content.length := by omega
    have hitem : view.content[old.content.length] = entry := by simp [hcontent]
    have htake : view.content.take old.content.length = old.content := by simp [hcontent]
    rw [hitem] at hmem ⊢
    rw [htake]
    exact hanchor anchor hmem

/-- An item before the `i`-th one is found before the `i`-th place. -/
theorem exists_lt_of_mem_take {i : Nat} (h : ident ∈ Entries.names (view.content.take i)) :
    ∃ (j : Nat) (hj : j < view.content.length), j < i ∧ view.content[j].1 = ident ∧
      view.item? ident = some view.content[j].2 := by
  obtain ⟨item, hitem⟩ := Option.isSome_iff_exists.mp
    (Entries.mem_names_iff_lookup_isSome.mp h)
  obtain ⟨before, after, htake, hnew⟩ := List.lookup_eq_some_iff.mp hitem
  obtain ⟨rest, hsplit⟩ : ∃ rest, view.content = before ++ (ident, item) :: rest :=
    ⟨after ++ view.content.drop i, by
      rw [← List.cons_append, ← List.append_assoc, ← htake, List.take_append_drop]⟩
  have hlength : before.length < view.content.length := by simp [hsplit]
  have hplace : view.content[before.length] = (ident, item) := by simp [hsplit]
  refine ⟨before.length, hlength, ?_, by rw [hplace], ?_⟩
  · have hle := congrArg List.length htake
    simp only [List.length_take, List.length_append, List.length_cons] at hle
    omega
  · rw [item?, List.lookup_eq_some_iff, hplace]
    exact ⟨before, _, hsplit, hnew⟩

/-- The place of the item falls with every step, so the anchors come to an end. -/
theorem LooksBack.comesToRest (h : view.LooksBack loops)
    (hident : ident ∈ Entries.names view.content) : view.ComesToRest loops ident := by
  obtain ⟨i, hi, -, hname, hitem⟩ := exists_lt_of_mem_take (i := view.content.length)
    (by rwa [List.take_length])
  induction i using Nat.strong_induction_on generalizing ident with
  | _ i ih =>
    cases hprevious : view.content[i].2.previous with
    | none => exact ⟨ident, _, .refl, hitem, Or.inl hprevious⟩
    | some anchor =>
        rcases h i hi anchor hprevious with hbefore | ⟨rfl, hloop⟩
        · obtain ⟨j, hj, hlt, hanchor, hfound⟩ := exists_lt_of_mem_take hbefore
          have hmem : anchor ∈ Entries.names view.content :=
            List.map_subset _ (List.take_subset _ _) hbefore
          obtain ⟨last, item, hchain, hlast⟩ := ih j hlt hmem hj hanchor hfound
          exact ⟨last, item, .head ⟨_, hitem, hprevious⟩ hchain, hlast⟩
        · rw [hname] at hprevious hloop
          exact ⟨ident, _, .refl, hitem, Or.inr ⟨hprevious, hloop⟩⟩

theorem LooksBack.mono {loops' : String → Prop} (h : view.LooksBack loops)
    (himp : ∀ ident, loops ident → loops' ident) : view.LooksBack loops' := by
  intro i hi anchor hmem
  exact (h i hi anchor hmem).imp_right fun hself => ⟨hself.1, himp _ hself.2⟩

end View

/-- The items look back, and from each of them the anchors come to an end. -/
def View.LaidOut (loops : String → Prop) (view : View) : Prop :=
  view.LooksBack loops ∧ ∀ ident ∈ view.content.names, view.ComesToRest loops ident

theorem View.LooksBack.laidOut {view : View} {loops : String → Prop}
    (h : view.LooksBack loops) : view.LaidOut loops :=
  ⟨h, fun _ => h.comesToRest⟩

/-! ## Items that name themselves -/

/-- A leaf of a template asks to be laid out against itself. -/
def Template.NamesItself (template : Template) (key : String) : Prop :=
  ∃ item, (key, Content.leaf item) ∈ template.content ∧ item.previous = some key

/-- An identifier that is made for a leaf of the registry that names itself. -/
def Registry.Loops (registry : Registry) (ident : String) : Prop :=
  ∃ template ∈ registry.templates, ∃ key, template.NamesItself key ∧
    ∃ owner, ident = Ident.namespaced owner key ∨ ∃ n, ident = Ident.numbered owner n key

namespace Frame

/-- Placing an item lets it look back: the table of the expansion names items that are
placed already, and the item itself under its own name. -/
theorem looksBack_place {frame : Frame} (isFirst : Bool) {anchors : Entries String}
    {key : String} {item : Item} {view : View} {loops : String → Prop}
    (hview : view.LooksBack loops)
    (hanchors : ∀ ident ∈ anchors.map Prod.snd, ident ∈ Entries.names view.content)
    (hself : item.previous = some key → loops (freshIdent frame.owner key view.content)) :
    (frame.place isFirst anchors key item view).view.LooksBack loops := by
  refine View.looksBack_append hview rfl fun anchor hanchor => ?_
  simp only [settle] at hanchor
  split at hanchor
  -- the first item of an expansion follows the last one of the view
  · exact Or.inl (mem_names_of_lastIdent hanchor)
  · obtain ⟨name, hname, hlookup⟩ := Option.bind_eq_some_iff.mp hanchor
    by_cases hkey : name = key
    · subst hkey
      rw [Entries.lookup_put_self] at hlookup
      exact Or.inr ⟨(Option.some.inj hlookup).symm, hself hname⟩
    · rw [Entries.lookup_put_of_ne _ _ hkey] at hlookup
      exact Or.inl (hanchors anchor (Registry.mem_of_lookup hlookup))

/-- The identifier of a leaf that names itself. -/
theorem loops_freshIdent {registry : Registry} {frame : Frame}
    (htemplate : frame.template ∈ registry.templates) {key : String} {item : Item}
    (hitem : (key, Content.leaf item) ∈ frame.template.content)
    (hself : item.previous = some key) (placed : Entries Item) :
    registry.Loops (freshIdent frame.owner key placed) :=
  ⟨frame.template, htemplate, key, ⟨item, hitem, hself⟩, frame.owner,
    (firstFree_freshIdent frame.owner key placed).eq_or.imp_right fun ⟨n, h⟩ => ⟨n + 1, h⟩⟩

end Frame

namespace Registry

variable {registry : Registry}

/-- Expanding some content of a template lets the items look back. -/
theorem looksBack_expandContent {frame : Frame} {isFirst : Bool} {anchors : Entries String}
    {view : View} {content : Entries Content} (htemplate : frame.template ∈ registry.templates)
    (hcontent : ∀ entry ∈ content, entry ∈ frame.template.content)
    (hview : view.LooksBack registry.Loops)
    (hanchors : ∀ ident ∈ anchors.map Prod.snd, ident ∈ Entries.names view.content) :
    (registry.expandContent frame isFirst anchors view content).view.LooksBack
      registry.Loops := by
  induction frame, isFirst, anchors, view, content using expandContent_induction with
  | nil frame isFirst anchors view =>
      rw [expandContent_nil]
      exact hview
  | leaf frame isFirst anchors view key item rest ih =>
      rw [expandContent_leaf]
      refine ih htemplate (fun entry hentry => hcontent entry (List.mem_cons_of_mem _ hentry)) ?_
        (frame.mem_names_of_mem_anchors_place isFirst key item hanchors)
      exact frame.looksBack_place isFirst hview hanchors fun hself =>
        Frame.loops_freshIdent htemplate (hcontent _ List.mem_cons_self) hself _
  | slot frame isFirst anchors view key slot rest ihInside ihRest =>
      rw [expandContent_slot]
      obtain ⟨placed, hgrown, -⟩ := registry.placedInTurn_expandInstance
        (frame.choose slot).owner frame.path (frame.choose slot).swaps view
      refine ihRest htemplate
        (fun entry hentry => hcontent entry (List.mem_cons_of_mem _ hentry)) ?_
        fun ident hident => ?_
      -- what stands in the slot starts with a table of its own
      · unfold expandComponent expandTemplate
        cases hfound : registry.instanceOf? (frame.choose slot).owner with
        | none => exact hview
        | some template =>
            by_cases hcycle : (frame.choose slot).owner ∈ frame.path
            · simpa [hcycle] using hview
            · simpa [hcycle] using ihInside template hfound hcycle (instanceOf?_mem hfound)
                (fun _ => id) hview (by simp)
      -- the identifiers of the table stay in the view, which only grows
      · rw [hgrown, Entries.names_append]
        exact List.mem_append_left _ (hanchors ident hident)

theorem looksBack_expandTemplate {owner : String} {template : Template} {chain : List String}
    {swaps : Entries Override} {view : View} (htemplate : template ∈ registry.templates)
    (hview : view.LooksBack registry.Loops) :
    (registry.expandTemplate owner template chain swaps view).view.LooksBack
      registry.Loops := by
  unfold expandTemplate
  split
  · exact hview
  · exact looksBack_expandContent htemplate (fun _ => id) hview (by simp)

theorem looksBack_expandEntries {view : View} (entries : List (String × Override))
    (hview : view.LooksBack registry.Loops) :
    (registry.expandEntries view entries).view.LooksBack registry.Loops := by
  have hcomponent (owner : String) (swaps : Entries Override) {view : View}
      (hview : view.LooksBack registry.Loops) :
      (registry.expandComponent owner [] swaps view).view.LooksBack registry.Loops := by
    unfold expandComponent
    split
    · exact hview
    · rename_i hfound
      exact looksBack_expandTemplate (instanceOf?_mem hfound) hview
  induction entries generalizing view with
  | nil => exact hview
  | cons entry rest ih =>
      obtain ⟨key, entry⟩ := entry
      have hfirst : (registry.expandEntry view key entry).view.LooksBack registry.Loops := by
        cases entry with
        | default | nested | swap => exact hcomponent _ _ hview
        | references | properties | settings => exact hview
      exact ih hfirst

/-- In every view that can be built the items look back. -/
theorem ensures_looksBack (registry : Registry) :
    registry.Ensures (View.LooksBack registry.Loops) where
  entries entries := looksBack_expandEntries entries (View.looksBack_of_content_eq_nil rfl)
  detail _ _ hfound _ _ _ := looksBack_expandTemplate (detailOf?_mem hfound)
    (View.looksBack_of_content_eq_nil rfl)

/-- All views that are built from a registry are laid out: the flattening of an architecture,
a detail under whatever overrides, and the views that are kept on the way. -/
structure LaysOut (registry : Registry) (loops : String → Prop) : Prop where
  architecture : ∀ (session : Session) (name : String),
    (session.resolveArchitecture registry name).view.LaidOut loops
  detail : ∀ (session : Session) (name : String) (overrides : Entries Override),
    ∀ view ∈ (session.resolveDetail registry name overrides).view, view.LaidOut loops
  kept : ∀ (properties : Entries Property) (requests : List Request),
    ∀ entry ∈ ((Session.mk Store.empty properties).serveAll registry requests).session.store.views,
      entry.2.LaidOut loops

theorem laysOut_of_ensures {loops : String → Prop}
    (hensures : registry.Ensures (View.LooksBack loops)) : registry.LaysOut loops where
  architecture session name := (Session.view_resolveArchitecture hensures session name).laidOut
  detail session name overrides view hview :=
    (Session.view_resolveDetail hensures session name overrides view hview).laidOut
  kept properties requests entry hentry := by
    have hempty : (Session.mk Store.empty properties).store.AllViews (View.LooksBack loops) := by
      simp [Store.AllViews, Store.empty]
    obtain ⟨-, hkept⟩ := Session.forall_views_serveAll hensures requests hempty
    exact (hkept entry hentry).laidOut

/-- In every view that is built from a registry an item is laid out against one that is
placed strictly before it, so that the anchors lead from every item to one without an
anchor; the only exception are leaves that name themselves. Where no template has such a
leaf, there is no exception. -/
theorem laysOut (registry : Registry) :
    registry.LaysOut registry.Loops ∧
      ((∀ template ∈ registry.templates, ∀ key, ¬template.NamesItself key) →
        registry.LaysOut fun _ => False) := by
  refine ⟨laysOut_of_ensures registry.ensures_looksBack, fun hnone => ?_⟩
  have hloops (ident : String) : ¬registry.Loops ident := by
    rintro ⟨template, htemplate, key, hself, -⟩
    exact hnone template htemplate key hself
  exact laysOut_of_ensures {
    entries := fun entries => (registry.ensures_looksBack.entries entries).mono hloops
    detail := fun name template hfound chain swaps properties =>
      (registry.ensures_looksBack.detail name template hfound chain swaps properties).mono hloops }

/-- Two instances of a component with a label that is laid out against `previous`. -/
def labelled (previous : String) : Registry where
  components := [("cell", .informed [("box", .leaf .blank),
    ("label", .leaf { Item.blank with previous := some previous })])]
  details := []
  architectures := [("plan", ⟨[("cell", .default), ("cell_1", .default)]⟩)]

/-- The label of the second instance keeps to its own box, which follows the label of the
first one. -/
theorem laysOut_labelled_box :
    ((Session.start Store.empty).resolveArchitecture (labelled "box") "plan").view.content.map
        (fun entry => (entry.1, entry.2.previous)) =
      [("cell_box", none), ("cell_label", some "cell_box"), ("cell_1_box", some "cell_label"),
        ("cell_1_label", some "cell_1_box")] ∧
      (labelled "box").LaysOut fun _ => False := by
  refine ⟨Session.eq_of_resolveArchitectureWithin
    (fun answer => answer.view.content.map fun entry => (entry.1, entry.2.previous))
    (by decide +kernel), (laysOut (labelled "box")).2 ?_⟩
  rintro template htemplate key ⟨item, hitem, hself⟩
  obtain rfl : template = _ := List.mem_singleton.mp htemplate
  rcases List.mem_cons.mp hitem with hbox | hlabel
  · simp_all [Item.blank]
  · simp_all [Item.blank]

/-- A label that names itself is laid out against itself, so its anchors never end. -/
theorem not_forall_laysOut : ¬∀ registry : Registry, registry.LaysOut fun _ => False := by
  intro h
  have hplaced : ((Session.start Store.empty).resolveArchitecture (labelled "label")
      "plan").view.content.map (fun entry => (entry.1, entry.2.previous)) =
      [("cell_box", none), ("cell_label", some "cell_label"), ("cell_1_box", some "cell_label"),
        ("cell_1_label", some "cell_1_label")] :=
    Session.eq_of_resolveArchitectureWithin
      (fun answer => answer.view.content.map fun entry => (entry.1, entry.2.previous))
      (by decide +kernel)
  have hback := ((h (labelled "label")).architecture (Session.start Store.empty) "plan").1
  generalize ((Session.start Store.empty).resolveArchitecture (labelled "label") "plan").view =
    view at hplaced hback
  have hlength : 1 < view.content.length := by
    have hfour := congrArg List.length hplaced
    simp only [List.length_map, List.length_cons, List.length_nil] at hfour
    omega
  have hlabel : view.content[1].2.previous = some "cell_label" := by
    have hsecond := congrArg (fun placed => placed[1]?) hplaced
    simp only [List.getElem?_map, List.getElem?_eq_getElem hlength] at hsecond
    exact congrArg Prod.snd (Option.some.inj hsecond)
  have hbefore : Entries.names (view.content.take 1) = ["cell_box"] := by
    have hfirst := congrArg (fun placed => (placed.take 1).map Prod.fst) hplaced
    simpa [Entries.names, List.map_take, Function.comp_def] using hfirst
  -- only the box is placed before the label
  rcases hback 1 hlength "cell_label" hlabel with hmem | ⟨-, hnone⟩
  · rw [hbefore] at hmem
    exact absurd hmem (by decide)
  · exact hnone

end Registry

end ArchDiagram
