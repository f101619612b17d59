/-
# What a view collects

The settings and references of a view come from the templates that are expanded into it
and, in an architecture, from its sections. Both are given here as one list of
contributions, by a recursion that knows nothing of views. A template adds what is not
there yet; a section is taken over as it stands. So a view keeps the earliest contribution
of every key, and has a key twice exactly if a section repeats one
(`Session.keeps_contributions`).
-/

import ArchDiagram.Proofs.Flattening
import ArchDiagram.Proofs.Nesting

namespace ArchDiagram

/-! ## Keeping the earliest -/

/-- Something that a template or a section of an architecture lists. -/
structure Contribution (α : Type) where
  value : α
  fromSection : Bool

namespace Contribution

variable {α : Type} {key : α → String} {contributions : List (Contribution α)} {kept : List α}

/-- Take over contributions one after the other: one of a section as it stands, and one of a
template unless something with its key is there. -/
def collect (key : α → String) (kept : List α) (contributions : List (Contribution α)) : List α :=
  contributions.foldl
    (fun kept contribution =>
      if contribution.fromSection || !kept.any (key · == key contribution.value) then
        kept ++ [contribution.value]
      else kept)
    kept

theorem collect_cons (key : α → String) (kept : List α) (first : Contribution α)
    (rest : List (Contribution α)) :
    collect key kept (first :: rest) =
      collect key (if first.fromSection || !kept.any (key · == key first.value) then
        kept ++ [first.value] else kept) rest := rfl

theorem collect_append (key : α → String) (kept : List α) (first second : List (Contribution α)) :
    collect key kept (first ++ second) = collect key (collect key kept first) second :=
  List.foldl_append

/-- What templates list is merged. -/
theorem collect_templates (key : α → String) (kept listed : List α) :
    collect key kept (listed.map (⟨·, false⟩)) = View.mergeBy key kept listed := by
  induction listed generalizing kept with
  | nil => rfl
  | cons value rest ih =>
      rw [List.map_cons, collect_cons, ih, View.mergeBy, View.mergeBy, List.foldl_cons]
      congr 1
      cases kept.any (key · == key value) <;> rfl

/-- What sections list is appended. -/
theorem collect_sections (key : α → String) (kept listed : List α) :
    collect key kept (listed.map (⟨·, true⟩)) = kept ++ listed := by
  induction listed generalizing kept with
  | nil => simp [collect]
  | cons value rest ih => simp [collect_cons, ih]

/-- The first of some contributions, and besides it those of sections. -/
def firstAndSections : List (Contribution α) → List α
  | [] => []
  | first :: rest => first.value :: (rest.filter fromSection).map value

theorem firstAndSections_eq_nil_iff : firstAndSections contributions = [] ↔ contributions = [] := by
  cases contributions <;> simp [firstAndSections]

theorem firstAndSections_concat {last : Contribution α}
    (h : contributions = [] ∨ last.fromSection) :
    firstAndSections (contributions ++ [last]) =
      firstAndSections contributions ++ [last.value] := by
  cases contributions with
  | nil => rfl
  | cons first rest => simp [firstAndSections, h.resolve_left (List.cons_ne_nil _ _)]

theorem firstAndSections_concat_of_ne_nil {last : Contribution α} (h : contributions ≠ [])
    (htemplate : last.fromSection = false) :
    firstAndSections (contributions ++ [last]) = firstAndSections contributions := by
  cases contributions with
  | nil => exact absurd rfl h
  | cons first rest => simp [firstAndSections, htemplate]

/-- What is kept of some contributions: of those with the same key the first one and what
sections list, all in their order. -/
structure Keeps (key : α → String) (contributions : List (Contribution α)) (kept : List α) :
    Prop where
  sublist : kept.Sublist (contributions.map value)
  ofKey : ∀ name, (kept.filter fun value => key value == name) =
    firstAndSections (contributions.filter fun contribution => key contribution.value == name)

/-- No section lists a key that was contributed before. -/
def Unrepeated (key : α → String) (contributions : List (Contribution α)) : Prop :=
  contributions.Pairwise fun earlier later =>
    key earlier.value = key later.value → later.fromSection = false

theorem length_firstAndSections_le_one_iff : (firstAndSections contributions).length ≤ 1 ↔
    contributions.Pairwise fun _ later => later.fromSection = false := by
  cases contributions with
  | nil => simp [firstAndSections]
  | cons first rest =>
      rw [firstAndSections, List.length_cons, List.length_map, List.pairwise_cons,
        Nat.add_one_le_iff, Nat.lt_one_iff, List.length_eq_zero_iff, List.filter_eq_nil_iff]
      simp only [Bool.not_eq_true]
      refine ⟨fun hrest => ⟨hrest, ?_⟩, And.left⟩
      exact List.pairwise_of_forall_mem_list fun _ _ later hlater => hrest later hlater

/-- Sections repeat a key if they do so among the contributions of one key. -/
theorem unrepeated_iff : Unrepeated key contributions ↔ ∀ name, (firstAndSections
    (contributions.filter fun contribution => key contribution.value == name)).length ≤ 1 := by
  simp only [length_firstAndSections_le_one_iff, Unrepeated, List.pairwise_iff_forall_sublist]
  refine ⟨fun h name earlier later hsub => ?_, fun h earlier later hsub hkey => ?_⟩
  · have hkey : ∀ contribution ∈ [earlier, later], key contribution.value = name :=
      fun contribution hmem => beq_iff_eq.mp (List.mem_filter.mp (hsub.subset hmem)).2
    refine h (hsub.trans List.filter_sublist) ?_
    rw [hkey earlier (by simp), hkey later (by simp)]
  · have hboth := hsub.filter fun contribution => key contribution.value == key later.value
    exact h (key later.value) (by simpa [hkey] using hboth)

namespace Keeps

theorem nil : Keeps key [] [] := ⟨.slnil, fun _ => rfl⟩

/-- A key is among what is kept if it is among the contributions. -/
theorem filter_eq_nil_iff (h : Keeps key contributions kept) (name : String) :
    (contributions.filter fun contribution => key contribution.value == name) = [] ↔
      ∀ value ∈ kept, key value ≠ name := by
  rw [← firstAndSections_eq_nil_iff, ← h.ofKey name, List.filter_eq_nil_iff]
  simp

/-- A contribution is kept if it is the first of its key or comes from a section. -/
theorem concat (h : Keeps key contributions kept) {last : Contribution α}
    (hlast : (∀ value ∈ kept, key value ≠ key last.value) ∨ last.fromSection) :
    Keeps key (contributions ++ [last]) (kept ++ [last.value]) where
  sublist := by
    rw [List.map_append]
    exact h.sublist.append (List.Sublist.refl _)
  ofKey name := by
    rw [List.filter_append, List.filter_append, h.ofKey name]
    by_cases hname : key last.value = name
    · subst hname
      rw [← h.filter_eq_nil_iff] at hlast
      simp [firstAndSections_concat hlast]
    · simp [hname]

/-- What a template contributes is dropped if its key is there already. -/
theorem concat_of_mem (h : Keeps key contributions kept) {last : Contribution α} {value : α}
    (hmem : value ∈ kept) (hkey : key value = key last.value)
    (htemplate : last.fromSection = false) : Keeps key (contributions ++ [last]) kept where
  sublist := by
    rw [List.map_append]
    exact h.sublist.trans (List.sublist_append_left _ _)
  ofKey name := by
    rw [List.filter_append, h.ofKey name]
    by_cases hname : key last.value = name
    · subst hname
      have hsome : (contributions.filter fun contribution =>
          key contribution.value == key last.value) ≠ [] := by
        rw [ne_eq, h.filter_eq_nil_iff]
        exact fun hnone => hnone value hmem hkey
      simp [firstAndSections_concat_of_ne_nil hsome htemplate]
    · simp [hname]

/-- Taking over more contributions keeps of each key the first one. -/
theorem collect (h : Keeps key contributions kept) (added : List (Contribution α)) :
    Keeps key (contributions ++ added) (Contribution.collect key kept added) := by
  induction added generalizing contributions kept with
  | nil => simpa [Contribution.collect] using h
  | cons last rest ih =>
      rw [collect_cons, ← List.singleton_append, ← List.append_assoc]
      split
      · rename_i hlast
        simp only [Bool.or_eq_true, Bool.not_eq_true', List.any_eq_false, beq_iff_eq] at hlast
        exact ih (h.concat hlast.symm)
      · rename_i hdropped
        simp only [Bool.or_eq_true, Bool.not_eq_true', not_or, Bool.not_eq_true,
          Bool.not_eq_false, List.any_eq_true, beq_iff_eq] at hdropped
        obtain ⟨htemplate, old, hold, hkey⟩ := hdropped
        exact ih (h.concat_of_mem hold hkey htemplate)

/-- What is kept has a key twice exactly if a section repeats one. -/
theorem nodup_iff (h : Keeps key contributions kept) :
    (kept.map key).Nodup ↔ Unrepeated key contributions := by
  rw [unrepeated_iff, List.nodup_iff_count_le_one]
  refine forall_congr' fun name => ?_
  rw [← h.ofKey name, ← List.countP_eq_length_filter, List.count, List.countP_map]
  rfl

end Keeps

/-- Without sections no key is repeated. -/
theorem unrepeated_map (listed : List α) : Unrepeated key (listed.map (⟨·, false⟩)) := by
  rw [Unrepeated, List.pairwise_map]
  exact List.pairwise_of_forall fun _ _ _ => rfl

end Contribution

/-! ## Where contributions come from -/

/-- The two kinds of things that views collect, settings and references. -/
structure Collectible (α : Type) where
  /-- Under what they are kept once. -/
  key : α → String
  ofTemplate : Template → List α
  /-- What an entry of an architecture lists, if it is a section of this kind. -/
  ofSection : Override → List α
  ofView : View → List α
  ofView_blank (properties : Entries Property) : ofView (Registry.blankView properties) = []
  ofView_content (view : View) (content : Entries Item) :
    ofView { view with content } = ofView view
  ofView_finish (frame : Frame) (view : View) :
    ofView (frame.finish view) = View.mergeBy key (ofView view) (ofTemplate frame.template)
  ofView_section (registry : Registry) (view : View) (name : String) (entry : Override) :
    entry.component? name = none →
      ofView (registry.expandEntry view name entry).view = ofView view ++ ofSection entry

namespace Collectible

/-- The settings of a view. -/
def settings : Collectible Setting where
  key := Setting.id
  ofTemplate := Template.settings
  ofSection
    | .settings listed => listed
    | _ => []
  ofView := View.settings
  ofView_blank _ := rfl
  ofView_content _ _ := rfl
  ofView_finish _ _ := rfl
  ofView_section _ _ _ entry h := by
    cases entry <;> simp_all [Override.component?, Registry.expandEntry]

/-- The references of a view. -/
def references : Collectible Reference where
  key := Reference.title
  ofTemplate := Template.references
  ofSection
    | .references listed => listed
    | _ => []
  ofView := View.references
  ofView_blank _ := rfl
  ofView_content _ _ := rfl
  ofView_finish _ _ := rfl
  ofView_section _ _ _ entry h := by
    cases entry <;> simp_all [Override.component?, Registry.expandEntry]

end Collectible

namespace Registry

set_option linter.unusedVariables false in
/-- The templates below an instance inside others, in the order in which their expansions
end: what fills the slots of a template comes before it. There are none without a template
or when the instance is met inside itself. -/
def merged (registry : Registry) (id : String) (ancestors : List String)
    (swaps : Entries Override) : List Template :=
  match hfound : registry.instanceOf? id with
  | none => []
  | some template =>
      if hcycle : id ∈ ancestors then []
      else
        (template.content.attach.flatMap fun ⟨(key, content), _⟩ =>
          match content with
          | .leaf _ => []
          | .slot slot =>
              merged registry (slot.filling swaps).1 (ancestors ++ [id]) (slot.filling swaps).2)
          ++ [template]
termination_by Supply.left ancestors (registry.reach id swaps)
decreasing_by
  refine Supply.left_lt List.mem_cons_self hcycle fun other hother hnew => ?_
  simp only [List.mem_append, List.mem_singleton, not_or] at hnew
  exact ⟨mem_reach_of_mem_reach_filling hfound ‹_› hother, hnew⟩

/-- The templates whose expansions end while some content of a template is expanded, with
that template at the end. -/
def mergedIn (registry : Registry) (frame : Frame) (content : Entries Content) : List Template :=
  (content.flatMap fun entry =>
    match entry.2 with
    | .leaf _ => []
    | .slot slot =>
        registry.merged (slot.filling frame.swaps).1 frame.path (slot.filling frame.swaps).2)
    ++ [frame.template]

theorem merged_eq (registry : Registry) (id : String) (ancestors : List String)
    (swaps : Entries Override) :
    registry.merged id ancestors swaps =
      match registry.instanceOf? id with
      | none => []
      | some template =>
          if id ∈ ancestors then []
          else registry.mergedIn ⟨id, template, ancestors, swaps⟩ template.content := by
  rw [merged]
  cases hfound : registry.instanceOf? id with
  | none => rfl
  | some template =>
      simp only [mergedIn, Frame.path]
      by_cases hcycle : id ∈ ancestors
      · simp only [hcycle, if_true, dite_true]
      · simp only [hcycle, if_false, dite_false]
        congr 1
        refine (List.flatMap_subtype ?_).trans (by rw [List.unattach_attach])
        rintro ⟨key, content⟩ hmem
        cases content <;> rfl

variable {α : Type} (registry : Registry) (kind : Collectible α)

/-- What some templates contribute. -/
def contributedBy (templates : List Template) : List (Contribution α) :=
  (templates.flatMap kind.ofTemplate).map (⟨·, false⟩)

/-- What an entry of an architecture contributes: a section what it lists, and a component
what the templates below it list. -/
def contributedByEntry (entry : String × Override) : List (Contribution α) :=
  match entry.2.component? entry.1 with
  | some (owner, swaps) => contributedBy kind (registry.merged owner [] swaps)
  | none => (kind.ofSection entry.2).map (⟨·, true⟩)

/-- What the architecture of a name contributes to its view, in order. -/
def contributions (name : String) : List (Contribution α) :=
  match registry.architecture? name with
  | none => []
  | some architecture => architecture.entries.flatMap (registry.contributedByEntry kind)

/-- What the detail of a name contributes to its view under some overrides, in order. -/
def detailContributions (name : String) (overrides : Entries Override) : List (Contribution α) :=
  match registry.detailOf? name with
  | none => []
  | some template =>
      contributedBy kind (registry.mergedIn ⟨name, template, [], overrides⟩ template.content)

theorem contributedBy_append (first second : List Template) :
    contributedBy kind (first ++ second) =
      contributedBy kind first ++ contributedBy kind second := by
  simp [contributedBy]

/-! ## Collecting them -/

open Contribution

variable {registry kind} {view : View}

/-- The expansion of an instance collects what the templates below it contribute, if the
expansion of the content of its template does so. -/
theorem ofView_expandComponent_of_content {owner : String} {chain : List String}
    {swaps : Entries Override}
    (hcontent : ∀ template, registry.instanceOf? owner = some template → owner ∉ chain →
      kind.ofView (registry.expandContent ⟨owner, template, chain, swaps⟩ true [] view
          template.content).view =
        collect kind.key (kind.ofView view) (contributedBy kind
          (registry.mergedIn ⟨owner, template, chain, swaps⟩ template.content))) :
    kind.ofView (registry.expandComponent owner chain swaps view).view =
      collect kind.key (kind.ofView view)
        (contributedBy kind (registry.merged owner chain swaps)) := by
  rw [merged_eq]
  unfold expandComponent expandTemplate
  cases hfound : registry.instanceOf? owner with
  | none => rfl
  | some template =>
      by_cases hcycle : owner ∈ chain
      · simp only [hcycle, if_true]
        rfl
      · simpa only [hcycle, if_false] using hcontent template hfound hcycle

/-- Expanding some content collects what the templates whose expansions end meanwhile
contribute. -/
theorem ofView_expandContent (frame : Frame) (isFirst : Bool) (anchors : Entries String)
    (view : View) (content : Entries Content) :
    kind.ofView (registry.expandContent frame isFirst anchors view content).view =
      collect kind.key (kind.ofView view)
        (contributedBy kind (registry.mergedIn frame content)) := by
  induction frame, isFirst, anchors, view, content using @expandContent_induction registry with
  | nil frame isFirst anchors view =>
      rw [expandContent_nil, kind.ofView_finish, ← collect_templates]
      simp [contributedBy, mergedIn]
  | leaf frame isFirst anchors view key item rest ih =>
      -- a leaf adds an item and nothing else
      have hplaced : kind.ofView (frame.place isFirst anchors key item view).view =
          kind.ofView view := kind.ofView_content view _
      rw [expandContent_leaf]
      simp only [ih, hplaced]
      rfl
  | slot frame isFirst anchors view key slot rest ihInside ihRest =>
      have hinside := ofView_expandComponent_of_content ihInside
      -- the templates were given by the filling of the slot, the expansion by its choice
      have hfilling := frame.choose_eq_filling slot
      rw [Prod.ext_iff] at hfilling
      simp only at hfilling
      have hmerged : registry.mergedIn frame ((key, .slot slot) :: rest) =
          registry.merged (frame.choose slot).owner frame.path (frame.choose slot).swaps ++
            registry.mergedIn frame rest := by
        rw [hfilling.1, hfilling.2]
        simp [mergedIn]
      rw [expandContent_slot, hmerged, contributedBy_append, collect_append, ← hinside]
      exact ihRest

theorem ofView_expandComponent (owner : String) (chain : List String) (swaps : Entries Override)
    (view : View) :
    kind.ofView (registry.expandComponent owner chain swaps view).view =
      collect kind.key (kind.ofView view)
        (contributedBy kind (registry.merged owner chain swaps)) :=
  ofView_expandComponent_of_content fun template _ _ =>
    ofView_expandContent ⟨owner, template, chain, swaps⟩ true [] view template.content

theorem ofView_expandEntry (entry : String × Override) (view : View) :
    kind.ofView (registry.expandEntry view entry.1 entry.2).view =
      collect kind.key (kind.ofView view) (registry.contributedByEntry kind entry) := by
  unfold contributedByEntry
  cases hcomponent : entry.2.component? entry.1 with
  | none =>
      rw [kind.ofView_section registry view entry.1 entry.2 hcomponent, ← collect_sections]
  | some component =>
      obtain ⟨owner, swaps⟩ := component
      rw [expandEntry_of_component? hcomponent, ofView_expandComponent]

/-- The entries of an architecture collect what they contribute. -/
theorem ofView_expandEntries (entries : Entries Override) (view : View) :
    kind.ofView (registry.expandEntries view entries).view =
      collect kind.key (kind.ofView view)
        (entries.flatMap (registry.contributedByEntry kind)) := by
  induction entries generalizing view with
  | nil => rfl
  | cons entry rest ih =>
      rw [List.flatMap_cons, collect_append, ← ofView_expandEntry]
      exact ih _

end Registry

namespace Session

open Registry Contribution

variable {α : Type} (session : Session) (registry : Registry) (kind : Collectible α)

theorem ofView_resolveArchitecture (name : String) :
    kind.ofView (session.resolveArchitecture registry name).view =
      collect kind.key [] (registry.contributions kind name) := by
  have hempty : kind.ofView View.empty = [] := kind.ofView_blank []
  unfold contributions resolveArchitecture
  cases registry.architecture? name with
  | none => exact hempty
  | some architecture => exact hempty ▸ ofView_expandEntries architecture.entries View.empty

theorem ofView_resolveDetail {name : String} {overrides : Entries Override} {view : View}
    (h : view ∈ (session.resolveDetail registry name overrides).view) :
    kind.ofView view =
      collect kind.key [] (registry.detailContributions kind name overrides) := by
  have hblank := kind.ofView_blank session.properties
  unfold detailContributions
  unfold resolveDetail at h
  cases hfound : registry.detailOf? name with
  | none => simp [hfound] at h
  | some template =>
      simp only [hfound, Option.mem_some] at h
      rw [← h, expandTemplate, if_neg List.not_mem_nil, ← hblank]
      exact ofView_expandContent ⟨name, template, [], overrides⟩ true [] _ template.content

theorem keeps_resolveArchitecture (name : String) :
    Contribution.Keeps kind.key (registry.contributions kind name)
      (kind.ofView (session.resolveArchitecture registry name).view) := by
  rw [ofView_resolveArchitecture]
  exact Contribution.Keeps.nil.collect _

theorem keeps_resolveDetail {name : String} {overrides : Entries Override} {view : View}
    (h : view ∈ (session.resolveDetail registry name overrides).view) :
    Contribution.Keeps kind.key (registry.detailContributions kind name overrides)
      (kind.ofView view) := by
  rw [ofView_resolveDetail session registry kind h]
  exact Contribution.Keeps.nil.collect _

/-- The contributions to a detail come from templates. -/
theorem unrepeated_detailContributions (name : String) (overrides : Entries Override) :
    Contribution.Unrepeated kind.key (registry.detailContributions kind name overrides) := by
  unfold detailContributions
  split
  · exact List.Pairwise.nil
  · exact Contribution.unrepeated_map _

/-- A view keeps the earliest contribution of every key, of its settings as of its
references. In a detail no key is there twice, because a template adds only what is not
there. In an architecture a section is taken over as it stands, so a key is there twice
exactly if a section repeats one. -/
theorem keeps_contributions (name : String) :
    (∀ overrides, ∀ view ∈ (session.resolveDetail registry name overrides).view,
      (view.settings.map Setting.id).Nodup ∧ (view.references.map Reference.title).Nodup ∧
        Contribution.Keeps Setting.id (registry.detailContributions .settings name overrides)
          view.settings ∧
        Contribution.Keeps Reference.title
          (registry.detailContributions .references name overrides) view.references) ∧
      let view := (session.resolveArchitecture registry name).view
      Contribution.Keeps Setting.id (registry.contributions .settings name) view.settings ∧
        Contribution.Keeps Reference.title (registry.contributions .references name)
          view.references ∧
        ((view.settings.map Setting.id).Nodup ↔
          Contribution.Unrepeated Setting.id (registry.contributions .settings name)) ∧
        ((view.references.map Reference.title).Nodup ↔
          Contribution.Unrepeated Reference.title (registry.contributions .references name)) := by
  refine ⟨fun overrides view hview => ?_, ?_⟩
  · have hsettings := session.keeps_resolveDetail registry .settings hview
    have hreferences := session.keeps_resolveDetail registry .references hview
    exact ⟨hsettings.nodup_iff.mpr (unrepeated_detailContributions ..),
      hreferences.nodup_iff.mpr (unrepeated_detailContributions ..), hsettings, hreferences⟩
  · have hsettings := session.keeps_resolveArchitecture registry .settings name
    have hreferences := session.keeps_resolveArchitecture registry .references name
    exact ⟨hsettings, hreferences, hsettings.nodup_iff, hreferences.nodup_iff⟩

end Session

/-! ## A section that repeats what a component lists -/

/-- A switch for the dark colours. -/
def Setting.dark (label : String) : Setting :=
  ⟨"dark", label, none, none, [], none, none⟩

/-- The same switch and citation are listed by a component, by what stands in it, and by
the diagram. -/
def Registry.annotated : Registry where
  components := [
    ("unit", ⟨[.dark "around"], [{ Reference.titled "Paper" with info := some "around" }], none,
      none, [("core", .slot ⟨"kernel", none⟩)]⟩),
    ("kernel", ⟨[.dark "inside"], [{ Reference.titled "Paper" with info := some "inside" }], none,
      none, [("box", .leaf .blank)]⟩)]
  details := []
  architectures := [("plan", ⟨[("unit", .default), ("settings", .settings [.dark "diagram"]),
    ("references", .references [.titled "Paper"])]⟩)]

/-- What stands inside comes first, and the component adds nothing to it. -/
theorem Session.keeps_contributions_annotated :
    ∃ view ∈ ((Session.start Store.empty).resolveDetail .annotated "unit" []).view,
      view.settings = [.dark "inside"] ∧
        (view.settings.map Setting.id).Nodup ∧ (view.references.map Reference.title).Nodup ∧
        Contribution.Keeps Setting.id (Registry.annotated.detailContributions .settings "unit" [])
          view.settings ∧
        Contribution.Keeps Reference.title
          (Registry.annotated.detailContributions .references "unit" []) view.references := by
  have hsettings : ((Session.start Store.empty).resolveDetail .annotated "unit" []).view.map
      View.settings = some [.dark "inside"] :=
    eq_of_resolveDetailWithin (fun answer => answer.view.map View.settings) (by decide +kernel)
  obtain ⟨view, hview, hlisted⟩ := Option.map_eq_some_iff.mp hsettings
  exact ⟨view, hview, hlisted,
    (keeps_contributions (Session.start Store.empty) .annotated "unit").1 [] view hview⟩

/-- The sections of a diagram are not compared with what its components list. -/
theorem Session.not_forall_nodup_settings :
    ¬ ∀ (session : Session) (registry : Registry) (name : String),
      let view := (session.resolveArchitecture registry name).view
      (view.settings.map Setting.id).Nodup ∧ (view.references.map Reference.title).Nodup := by
  intro h
  have hids : ((Session.start Store.empty).resolveArchitecture .annotated "plan").view.settings.map
      Setting.id = ["dark", "dark"] :=
    eq_of_resolveArchitectureWithin (fun answer => answer.view.settings.map Setting.id)
      (by decide +kernel)
  have hnodup := (h (Session.start Store.empty) .annotated "plan").1
  rw [hids] at hnodup
  exact absurd hnodup (by decide)

end ArchDiagram
