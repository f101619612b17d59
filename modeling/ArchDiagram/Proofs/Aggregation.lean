/-
# The order in which a view collects

The settings and references of a view are what its contributions leave, taken over one
after the other and starting from nothing (`Session.aggregates`). The contributions are
those of the entries of an architecture in their order: a section lists everything it has,
and a component lists the templates expanded below it, each of them after what fills its
slots. So what a template lists gives way to what is nested in it
(`find?_expandTemplate_of_mem_nested`).
-/

import ArchDiagram.Proofs.Contributions

namespace ArchDiagram

namespace Contribution

variable {α : Type} (key : α → String)

/-- What is found under a key is the first contribution with it. -/
theorem find?_collect (kept : List α) (contributions : List (Contribution α)) (name : String) :
    (collect key kept contributions).find? (key · == name) =
      (kept ++ contributions.map value).find? (key · == name) := by
  induction contributions generalizing kept with
  | nil => simp [collect]
  | cons first rest ih =>
      rw [collect_cons, ih]
      split
      · simp
      · -- something with the key of the first is there, so the first is not found either way
        rename_i hdropped
        simp only [Bool.or_eq_true, Bool.not_eq_true', not_or, Bool.not_eq_true,
          Bool.not_eq_false] at hdropped
        by_cases hname : key first.value = name
        · have hfound : (kept.find? (key · == name)).isSome := by
            simpa [List.find?_isSome, hname] using hdropped.2
          simp [List.find?_append, Option.or_of_isSome hfound]
        · simp [List.find?_append, hname]

end Contribution

namespace Registry

open Contribution

variable {α : Type} (registry : Registry) (kind : Collectible α)

/-- The templates below an expansion, without the one that is expanded. -/
def nested (frame : Frame) : List Template :=
  frame.template.content.flatMap fun entry =>
    match entry.2 with
    | .leaf _ => []
    | .slot slot =>
        registry.merged (slot.filling frame.swaps).1 frame.path (slot.filling frame.swaps).2

/-- The template comes after everything that is expanded from its content. -/
theorem mergedIn_content (frame : Frame) :
    registry.mergedIn frame frame.template.content =
      registry.nested frame ++ [frame.template] := rfl

variable {registry kind}

theorem ofView_expandTemplate {frame : Frame} (hcycle : frame.owner ∉ frame.chain) (view : View) :
    kind.ofView (registry.expandTemplate frame.owner frame.template frame.chain frame.swaps
        view).view =
      collect kind.key (kind.ofView view)
        (contributedBy kind (registry.nested frame ++ [frame.template])) := by
  rw [expandTemplate, if_neg hcycle, ← mergedIn_content]
  exact ofView_expandContent frame true [] view frame.template.content

/-- Under a key that something nested lists, the expansion leaves what was there before it or
else what the first nested template lists. -/
theorem find?_expandTemplate_of_mem_nested (frame : Frame) (hcycle : frame.owner ∉ frame.chain)
    (view : View) {listed : α}
    (hlisted : listed ∈ (registry.nested frame).flatMap kind.ofTemplate) :
    (kind.ofView (registry.expandTemplate frame.owner frame.template frame.chain frame.swaps
        view).view).find? (kind.key · == kind.key listed) =
      (kind.ofView view ++ (registry.nested frame).flatMap kind.ofTemplate).find?
        (kind.key · == kind.key listed) := by
  have hvalues : (contributedBy kind (registry.nested frame ++ [frame.template])).map value =
      (registry.nested frame).flatMap kind.ofTemplate ++ kind.ofTemplate frame.template := by
    simp [contributedBy, Function.comp_def]
  have hfound : ((kind.ofView view ++ (registry.nested frame).flatMap kind.ofTemplate).find?
      (kind.key · == kind.key listed)).isSome :=
    List.find?_isSome.mpr ⟨listed, List.mem_append_right _ hlisted, beq_self_eq_true _⟩
  -- the search ends before it comes to what the template itself lists
  rw [ofView_expandTemplate hcycle, find?_collect, hvalues, ← List.append_assoc,
    List.find?_append, Option.or_of_isSome hfound]

end Registry

open Registry Contribution

namespace Session

variable {α : Type}

/-- What a session makes of the contributions to the views of a name. -/
structure Aggregates (session : Session) (registry : Registry) (kind : Collectible α)
    (name : String) : Prop where
  /-- An architecture takes over the contributions of its entries. -/
  architecture : kind.ofView (session.resolveArchitecture registry name).view =
    collect kind.key [] (registry.contributions kind name)
  /-- A detail takes over those of its templates. -/
  detail : ∀ overrides, ∀ view ∈ (session.resolveDetail registry name overrides).view,
    kind.ofView view = collect kind.key [] (registry.detailContributions kind name overrides)
  /-- No key is in a detail twice. -/
  nodup : ∀ overrides, ∀ view ∈ (session.resolveDetail registry name overrides).view,
    ((kind.ofView view).map kind.key).Nodup
  /-- In a detail, what is nested comes before what its own template lists. -/
  nested : ∀ overrides template, registry.detailOf? name = some template →
    ∀ view ∈ (session.resolveDetail registry name overrides).view,
    let listed := (registry.nested ⟨name, template, [], overrides⟩).flatMap kind.ofTemplate
    ∀ value ∈ listed, (kind.ofView view).find? (kind.key · == kind.key value) =
      listed.find? (kind.key · == kind.key value)
  /-- Wherever a template is expanded, it takes over what is nested in it and then what it
  lists itself, which gives way to what is nested. -/
  expansion : ∀ (frame : Frame) (view : View), frame.owner ∉ frame.chain →
    let after := registry.expandTemplate frame.owner frame.template frame.chain frame.swaps view
    let listed := (registry.nested frame).flatMap kind.ofTemplate
    kind.ofView after.view = collect kind.key (kind.ofView view)
        (contributedBy kind (registry.nested frame ++ [frame.template])) ∧
      ∀ value ∈ listed, (kind.ofView after.view).find? (kind.key · == kind.key value) =
        (kind.ofView view ++ listed).find? (kind.key · == kind.key value)

variable (session : Session) (registry : Registry) (name : String)

/-- The only template that a detail expands at its top is the one of its name. -/
theorem view_resolveDetail_eq {template : Template}
    (hfound : registry.detailOf? name = some template) {overrides : Entries Override} {view : View}
    (h : view ∈ (session.resolveDetail registry name overrides).view) :
    (registry.expandTemplate name template [] overrides
      (Registry.blankView session.properties)).view = view := by
  simpa [resolveDetail, hfound] using h

theorem aggregates_of_kind (kind : Collectible α) : session.Aggregates registry kind name where
  architecture := session.ofView_resolveArchitecture registry kind name
  detail _ _ hview := session.ofView_resolveDetail registry kind hview
  nodup overrides _ hview := (session.keeps_resolveDetail registry kind hview).nodup_iff.mpr
    (unrepeated_detailContributions registry kind name overrides)
  nested overrides template hfound view hview value hvalue := by
    have hfirst := find?_expandTemplate_of_mem_nested ⟨name, template, [], overrides⟩
      List.not_mem_nil (Registry.blankView session.properties) hvalue
    rwa [view_resolveDetail_eq session registry name hfound hview, kind.ofView_blank,
      List.nil_append] at hfirst
  expansion frame view hcycle :=
    ⟨ofView_expandTemplate hcycle view,
      fun _ hvalue => find?_expandTemplate_of_mem_nested frame hcycle view hvalue⟩

/-- The settings and the references of a view are what comes of processing its contributions
in order. Sections are taken over as they stand; templates come after everything expanded from
their content and add only what is not there. So a detail repeats nothing, and what is nested
wins over what encloses it. -/
theorem aggregates :
    session.Aggregates registry .settings name ∧ session.Aggregates registry .references name :=
  ⟨session.aggregates_of_kind registry name .settings,
    session.aggregates_of_kind registry name .references⟩

/-- The switch of the kernel wins over that of the unit around it; the diagram repeats it. -/
theorem aggregates_annotated :
    ((start Store.empty).resolveArchitecture .annotated "plan").view.settings =
        [.dark "inside", .dark "diagram"] ∧
      collect Setting.id [] (Registry.annotated.contributions .settings "plan") =
        [.dark "inside", .dark "diagram"] ∧
      ∃ view ∈ ((start Store.empty).resolveDetail .annotated "unit" []).view,
        view.settings.find? (·.id == "dark") = some (.dark "inside") := by
  have hplan : ((start Store.empty).resolveArchitecture .annotated "plan").view.settings =
      [.dark "inside", .dark "diagram"] :=
    eq_of_resolveArchitectureWithin (fun answer => answer.view.settings) (by decide +kernel)
  obtain ⟨template, hfound⟩ : ∃ template, Registry.annotated.detailOf? "unit" = some template :=
    ⟨_, rfl⟩
  have hnested : (Registry.annotated.nested ⟨"unit", template, [], []⟩).flatMap
      Template.settings = [.dark "inside"] := by
    obtain rfl := Option.some.inj hfound
    have hkernel : (Registry.annotated.merged "kernel" ["unit"] []).flatMap Template.settings =
        [.dark "inside"] := by
      rw [merged_eq]
      rfl
    rw [nested, List.flatMap_cons, List.flatMap_nil, List.append_nil]
    exact hkernel
  refine ⟨hplan, (aggregates (start Store.empty) _ "plan").1.architecture.symm.trans hplan, ?_⟩
  cases hview : ((start Store.empty).resolveDetail .annotated "unit" []).view with
  | none => simp [resolveDetail, hfound] at hview
  | some view =>
      have hfirst := (aggregates _ _ "unit").1.nested [] template hfound view hview (.dark "inside")
        (hnested ▸ List.mem_singleton_self _)
      exact ⟨view, rfl, hfirst.trans (congrArg _ hnested)⟩

end Session

end ArchDiagram
