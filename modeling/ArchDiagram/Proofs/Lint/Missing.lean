/-
# Names without a template

The lint looks up every name that a template or an architecture writes down. Resolution comes
to names in another way, through slots that overrides fill, through details and through what
stands inside these, but it comes to no others (`supplied_of_meets`). So in a registry in which
the lint misses nothing, nothing is missed when views are opened
(`not_notFound_serveAll`).
-/

import ArchDiagram.Lint
import ArchDiagram.Proofs.DrillDown
import ArchDiagram.Proofs.Graph
import ArchDiagram.Proofs.Reports

namespace ArchDiagram

/-- Something that was asked for was not found, and is left out. -/
def Event.NotFound : Event → Prop
  | .architectureMissing _ | .detailMissing _ | .componentMissing _ => True
  | _ => False

namespace Override

/-- What an entry expands, and whatever its overrides may put in a slot, is a name of the
entry. -/
theorem mem_componentsOf_of_component? {key owner name : String} {entry : Override}
    {swaps : Entries Override} (h : entry.component? key = some (owner, swaps))
    (hname : name = owner ∨ name ∈ replacementsIn swaps) :
    name ∈ Architecture.componentsOf key entry := by
  cases entry with
  | references | properties | settings => simp [component?] at h
  | default =>
      obtain ⟨rfl, rfl⟩ : key = owner ∧ [] = swaps := by simpa [component?] using h
      simpa [Architecture.componentsOf, replacementsIn] using hname
  | nested children =>
      obtain ⟨rfl, rfl⟩ : key = owner ∧ children = swaps := by simpa [component?] using h
      simpa [Architecture.componentsOf] using hname
  | swap replacement overrides =>
      obtain ⟨rfl, rfl⟩ : replacement = owner ∧ overrides.getD [] = swaps := by
        simpa [component?] using h
      cases overrides <;>
        simpa [Architecture.componentsOf, replacements, replacementsIn] using hname

end Override

namespace Registry

/-- Every name that a template or an architecture writes down has its template. -/
structure Supplied (registry : Registry) : Prop where
  slots : ∀ name ∈ registry.slotNames, (registry.instanceOf? name).isSome
  links : ∀ name ∈ registry.linkNames, (registry.detailOf? name).isSome
  entries : ∀ architecture ∈ registry.architectures,
    ∀ name ∈ architecture.2.componentNames, (registry.instanceOf? name).isSome

variable {registry : Registry}

theorem mem_missingComponents {names : List String} {name : String} (hname : name ∈ names)
    (hmissing : registry.instanceOf? name = none) :
    .missingComponent name ∈ registry.missingComponents names :=
  List.mem_map_of_mem (List.mem_filter.mpr ⟨hname, by simp [hmissing]⟩)

theorem mem_missingDetails {names : List String} {name : String} (hname : name ∈ names)
    (hmissing : registry.detailOf? name = none) :
    .missingDetail name ∈ registry.missingDetails names :=
  List.mem_map_of_mem
    (List.mem_filter.mpr ⟨List.mem_eraseDups.mpr hname, by simp [hmissing]⟩)

/-- What is wrong with a template is found by the lint. -/
theorem exists_mem_lint_of_template {template : Template}
    (htemplate : template ∈ registry.templates) {mistake : Mistake}
    (h : mistake ∈ registry.templateMistakes template) :
    ∃ finding ∈ registry.lint, finding.mistake = mistake := by
  obtain ⟨entry, hentry, rfl⟩ := List.mem_map.mp htemplate
  refine ⟨⟨entry.1, mistake⟩, ?_, rfl⟩
  unfold lint
  refine List.mem_append_left _ (List.mem_append_left _ (List.mem_flatMap.mpr ⟨entry, hentry, ?_⟩))
  exact List.mem_map_of_mem h

theorem exists_mem_lint_of_architecture {entry : String × Architecture}
    (hentry : entry ∈ registry.architectures) {mistake : Mistake}
    (h : mistake ∈ registry.missingComponents entry.2.componentNames) :
    ∃ finding ∈ registry.lint, finding.mistake = mistake := by
  refine ⟨⟨entry.1, mistake⟩, ?_, rfl⟩
  unfold lint
  refine List.mem_append_left _ (List.mem_append_right _ (List.mem_flatMap.mpr ⟨entry, hentry, ?_⟩))
  exact List.mem_map_of_mem h

/-- A registry in which the lint misses nothing has every template that it names. -/
theorem supplied_of_lint (h : ∀ finding ∈ registry.lint,
    finding.rule ≠ "missing-component" ∧ finding.rule ≠ "missing-detail") : registry.Supplied := by
  refine ⟨fun name hname => ?_, fun name hname => ?_, fun entry hentry name hname => ?_⟩
  all_goals rw [Option.isSome_iff_ne_none]; intro hmissing
  · obtain ⟨template, htemplate, hslot⟩ := List.mem_flatMap.mp hname
    have hmistake : .missingComponent name ∈ registry.templateMistakes template :=
      List.mem_append_left _ (List.mem_append_left _ (mem_missingComponents hslot hmissing))
    obtain ⟨finding, hfinding, heq⟩ := exists_mem_lint_of_template htemplate hmistake
    exact (h finding hfinding).1 (by simp [Finding.rule, heq])
  · obtain ⟨template, htemplate, hlink⟩ := List.mem_flatMap.mp hname
    have hmistake : .missingDetail name ∈ registry.templateMistakes template :=
      List.mem_append_left _ (List.mem_append_right _ (mem_missingDetails hlink hmissing))
    obtain ⟨finding, hfinding, heq⟩ := exists_mem_lint_of_template htemplate hmistake
    exact (h finding hfinding).2 (by simp [Finding.rule, heq])
  · obtain ⟨finding, hfinding, heq⟩ :=
      exists_mem_lint_of_architecture hentry (mem_missingComponents hname hmissing)
    exact (h finding hfinding).1 (by simp [Finding.rule, heq])

theorem Supplied.componentNames (h : registry.Supplied) {name : String}
    {architecture : Architecture} (harchitecture : (name, architecture) ∈ registry.architectures)
    {entry : String × Override} (hentry : entry ∈ architecture.entries) {owner other : String}
    {swaps : Entries Override}
    (hcomponent : entry.2.component? entry.1 = some (owner, swaps))
    (hother : other = owner ∨ other ∈ Override.replacementsIn swaps) :
    (registry.instanceOf? other).isSome :=
  h.entries _ harchitecture other (List.mem_flatMap.mpr
    ⟨entry, hentry, Override.mem_componentsOf_of_component? hcomponent hother⟩)

end Registry

/-! ### Where resolution comes to -/

/-- An expansion of a template of the registry under overrides whose replacements all have a
template. -/
structure Frame.Supplied (registry : Registry) (frame : Frame) : Prop where
  template : frame.template ∈ registry.templates
  swaps : ∀ name ∈ Override.replacementsIn frame.swaps, (registry.instanceOf? name).isSome

variable {registry : Registry}

theorem Frame.Supplied.leadsTo {outer inner : Frame} (h : outer.Supplied registry)
    (hnext : outer.LeadsTo registry inner) : inner.Supplied registry := by
  rcases hnext.next with ⟨-, hfound⟩ | ⟨-, hfound⟩
  · exact ⟨Registry.instanceOf?_mem hfound,
      fun name hname => h.swaps name (outer.replacementsIn_choose_subset _ hname)⟩
  · exact ⟨Registry.detailOf?_mem hfound, h.swaps⟩

theorem Request.Starts.supplied (h : registry.Supplied) {request : Request} (hopens : request.Opens)
    {frame : Frame} (hstart : request.Starts registry frame) : frame.Supplied registry := by
  cases hstart with
  | entry hrequest harchitecture hstart =>
      obtain ⟨hentry, hcomponent, hfound⟩ := hstart
      refine ⟨Registry.instanceOf?_mem hfound, fun name hname => ?_⟩
      exact h.componentNames (Registry.mem_architectures harchitecture) hentry hcomponent
        (Or.inr hname)
  | detail hfound => exact hopens.elim
  | view harchitecture hfound =>
      exact ⟨Registry.detailOf?_mem hfound, by simp [Override.replacementsIn]⟩

/-- Opening a view comes only to templates of the registry, under overrides whose replacements
all have one. -/
theorem Request.supplied_of_meets (h : registry.Supplied) {request : Request}
    (hopens : request.Opens) {frame : Frame} (hmeets : request.Meets registry frame) :
    frame.Supplied registry := by
  obtain ⟨start, hstart, hreach⟩ := hmeets
  induction hreach with
  | refl => exact hstart.supplied h hopens
  | tail _ hnext ih => exact ih.leadsTo hnext

theorem Event.Arises.not_notFound (h : registry.Supplied) {met : Frame → Prop}
    (hmet : ∀ frame, met frame → frame.Supplied registry) {event : Event}
    (hevent : event.Arises registry met) : ¬event.NotFound := by
  cases event with
  | architectureMissing => exact hevent.elim
  | detailMissing name =>
      obtain ⟨hmissing, frame, hframe, hlink⟩ := hevent
      have hfound := h.links name (Registry.linkNames_subset (hmet frame hframe).template hlink)
      simp [hmissing] at hfound
  | componentMissing name =>
      obtain ⟨hmissing, hentry | ⟨frame, hframe, key, slot, hslot, rfl⟩⟩ := hevent
      · obtain ⟨architecture, harchitecture, entry, hentry, swaps, hcomponent⟩ := hentry
        have hfound := h.componentNames harchitecture hentry hcomponent (Or.inl rfl)
        simp [hmissing] at hfound
      · -- the slot is filled with its own component or with a replacement
        have hfound : (registry.instanceOf? (frame.choose slot).owner).isSome := by
          rcases frame.choose_owner_mem slot with howner | howner
          · rw [howner]
            exact h.slots _ (Registry.slotNames_subset (hmet frame hframe).template
              (Template.mem_slotNames_iff.mpr ⟨key, slot, hslot, rfl⟩))
          · exact (hmet frame hframe).swaps _ howner
        simp [hmissing] at hfound
  | cycle | notASwap | firstPrevious | untitledReference | viewStarted | viewFinished | expanded =>
      exact id

namespace Session

/-- If the lint misses no component and no detail, then opening architectures, details and
components of the registry, in any session and however often, leaves nothing out because it
was not found. -/
theorem not_notFound_serveAll (hlint : ∀ finding ∈ registry.lint,
      finding.rule ≠ "missing-component" ∧ finding.rule ≠ "missing-detail")
    (session : Session) {requests : List Request}
    (hrequests : ∀ request ∈ requests, request.Opens ∧ ¬request.Misses registry) :
    ∀ event ∈ (session.serveAll registry requests).events, ¬event.NotFound := by
  intro event hevent
  obtain ⟨request, hrequest, before, hserved⟩ := exists_of_mem_events_serveAll hevent
  obtain ⟨hopens, hhas⟩ := hrequests request hrequest
  have hsupplied := Registry.supplied_of_lint hlint
  exact (before.arises_serve hhas event hserved).not_notFound hsupplied
    fun frame => Request.supplied_of_meets hsupplied hopens

end Session

/-- A diagram that names its components in every way: by themselves and by a number, in the
slots of components and of details, as a replacement inside a replacement, and as a detail. -/
def Registry.sketched : Registry where
  components := [
    ("block", .informed [("in", .leaf (.opening "sketch")),
      ("attn", .slot ⟨"mha", some "attention"⟩)]),
    ("mha", .informed [("box", .leaf (.opening "norm_1"))]),
    ("gqa", .informed [("box", .leaf .blank), ("before", .slot ⟨"norm_2", some "norm"⟩)]),
    ("norm", .informed [("box", .leaf .blank)]),
    ("rms", .informed [("box", .leaf .blank)])]
  details := [("sketch", .informed [("part", .slot ⟨"mha_1", none⟩)])]
  architectures := [("top", ⟨[
    ("block", .nested [("attention", .swap "gqa_3" (some [("norm", .swap "rms" none)]))])]⟩)]

/-- Nothing is missed, in whatever order the views are opened. -/
theorem Session.not_notFound_sketched :
    let requests : List Request := [.view "top", .renew, .view "sketch", .view "norm_7"]
    (∀ finding ∈ Registry.sketched.lint,
        finding.rule ≠ "missing-component" ∧ finding.rule ≠ "missing-detail") ∧
      (∀ request ∈ requests, request.Opens ∧ ¬request.Misses .sketched) ∧
      ∀ event ∈ ((Session.start Store.empty).serveAll .sketched requests).events,
        ¬event.NotFound := by
  intro requests
  have hcycles : Registry.sketched.containment.cycles = [] :=
    Graph.cycles_eq_of_cyclesWithin 20 (by decide +kernel)
  have hlint : Registry.sketched.lint = [] := by
    rw [Registry.lint, hcycles]
    decide +kernel
  have hlint : ∀ finding ∈ Registry.sketched.lint,
      finding.rule ≠ "missing-component" ∧ finding.rule ≠ "missing-detail" := by simp [hlint]
  have hrequests : ∀ request ∈ requests, request.Opens ∧ ¬request.Misses .sketched := by
    have htop : Registry.sketched.architecture? "top" ≠ none := by decide +kernel
    have hsketch : Registry.sketched.detailOf? "sketch" ≠ none := by decide +kernel
    have hnorm : Registry.sketched.detailOf? "norm_7" ≠ none := by decide +kernel
    simp [requests, Request.Opens, Request.Misses, htop, hsketch, hnorm]
  exact ⟨hlint, hrequests, not_notFound_serveAll hlint (Session.start Store.empty) hrequests⟩

end ArchDiagram
