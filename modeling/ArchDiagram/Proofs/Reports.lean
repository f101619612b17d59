/-
# Where reports come from

An expansion that is not cut off leads to further ones: those that fill its slots, and those
of the details that it links. A request begins with the entries of an architecture or with a
detail, and whatever it reports is reported at an expansion that it comes to in this way
(`arises_serve`): a cycle where an instance stands inside itself, a missing component at a
slot, a missing detail at a link.
-/

import ArchDiagram.Proofs.Keeping
import ArchDiagram.Proofs.Nesting

namespace ArchDiagram

open Relation

theorem Template.mem_slotNames_iff {content : Entries Content} {name : String} :
    name ∈ Template.slotNames content ↔
      ∃ key slot, (key, Content.slot slot) ∈ content ∧ slot.component = name := by
  rw [Template.slotNames, List.mem_filterMap]
  constructor
  · rintro ⟨⟨key, entry⟩, hentry, hname⟩
    cases entry with
    | leaf item => simp at hname
    | slot slot => exact ⟨key, slot, hentry, by simpa using hname⟩
  · rintro ⟨key, slot, hslot, rfl⟩
    exact ⟨(key, .slot slot), hslot, rfl⟩

namespace Frame

/-- Expand the template of a frame into a view. -/
def expand (registry : Registry) (frame : Frame) (view : View) : Expansion :=
  registry.expandTemplate frame.owner frame.template frame.chain frame.swaps view

/-- `inner` fills a slot of `outer`. -/
inductive Fills (registry : Registry) (outer : Frame) : Frame → Prop
  | slot {key : String} {slot : Slot} {template : Template} :
      (key, Content.slot slot) ∈ outer.template.content →
      registry.instanceOf? (outer.choose slot).owner = some template →
      Fills registry outer
        ⟨(outer.choose slot).owner, template, outer.path, (outer.choose slot).swaps⟩

/-- `inner` is a detail that `outer` links. It stands inside the same expansions as `outer`,
and under the same overrides. -/
inductive Links (registry : Registry) (outer : Frame) : Frame → Prop
  | detail {name : String} {template : Template} :
      name ∈ outer.template.links → registry.detailOf? name = some template →
      Links registry outer ⟨name, template, outer.chain, outer.swaps⟩

/-- An expansion that is not cut off leads to what fills its slots and to the details that it
links. -/
structure LeadsTo (registry : Registry) (outer inner : Frame) : Prop where
  fresh : outer.owner ∉ outer.chain
  next : outer.Fills registry inner ∨ outer.Links registry inner

section

variable {registry : Registry} {outer inner : Frame}

theorem Fills.chain_eq (h : outer.Fills registry inner) : inner.chain = outer.path := by
  obtain ⟨-, -⟩ := h
  rfl

theorem Fills.instanceOf?_eq (h : outer.Fills registry inner) :
    registry.instanceOf? inner.owner = some inner.template := by
  obtain ⟨-, hfound⟩ := h
  exact hfound

theorem Links.chain_eq (h : outer.Links registry inner) : inner.chain = outer.chain := by
  obtain ⟨-, -⟩ := h
  rfl

theorem Links.detailOf?_eq (h : outer.Links registry inner) :
    registry.detailOf? inner.owner = some inner.template := by
  obtain ⟨-, hfound⟩ := h
  exact hfound

end

end Frame

/-- What the entries of an architecture expand. It stands inside nothing else. -/
inductive Architecture.Starts (registry : Registry) (architecture : Architecture) : Frame → Prop
  | entry {entry : String × Override} {owner : String} {swaps : Entries Override}
      {template : Template} :
      entry ∈ architecture.entries → entry.2.component? entry.1 = some (owner, swaps) →
      registry.instanceOf? owner = some template →
      Starts registry architecture ⟨owner, template, [], swaps⟩

/-- Why something is reported, where expansions come to the frames of `met`: an instance
stands inside itself, a template is expanded, an entry of an architecture or a slot names no
component, or an item or a template links no detail. -/
def Event.Arises (registry : Registry) (met : Frame → Prop) : Event → Prop
  | .cycle owner => ∃ frame, met frame ∧ frame.owner = owner ∧ owner ∈ frame.chain
  | .expanded path => ∃ frame, met frame ∧ frame.owner ∉ frame.chain ∧ frame.path = path
  | .componentMissing name =>
      registry.instanceOf? name = none ∧
        ((∃ architecture ∈ registry.architectures, ∃ entry ∈ architecture.2.entries,
            ∃ swaps, entry.2.component? entry.1 = some (name, swaps)) ∨
          ∃ frame, met frame ∧ ∃ key slot, (key, Content.slot slot) ∈ frame.template.content ∧
            (frame.choose slot).owner = name)
  | .detailMissing name =>
      registry.detailOf? name = none ∧ ∃ frame, met frame ∧ name ∈ frame.template.links
  | .architectureMissing _ => False
  | .notASwap _ _ | .firstPrevious _ _ _ | .untitledReference | .viewStarted _ | .viewFinished _ =>
      True

/-- Why a step is left to be done: its report arises, or the view that it asks for is linked
by an expansion, in whose place the view is built. -/
def Step.Arises (registry : Registry) (met : Frame → Prop) : Step → Prop
  | .note event => event.Arises registry met
  | .attach name chain swaps =>
      ∃ frame, met frame ∧ frame.owner ∉ frame.chain ∧ name ∈ frame.template.links ∧
        chain = frame.chain ∧ swaps = frame.swaps

namespace Frame

variable {registry : Registry} {met : Frame → Prop} {frame : Frame}

theorem arises_opening (h : met frame) (hfresh : frame.owner ∉ frame.chain) :
    ∀ step ∈ frame.opening, step.Arises registry met := by
  intro step hstep
  rcases List.mem_cons.mp hstep with rfl | hstep
  · exact ⟨frame, h, hfresh, rfl⟩
  · obtain ⟨detail, hdetail, rfl⟩ := List.mem_map.mp hstep
    exact ⟨frame, h, hfresh, List.mem_append_left _ hdetail, rfl, rfl⟩

theorem arises_choose (frame : Frame) (slot : Slot) :
    ∀ step ∈ (frame.choose slot).steps, step.Arises registry met := by
  intro step hstep
  obtain ⟨slotClass, rfl⟩ := eq_note_of_mem_choose hstep
  trivial

theorem arises_place (h : met frame) (hfresh : frame.owner ∉ frame.chain) (isFirst : Bool)
    (anchors : Entries String) {key : String} {item : Item} (view : View)
    (hitem : (key, Content.leaf item) ∈ frame.template.content) :
    ∀ step ∈ (frame.place isFirst anchors key item view).steps, step.Arises registry met := by
  intro step hstep
  rcases List.mem_append.mp hstep with hreport | hattach
  · split at hreport
    · obtain rfl := List.mem_singleton.mp hreport
      trivial
    · simp at hreport
  · obtain ⟨name, hname, rfl⟩ := List.mem_map.mp hattach
    refine ⟨frame, h, hfresh, List.mem_append.mpr ((mem_links_settle hname).imp_right ?_), rfl, rfl⟩
    exact fun hlink => List.mem_flatMap.mpr ⟨_, hitem, hlink⟩

end Frame

namespace Registry

variable {registry : Registry} {met : Frame → Prop} {frame : Frame}

/-! ### From an expansion on -/

theorem arises_expandContent
    (hfills : ∀ outer inner, met outer → outer.owner ∉ outer.chain →
      outer.Fills registry inner → met inner)
    {isFirst : Bool} {anchors : Entries String} {view : View} {content : Entries Content}
    (h : met frame) (hfresh : frame.owner ∉ frame.chain)
    (hcontent : ∀ entry ∈ content, entry ∈ frame.template.content) :
    ∀ step ∈ (registry.expandContent frame isFirst anchors view content).steps,
      step.Arises registry met := by
  induction frame, isFirst, anchors, view, content using expandContent_induction with
  | nil => simp [expandContent_nil]
  | leaf frame isFirst anchors view key item rest ih =>
      rw [expandContent_leaf]
      intro step hstep
      rcases List.mem_append.mp hstep with hplace | hrest
      · exact Frame.arises_place h hfresh isFirst anchors view (hcontent _ List.mem_cons_self)
          step hplace
      · exact ih h hfresh (fun entry hentry => hcontent entry (List.mem_cons_of_mem _ hentry))
          step hrest
  | slot frame isFirst anchors view key slot rest ihInside ihRest =>
      rw [expandContent_slot]
      have hslot := hcontent _ List.mem_cons_self
      intro step hstep
      simp only [List.mem_append] at hstep
      rcases hstep with (hchoice | hinside) | hrest
      · exact frame.arises_choose slot step hchoice
      · unfold expandComponent expandTemplate at hinside
        cases hfound : registry.instanceOf? (frame.choose slot).owner with
        | none =>
            simp only [hfound, List.mem_singleton] at hinside
            subst hinside
            exact ⟨hfound, Or.inr ⟨frame, h, key, slot, hslot, rfl⟩⟩
        | some template =>
            simp only [hfound] at hinside
            have hinner := hfills frame _ h hfresh (.slot hslot hfound)
            by_cases hcycle : (frame.choose slot).owner ∈ frame.path
            · simp only [hcycle, if_true, List.mem_singleton] at hinside
              subst hinside
              exact ⟨_, hinner, rfl, hcycle⟩
            · simp only [hcycle, if_false, List.mem_append] at hinside
              rcases hinside with hopening | hinside
              · exact Frame.arises_opening hinner hcycle step hopening
              · exact ihInside template hfound hcycle hinner hcycle (fun _ => id) step hinside
      · exact ihRest h hfresh (fun entry hentry => hcontent entry (List.mem_cons_of_mem _ hentry))
          step hrest

/-- An expansion leaves only steps that arise at the expansions of its own view. -/
theorem arises_expand
    (hfills : ∀ outer inner, met outer → outer.owner ∉ outer.chain →
      outer.Fills registry inner → met inner)
    (h : met frame) (view : View) :
    ∀ step ∈ (frame.expand registry view).steps, step.Arises registry met := by
  unfold Frame.expand expandTemplate
  by_cases hcycle : frame.owner ∈ frame.chain
  · simp only [hcycle, if_true, List.mem_singleton, forall_eq]
    exact ⟨frame, h, rfl, hcycle⟩
  · simp only [hcycle, if_false, List.mem_append]
    rintro step (hopening | hstep)
    · exact Frame.arises_opening h hcycle step hopening
    · exact arises_expandContent hfills h hcycle (fun _ => id) step hstep

/-- Carrying out steps reports only what arises at the expansions that they lead to. -/
theorem arises_perform
    (hleads : ∀ outer inner, met outer → outer.LeadsTo registry inner → met inner)
    {properties : Entries Property} {parent : String} {building : List String} {store : Store}
    {steps : List Step} (hsteps : ∀ step ∈ steps, step.Arises registry met) :
    ∀ event ∈ (registry.perform properties parent building store steps).events,
      event.Arises registry met := by
  have hfills (outer inner) (h : met outer) (hfresh : outer.owner ∉ outer.chain)
      (hfill : outer.Fills registry inner) : met inner := hleads outer inner h ⟨hfresh, .inl hfill⟩
  induction parent, building, store, steps using perform_induction registry properties with
  | nil => simp [perform_nil]
  | note parent building store event rest ih =>
      rw [perform_note]
      intro other hother
      rcases List.mem_cons.mp hother with rfl | hother
      · exact hsteps _ List.mem_cons_self
      · exact ih (fun step hstep => hsteps step (List.mem_cons_of_mem _ hstep)) other hother
  | held parent building store name chain swaps rest hheld ih =>
      rw [perform_held hheld]
      exact ih fun step hstep => hsteps step (List.mem_cons_of_mem _ hstep)
  | missing parent building store name chain swaps rest hheld hmissing ih =>
      rw [perform_missing hheld hmissing]
      intro event hevent
      rcases List.mem_cons.mp hevent with rfl | hevent
      · obtain ⟨frame, h, -, hlink, -, -⟩ := hsteps _ List.mem_cons_self
        exact ⟨hmissing, frame, h, hlink⟩
      · exact ih (fun step hstep => hsteps step (List.mem_cons_of_mem _ hstep)) event hevent
  | build parent building store name chain swaps rest template hheld hfound ihInner ihRest =>
      rw [perform_build hheld hfound]
      intro event hevent
      simp only [List.cons_append, List.mem_cons, List.mem_append] at hevent
      rcases hevent with rfl | hevent | rfl | hevent
      · trivial
      · -- the view is built at the expansion that links it
        obtain ⟨frame, h, hfresh, hlink, rfl, rfl⟩ := hsteps _ List.mem_cons_self
        have hdetail := hleads frame _ h ⟨hfresh, .inr (.detail hlink hfound)⟩
        exact ihInner (arises_expand hfills hdetail _) event hevent
      · trivial
      · exact ihRest (fun step hstep => hsteps step (List.mem_cons_of_mem _ hstep)) event hevent

theorem arises_expandEntries
    (hfills : ∀ outer inner, met outer → outer.owner ∉ outer.chain →
      outer.Fills registry inner → met inner)
    {name : String} {architecture : Architecture}
    (harchitecture : (name, architecture) ∈ registry.architectures)
    {entries : List (String × Override)}
    (hentries : ∀ entry ∈ entries, entry ∈ architecture.entries)
    (h : ∀ frame, architecture.Starts registry frame → met frame) (view : View) :
    ∀ step ∈ (registry.expandEntries view entries).steps, step.Arises registry met := by
  induction entries generalizing view with
  | nil => simp [expandEntries]
  | cons entry rest ih =>
      obtain ⟨key, entry⟩ := entry
      simp only [expandEntries, List.mem_append]
      rintro step (hstep | hstep)
      · cases hcomponent : entry.component? key with
        | none => simp [steps_expandEntry_of_component? hcomponent] at hstep
        | some opened =>
            obtain ⟨owner, swaps⟩ := opened
            rw [expandEntry_of_component? hcomponent] at hstep
            unfold expandComponent at hstep
            cases hfound : registry.instanceOf? owner with
            | none =>
                simp only [hfound, List.mem_singleton] at hstep
                subst hstep
                exact ⟨hfound, Or.inl ⟨(name, architecture), harchitecture, _,
                  hentries _ List.mem_cons_self, swaps, hcomponent⟩⟩
            | some template =>
                simp only [hfound] at hstep
                have hstart := h _ (.entry (hentries _ List.mem_cons_self) hcomponent hfound)
                exact arises_expand hfills hstart view step hstep
      · exact ih (fun entry hentry => hentries entry (List.mem_cons_of_mem _ hentry)) _ step hstep

theorem mem_architectures {name : String} {architecture : Architecture}
    (h : registry.architecture? name = some architecture) :
    (name, architecture) ∈ registry.architectures := by
  obtain ⟨before, after, heq, -⟩ := List.lookup_eq_some_iff.mp h
  rw [heq]
  exact List.mem_append_right _ List.mem_cons_self

end Registry

/-! ### From a request on -/

namespace Request

/-- What a request expands by itself: the entries of an architecture, or a detail. -/
inductive Starts (registry : Registry) : Request → Frame → Prop
  | entry {request : Request} {name : String} {architecture : Architecture} {frame : Frame} :
      request = .architecture name ∨ request = .view name →
      registry.architecture? name = some architecture → architecture.Starts registry frame →
      Starts registry request frame
  | detail {name : String} {overrides : Entries Override} {template : Template} :
      registry.detailOf? name = some template →
      Starts registry (.detail name overrides) ⟨name, template, [], overrides⟩
  | view {name : String} {template : Template} :
      registry.architecture? name = none → registry.detailOf? name = some template →
      Starts registry (.view name) ⟨name, template, [], []⟩

/-- The expansions that a request may come to. Details that are kept already are not expanded
again, so it need not come to all of them. -/
def Meets (registry : Registry) (request : Request) (frame : Frame) : Prop :=
  ∃ start, request.Starts registry start ∧ ReflTransGen (Frame.LeadsTo registry) start frame

variable {registry : Registry} {request : Request} {outer inner : Frame}

theorem Starts.meets (h : request.Starts registry inner) : request.Meets registry inner :=
  ⟨inner, h, .refl⟩

theorem Meets.leadsTo (h : request.Meets registry outer) (hnext : outer.LeadsTo registry inner) :
    request.Meets registry inner := by
  obtain ⟨start, hstart, hreach⟩ := h
  exact ⟨start, hstart, hreach.tail hnext⟩

end Request

namespace Session

variable {registry : Registry}

/-- The session of an architecture that there is reports only what arises at the expansions
of its entries. -/
theorem arises_resolveArchitecture (session : Session) {request : Request} {name : String}
    (hrequest : request = .architecture name ∨ request = .view name) {architecture : Architecture}
    (hfound : registry.architecture? name = some architecture) :
    ∀ event ∈ (session.resolveArchitecture registry name).events,
      event.Arises registry (request.Meets registry) := by
  simp only [resolveArchitecture, hfound, List.cons_append, List.mem_cons, List.mem_append,
    List.not_mem_nil, or_false]
  rintro event (rfl | hevent | rfl)
  · trivial
  · refine Registry.arises_perform (fun _ _ => Request.Meets.leadsTo) ?_ event hevent
    refine Registry.arises_expandEntries ?_ (Registry.mem_architectures hfound) (fun _ => id) ?_
      View.empty
    · exact fun outer inner h hfresh hfills => h.leadsTo ⟨hfresh, .inl hfills⟩
    · exact fun frame hstart => (Request.Starts.entry hrequest hfound hstart).meets
  · trivial

theorem arises_resolveDetail (session : Session) {request : Request} {name : String}
    {overrides : Entries Override} {template : Template}
    (hfound : registry.detailOf? name = some template)
    (hstart : request.Starts registry ⟨name, template, [], overrides⟩) :
    ∀ event ∈ (session.resolveDetail registry name overrides).events,
      event.Arises registry (request.Meets registry) := by
  simp only [resolveDetail, hfound, List.cons_append, List.mem_cons, List.mem_append,
    List.not_mem_nil, or_false]
  rintro event (rfl | hevent | rfl)
  · trivial
  · refine Registry.arises_perform (fun _ _ => Request.Meets.leadsTo) ?_ event hevent
    refine Registry.arises_expand ?_ hstart.meets _
    exact fun outer inner h hfresh hfills => h.leadsTo ⟨hfresh, .inl hfills⟩
  · trivial

/-- Keeping a view reports nothing of its own. -/
theorem events_viewOf (session : Session) (registry : Registry) (name : String) :
    (session.viewOf registry name).events =
      if session.store.contains name then [] else (session.resolve registry name).events := by
  unfold viewOf
  cases hkept : session.store.get? name with
  | some view => simp [Store.contains_iff.mpr ⟨view, hkept⟩]
  | none =>
      rw [if_neg (Store.not_contains_iff.mpr hkept)]
      simp only
      split <;> rfl

/-- A request for something that the registry has reports only what arises at the expansions
that it comes to. -/
theorem arises_serve (session : Session) {request : Request} (h : ¬request.Misses registry) :
    ∀ event ∈ (session.serve registry request).events,
      event.Arises registry (request.Meets registry) := by
  cases request with
  | architecture name =>
      obtain ⟨architecture, hfound⟩ := Option.ne_none_iff_exists'.mp h
      exact session.arises_resolveArchitecture (Or.inl rfl) hfound
  | detail name overrides =>
      obtain ⟨template, hfound⟩ := Option.ne_none_iff_exists'.mp h
      exact session.arises_resolveDetail hfound (.detail hfound)
  | view name =>
      intro event hevent
      rw [serve, events_viewOf, resolve] at hevent
      split at hevent
      · simp at hevent
      · cases harchitecture : registry.architecture? name with
        | some architecture =>
            simp only [harchitecture, Option.isSome_some, if_true] at hevent
            exact session.arises_resolveArchitecture (Or.inr rfl) harchitecture event hevent
        | none =>
            have hdetail : registry.detailOf? name ≠ none := fun hnone => h ⟨harchitecture, hnone⟩
            obtain ⟨template, hfound⟩ := Option.ne_none_iff_exists'.mp hdetail
            simp only [harchitecture, Option.isSome_none, Bool.false_eq_true, if_false] at hevent
            exact session.arises_resolveDetail hfound (.view harchitecture hfound) event hevent
  | renew => simp [serve]

/-- A request for something that the registry does not have reports only that. -/
theorem missing_serve_of_misses (session : Session) {request : Request}
    (h : request.Misses registry) :
    ∀ event ∈ (session.serve registry request).events,
      ∃ name, event = .architectureMissing name ∨ event = .detailMissing name := by
  cases request with
  | architecture name =>
      have hmissing : registry.architecture? name = none := h
      simp [serve, resolveArchitecture, hmissing]
  | detail name overrides =>
      have hmissing : registry.detailOf? name = none := h
      simp [serve, resolveDetail, hmissing]
  | view name =>
      obtain ⟨harchitecture, hdetail⟩ := h
      intro event hevent
      rw [serve, events_viewOf] at hevent
      split at hevent
      · simp at hevent
      · simp only [resolve, harchitecture, Option.isSome_none, Bool.false_eq_true, if_false,
          resolveDetail, hdetail, List.mem_singleton] at hevent
        exact ⟨name, Or.inr hevent⟩
  | renew => exact h.elim

/-- Whatever is reported arises at the expansions that the request comes to, or what it asks
for is missing. -/
theorem arises_or_missing_serve (session : Session) {request : Request} {event : Event}
    (h : event ∈ (session.serve registry request).events) :
    event.Arises registry (request.Meets registry) ∨
      ∃ name, event = .architectureMissing name ∨ event = .detailMissing name := by
  by_cases hmisses : request.Misses registry
  · exact Or.inr (session.missing_serve_of_misses hmisses event h)
  · exact Or.inl (session.arises_serve hmisses event h)

/-- What requests report is reported by one of them. -/
theorem exists_of_mem_events_serveAll {session : Session} {requests : List Request} {event : Event}
    (h : event ∈ (session.serveAll registry requests).events) :
    ∃ request ∈ requests, ∃ before : Session, event ∈ (before.serve registry request).events := by
  induction requests generalizing session with
  | nil => simp [serveAll] at h
  | cons request rest ih =>
      rcases List.mem_append.mp h with hfirst | hrest
      · exact ⟨request, List.mem_cons_self, session, hfirst⟩
      · obtain ⟨other, hother, before, hbefore⟩ := ih hrest
        exact ⟨other, List.mem_cons_of_mem _ hother, before, hbefore⟩

end Session

end ArchDiagram
