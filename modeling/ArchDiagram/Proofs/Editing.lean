/-
# Changing registries

A registry takes templates one by one, when it is read (`table_of_ofParts`) and later on
(`table_editAll`). They are put into the table of their kind in order, except that none is put
under a name that does not lead to itself: a registry with such a name cannot be read, and an
insertion of it leaves the registry as it is. Architectures do not touch the templates.
-/

import ArchDiagram.Proofs.Document.Rows
import ArchDiagram.Proofs.Entries
import ArchDiagram.Registry

namespace ArchDiagram.Registry

/-- The templates of a kind. -/
def table (registry : Registry) : Kind → Entries Template
  | .component => registry.components
  | .detail => registry.details

/-- Add a template of a kind. -/
def insertTemplate (registry : Registry) : Kind → String → Template → Except Fault Registry
  | .component => registry.insertComponent
  | .detail => registry.insertDetail

/-- A change that puts some templates of a kind under their names, which lead to themselves, and
leaves the other kind as it is. -/
structure Takes (kind : Kind) (pairs : List (String × Template)) (before after : Registry) :
    Prop where
  key : ∀ pair ∈ pairs, Ident.templateKey pair.1 = pair.1
  table : after.table kind = (before.table kind).putAll pairs
  others : ∀ other ≠ kind, after.table other = before.table other

variable {registry before after : Registry} {kind : Kind}

theorem Takes.nil (registry : Registry) (kind : Kind) : Takes kind [] registry registry :=
  ⟨List.forall_mem_nil _, rfl, fun _ _ => rfl⟩

theorem Takes.cons {pair : String × Template} {rest : List (String × Template)}
    {middle : Registry} (hfirst : Takes kind [pair] before middle)
    (hrest : Takes kind rest middle after) : Takes kind (pair :: rest) before after where
  key := List.forall_mem_cons.mpr ⟨hfirst.key pair (List.mem_singleton_self _), hrest.key⟩
  table := by rw [hrest.table, hfirst.table, Entries.putAll_cons, Entries.putAll_cons]; rfl
  others other hother := (hrest.others other hother).trans (hfirst.others other hother)

/-! ## One template -/

theorem takes_put (registry : Registry) {name : String} (hkey : Ident.templateKey name = name)
    (template : Template) :
    Takes .component [(name, template)] registry
        { registry with components := registry.components.put name template } ∧
      Takes .detail [(name, template)] registry
        { registry with details := registry.details.put name template } := by
  have hkeys : ∀ pair ∈ [(name, template)], Ident.templateKey pair.1 = pair.1 := by
    simpa using hkey
  refine ⟨⟨hkeys, rfl, fun other hother => ?_⟩, ⟨hkeys, rfl, fun other hother => ?_⟩⟩
  · cases other with
    | component => exact absurd rfl hother
    | detail => rfl
  · cases other with
    | component => rfl
    | detail => exact absurd rfl hother

/-- A template is refused if its name does not lead to itself, and is taken otherwise. -/
theorem insertTemplate_cases (registry : Registry) (kind : Kind) (name : String)
    (template : Template) :
    (Ident.templateKey name ≠ name ∧
      registry.insertTemplate kind name template = .error (.reservedSuffix kind name)) ∨
    ∃ after, registry.insertTemplate kind name template = .ok after ∧
      Takes kind [(name, template)] registry after := by
  cases hreserved : Ident.hasReservedSuffix name with
  | true =>
      refine Or.inl ⟨Ident.hasReservedSuffix_iff.mp hreserved, ?_⟩
      cases kind <;> exact if_pos hreserved
  | false =>
      have htakes := registry.takes_put (Ident.templateKey_eq_self hreserved) template
      have hplain : ¬Ident.hasReservedSuffix name = true := Bool.eq_false_iff.mp hreserved
      cases kind with
      | component => exact Or.inr ⟨_, if_neg hplain, htakes.1⟩
      | detail => exact Or.inr ⟨_, if_neg hplain, htakes.2⟩

theorem takes_of_insertTemplate {name : String} {template : Template}
    (h : registry.insertTemplate kind name template = .ok after) :
    Takes kind [(name, template)] registry after := by
  rcases registry.insertTemplate_cases kind name template with
    ⟨-, hrefused⟩ | ⟨other, hother, htakes⟩
  · cases hrefused.symm.trans h
  · obtain rfl := Except.ok.inj (hother.symm.trans h)
    exact htakes

/-! ## Reading -/

theorem takes_of_foldlM {entries : List (String × Template)}
    (h : entries.foldlM (fun kept entry => kept.insertTemplate kind entry.1 entry.2) before =
      .ok after) : Takes kind entries before after := by
  induction entries generalizing before with
  | nil =>
      obtain rfl := Except.ok.inj h
      exact .nil before kind
  | cons entry rest ih =>
      rw [List.foldlM_cons] at h
      obtain ⟨middle, hmiddle, hrest⟩ := Document.exists_of_bind_eq_ok h
      exact (takes_of_insertTemplate hmiddle).cons (ih hrest)

/-- The templates of a registry that is read are those it is read from. -/
theorem table_of_ofParts {parts : Registry} (h : ofParts parts = .ok registry) (kind : Kind) :
    registry.table kind = Entries.collect (parts.table kind) ∧
      ∀ entry ∈ parts.table kind, Ident.templateKey entry.1 = entry.1 := by
  obtain ⟨first, hfirst, h⟩ := Document.exists_of_bind_eq_ok h
  obtain ⟨second, hsecond, h⟩ := Document.exists_of_bind_eq_ok h
  obtain rfl := Except.ok.inj h
  have hcomponents : Takes .component parts.components empty first := takes_of_foldlM hfirst
  have hdetails : Takes .detail parts.details first second := takes_of_foldlM hsecond
  -- the details are inserted into the registry that has the components, and leave these alone
  cases kind with
  | component =>
      refine ⟨?_, hcomponents.key⟩
      exact (hdetails.others .component (by decide)).trans hcomponents.table
  | detail =>
      refine ⟨hdetails.table.trans ?_, hdetails.key⟩
      rw [hcomponents.others .detail (by decide)]
      rfl

/-! ## Editing -/

/-- What can be done to a registry after it has been read. -/
inductive Edit
  | insertTemplate (kind : Kind) (name : String) (template : Template)
  | insertArchitecture (name : String) (architecture : Architecture)
  | mergeArchitectures (architectures : Architectures)

/-- Carry out an edit; a template that is refused leaves the registry as it is. -/
def edit (registry : Registry) : Edit → Registry
  | .insertTemplate kind name template =>
      (registry.insertTemplate kind name template).toOption.getD registry
  | .insertArchitecture name architecture => registry.insertArchitecture name architecture
  | .mergeArchitectures architectures => registry.mergeArchitectures architectures

/-- Carry out edits in order. -/
def editAll (registry : Registry) (edits : List Edit) : Registry :=
  edits.foldl edit registry

/-- What an edit puts among the templates of a kind: nothing under a name that does not lead to
itself. -/
def Edit.adds? (kind : Kind) : Edit → Option (String × Template)
  | .insertTemplate other name template =>
      if other = kind ∧ Ident.templateKey name = name then some (name, template) else none
  | .insertArchitecture _ _ | .mergeArchitectures _ => none

theorem Edit.templateKey_of_adds? {edit : Edit} {pair : String × Template}
    (h : edit.adds? kind = some pair) : Ident.templateKey pair.1 = pair.1 := by
  cases edit with
  | insertTemplate other name template =>
      simp only [adds?, Option.ite_none_right_eq_some, Option.some.injEq] at h
      obtain ⟨⟨-, hkey⟩, rfl⟩ := h
      exact hkey
  | insertArchitecture | mergeArchitectures => cases h

/-- What one edit makes of the templates of a kind. -/
theorem table_edit (registry : Registry) (edit : Edit) (kind : Kind) :
    (registry.edit edit).table kind =
      (registry.table kind).putAll (edit.adds? kind).toList := by
  cases edit with
  | insertTemplate other name template =>
      rw [Registry.edit, Edit.adds?]
      rcases registry.insertTemplate_cases other name template with
        ⟨hkey, hrefused⟩ | ⟨after, hafter, htakes⟩
      · rw [hrefused, if_neg fun h => hkey h.2]
        rfl
      · rw [hafter]
        by_cases hkind : other = kind
        · subst hkind
          rw [if_pos ⟨rfl, htakes.key _ (List.mem_singleton_self _)⟩]
          exact htakes.table
        · rw [if_neg fun h => hkind h.1]
          exact htakes.others kind (Ne.symm hkind)
  | insertArchitecture | mergeArchitectures => cases kind <;> rfl

/-- What some edits make of the templates of a kind. -/
theorem table_editAll (registry : Registry) (edits : List Edit) (kind : Kind) :
    (registry.editAll edits).table kind =
      (registry.table kind).putAll (edits.filterMap (Edit.adds? kind)) := by
  induction edits generalizing registry with
  | nil => rfl
  | cons edit rest ih =>
      rw [editAll, List.foldl_cons, ← editAll, ih, table_edit]
      cases hadds : edit.adds? kind with
      | none => rw [List.filterMap_cons_none hadds]; rfl
      | some pair => rw [List.filterMap_cons_some hadds]; rfl

end ArchDiagram.Registry
