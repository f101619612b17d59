/-
# Expanding only appends

An expansion never touches what a view holds already. Each of its leaves, also those of
the components in its slots, goes behind it in turn, under the first identifier that is
free at that moment. Since every identifier was free when it was given, no two items
share one, however their names are spelled: `foo_1` with `a` and `foo` with `1_a` ask
for the same one. Main statement: `Registry.appends_expandTemplate`.
-/

import ArchDiagram.Proofs.Flattening
import ArchDiagram.Proofs.Nesting

namespace ArchDiagram

namespace Registry

variable {registry other : Registry}

/-- Expanding a template places the leaves of its content in turn; inside an expansion of
the same instance there are none. -/
theorem placedInTurn_expandTemplate (registry : Registry) (owner : String) (template : Template)
    (chain : List String) (swaps : Entries Override) (view : View) :
    ∃ placed, (registry.expandTemplate owner template chain swaps view).view.content =
        view.content ++ placed ∧
      PlacedInTurn view.content.names
        (if owner ∈ chain then []
          else registry.leavesIn ⟨owner, template, chain, swaps⟩ template.content) placed := by
  unfold expandTemplate
  by_cases hcycle : owner ∈ chain
  · rw [if_pos hcycle, if_pos hcycle]
    exact ⟨[], (List.append_nil _).symm, .nil⟩
  · rw [if_neg hcycle, if_neg hcycle]
    exact registry.placedInTurn_expandContent ⟨owner, template, chain, swaps⟩ true [] view
      template.content

theorem expandEntries_append (registry : Registry) (view : View)
    (first second : List (String × Override)) :
    (registry.expandEntries view (first ++ second)).view =
      (registry.expandEntries (registry.expandEntries view first).view second).view := by
  induction first generalizing view with
  | nil => rfl
  | cons entry rest ih => exact ih _

/-- More entries behind some show more items behind theirs, where the components are the
same. -/
theorem prefix_content_expandEntries (hsame : other.components = registry.components)
    (view : View) (entries more : List (String × Override)) :
    (registry.expandEntries view entries).view.content <+:
      (other.expandEntries view (entries ++ more)).view.content := by
  rw [expandEntries_congr hsame, expandEntries_append]
  obtain ⟨placed, hcontent, -⟩ :=
    registry.placedInTurn_expandEntries (registry.expandEntries view entries).view more
  exact ⟨placed, hcontent.symm⟩

end Registry

theorem Session.content_resolveArchitecture {session : Session} {registry : Registry}
    {name : String} {architecture : Architecture}
    (hfound : registry.architecture? name = some architecture) :
    (session.resolveArchitecture registry name).view.content =
      (registry.expandEntries View.empty architecture.entries).view.content := by
  rw [resolveArchitecture, hfound]

/-- Whatever stands in a view stays as it is when a template is expanded into it, and
behind it there is one entry for each leaf, in turn, under the first identifier that is
free. No identifier is given twice, and none that the view has is given again. If an
architecture has more entries behind those of another one, it shows more items behind
those of the other one. -/
theorem Registry.appends_expandTemplate :
    (∀ (registry : Registry) (owner : String) (template : Template) (chain : List String)
        (swaps : Entries Override) (view : View),
      ∃ placed, (registry.expandTemplate owner template chain swaps view).view.content =
          view.content ++ placed ∧
        PlacedInTurn view.content.names
          (if owner ∈ chain then []
            else registry.leavesIn ⟨owner, template, chain, swaps⟩ template.content) placed ∧
        placed.names.Nodup ∧ ∀ ident ∈ placed.names, ident ∉ view.content.names) ∧
    ∀ (short long : Registry) (session session' : Session) (name name' : String)
        (entries more : Entries Override),
      long.components = short.components →
      short.architecture? name = some ⟨entries⟩ →
      long.architecture? name' = some ⟨entries ++ more⟩ →
      (session.resolveArchitecture short name).view.content <+:
        (session'.resolveArchitecture long name').view.content := by
  refine ⟨fun registry owner template chain swaps view => ?_, ?_⟩
  · obtain ⟨placed, hcontent, hplaced⟩ :=
      registry.placedInTurn_expandTemplate owner template chain swaps view
    exact ⟨placed, hcontent, hplaced, hplaced.nodup_names⟩
  · intro short long session session' name name' entries more hsame hshort hlong
    rw [Session.content_resolveArchitecture hshort, Session.content_resolveArchitecture hlong]
    exact prefix_content_expandEntries hsame View.empty entries more

/-- A component of which some identifiers are spelled alike. -/
def Registry.spelledAlike (entries : Entries Override) : Registry where
  components := [("foo", .informed [("a", .leaf .blank), ("1_a", .leaf .blank)])]
  details := []
  architectures := [("top", ⟨entries⟩)]

/-- The second instance asks for `foo_1_a`, which the first one has, and so does the third
one with its first number. -/
theorem appends_spelledAlike :
    let short := Registry.spelledAlike [("foo", .default), ("foo_1", .default)]
    let long := Registry.spelledAlike
      [("foo", .default), ("foo_1", .default), ("again", .swap "foo" none)]
    let session := Session.start Store.empty
    (session.resolveArchitecture long "top").view.content.names =
        ["foo_a", "foo_1_a", "foo_1_1_a", "foo_1_1_1_a", "foo_2_a", "foo_2_1_a"] ∧
      (session.resolveArchitecture short "top").view.content <+:
        (session.resolveArchitecture long "top").view.content :=
  ⟨Session.eq_of_resolveArchitectureWithin (fun answer => answer.view.content.names)
      (by decide +kernel),
    Registry.appends_expandTemplate.2 _ _ _ _ "top" "top"
      [("foo", .default), ("foo_1", .default)] [("again", .swap "foo" none)] rfl rfl rfl⟩

end ArchDiagram
