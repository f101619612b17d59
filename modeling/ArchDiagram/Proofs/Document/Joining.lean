/-
# Documents one after the other

Nothing in a document reaches over its end: a second document that starts without indentation
starts with the name of an architecture, and there every block, section and quoted value ends.
So two documents on successive lines are read as both of them, the architectures of the second
one put into those of the first, and it makes no difference to a registry whether it is given
the two together or one after the other. Main statement: `parse_joined`.
-/

import ArchDiagram.Proofs.Document.Indentation
import ArchDiagram.Proofs.Document.Parts
import ArchDiagram.Proofs.Entries
import ArchDiagram.Registry

namespace ArchDiagram.Document

/-! ## Lines of two texts -/

namespace Line

theorem ofText?_add (number shift : ℕ) (written : List Char) :
    ofText? (number + shift) written = (ofText? number written).map (relabel (· + shift) id) := by
  rw [ofText?, ofText?]
  split <;> rfl

theorem listFrom_add (number shift : ℕ) (pieces : List (List Char)) :
    listFrom (number + shift) pieces =
      (listFrom number pieces).map (relabel (· + shift) id) := by
  induction pieces generalizing number with
  | nil => rfl
  | cons piece rest ih =>
      rw [listFrom, listFrom, ofText?_add, Nat.add_right_comm, ih, List.map_append, Option.toList_map]

theorem listFrom_append (number : ℕ) (first second : List (List Char)) :
    listFrom number (first ++ second) =
      listFrom number first ++ listFrom (number + first.length) second := by
  induction first generalizing number with
  | nil => rfl
  | cons piece rest ih =>
      rw [List.cons_append, listFrom, listFrom, ih, List.append_assoc, List.length_cons,
        Nat.add_assoc, Nat.add_comm 1]

/-- The lines of a text behind another one are numbered on. -/
theorem all_joined (first second : List Char) :
    all (first ++ '\n' :: second) =
      all first ++ (all second).map (relabel (· + (Text.splitAll '\n' first).length) id) := by
  rw [all, Text.splitAll_append, listFrom_append, listFrom_add, all, all]

end Line

/-! ## Parts of two documents -/

variable {number : ℕ → ℕ} {lines earlier later : List Line}

theorem parts_relabel (lines : List Line) :
    parts (lines.map (Line.relabel number id)) = (parts lines).map (Slice.relabel number id) := by
  cases lines with
  | nil => rfl
  | cons first rest =>
      rw [List.map_cons, parts, slices_relabel strictMono_id rfl, parts, List.map_cons]
      rfl

/-- Lines that can be read without the lines before them are read on behind them as well, if
they start with a header. -/
theorem ofLines_joined {first second : Architectures} (hearlier : ofLines earlier = .ok first)
    (hlater : ofLines later = .ok second) (hheader : ∀ line ∈ later.head?, line.indent = 0) :
    ofLines (earlier ++ later.map (Line.relabel number id)) = .ok (Entries.putAll first second) := by
  obtain ⟨header, rest, found, rfl, hrest, hheading, hfound, rfl⟩ := ofLines_eq_ok_iff.mp hearlier
  obtain ⟨next, others, read, rfl, -, hnext, hread, rfl⟩ := ofLines_eq_ok_iff.mp hlater
  have hstart : ∀ line ∈ ((next :: others).map (Line.relabel number id)).head?,
      isHeader line = true := by
    rintro line ⟨⟩
    rw [isHeader_relabel strictMono_id rfl]
    simp [isHeader, hnext, hheader next rfl]
  have hshifted : architecturesOf (parts ((next :: others).map (Line.relabel number id))) =
      .ok read := by
    rw [parts_relabel, architecturesOf_relabel strictMono_id, hread]
    rfl
  refine ofLines_eq_ok_iff.mpr ⟨header, _, found ++ read, List.cons_append, ?_, hheading, ?_, ?_⟩
  · exact List.append_ne_nil_of_left_ne_nil hrest _
  · rw [parts_append (List.cons_ne_nil _ _) hstart, architecturesOf_eq_ok_iff]
    exact List.rel_append (architecturesOf_eq_ok_iff.mp hfound) (architecturesOf_eq_ok_iff.mp hshifted)
  · rw [Entries.collect_append, Entries.putAll_collect]

/-- Two documents on successive lines, the second of which starts without indentation, are read
as the first with the architectures of the second put into it, and a registry takes them as it
takes the one after the other. -/
theorem parse_joined {text next : String} {first second : Architectures}
    (hfirst : parse text = .ok first) (hsecond : parse next = .ok second)
    (hlevel : ∀ line ∈ (Line.all next.toList).head?, line.indent = 0) :
    parse (text ++ "\n" ++ next) = .ok (Entries.putAll first second) ∧
      ∀ registry : Registry, registry.mergeArchitectures (Entries.putAll first second) =
        (registry.mergeArchitectures first).mergeArchitectures second := by
  have htext : (text ++ "\n" ++ next).toList = text.toList ++ '\n' :: next.toList := by simp
  constructor
  · rw [parse, htext, Line.all_joined]
    exact ofLines_joined hfirst hsecond hlevel
  · intro registry
    have hnodup : (Entries.names first).Nodup := by
      obtain ⟨-, -, found, -, -, -, -, rfl⟩ := ofLines_eq_ok_iff.mp hfirst
      exact Entries.nodup_names_collect found
    rw [Registry.mergeArchitectures, Entries.putAll_putAll hnodup]
    rfl

/-- A document that ends within the value of a reference. -/
def groundFloor : String :=
  "hall:\n  door\ncellar:\n  references:\n    \"Plan\":\n      info: \"from\"\n        below"

/-- A document that has one of its architectures otherwise, and another one. -/
def upperFloor : String :=
  "\nhall:\n   window: glass\nattic:\n roof"

/-- The value ends where the second document starts, and the hall keeps its place. -/
theorem parse_joined_floors :
    ∃ ground upper, parse groundFloor = .ok ground ∧ parse upperFloor = .ok upper ∧
      (∀ line ∈ (Line.all upperFloor.toList).head?, line.indent = 0) ∧
      Entries.names (Entries.putAll ground upper) = ["hall", "cellar", "attic"] ∧
      parse (groundFloor ++ "\n" ++ upperFloor) = .ok (Entries.putAll ground upper) ∧
      ∀ registry : Registry, registry.mergeArchitectures (Entries.putAll ground upper) =
        (registry.mergeArchitectures ground).mergeArchitectures upper := by
  have hground : parse groundFloor = .ok
      [("hall", ⟨[("door", .default)]⟩),
        ("cellar", ⟨[("references", .references
          [{ title := "Plan", link := none, info := some "from\nbelow", authors := [],
             refType := none, others := [] }])]⟩)] := by decide +kernel
  have hupper : parse upperFloor = .ok
      [("hall", ⟨[("window", .swap "glass" none)]⟩), ("attic", ⟨[("roof", .default)]⟩)] := by
    decide +kernel
  have hlevel : ∀ line ∈ (Line.all upperFloor.toList).head?, line.indent = 0 := by decide +kernel
  exact ⟨_, _, hground, hupper, hlevel, by decide +kernel, parse_joined hground hupper hlevel⟩

end ArchDiagram.Document
