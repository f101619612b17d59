/-
# Lines and their owners

A block is read line by line with nothing in hand but the indentation around it. What comes out
can be said of the lines alone, without their reading: a line with a colon opens a block, and the
owner of a line is the latest line before it that opens one and is less indented than every line
from there on. A line without a colon opens nothing, so the lines below it belong to whatever it
belongs to. Each line gives an entry, which is put under the entry of its owner (`entriesOwned`),
and following the owners no line is lost (`linesOwned_none`). Main statement: `parse_by_owners`.
-/

import ArchDiagram.Proofs.Document.Blocks
import ArchDiagram.Proofs.Document.Parts

namespace ArchDiagram.Document

/-! ## Owners -/

namespace Line

/-- A line with a colon, at its end or within, opens a block. -/
def opens (line : Line) : Bool :=
  line.text.contains ':'

/-- The entry of a line, given the entries of the lines that it owns: a block if it ends in a
colon, a swap if it has one elsewhere, with overrides if it owns lines at all, and otherwise the
component as it is. -/
def entry (line : Line) (owned : List (String × Override)) : String × Override :=
  match line.heading?, line.pair? with
  | some name, _ => (String.ofList name, .nested (Entries.collect owned))
  | none, some (slotClass, replacement) =>
      (String.ofList slotClass, .swap (String.ofList replacement)
        (if owned.isEmpty then none else some (Entries.collect owned)))
  | none, none => (line.string, .default)

theorem opens_eq_isSome (line : Line) : line.opens = line.pair?.isSome := by
  rw [Bool.eq_iff_iff, opens, List.contains_iff_mem, pair?, Option.isSome_map,
    Option.isSome_iff_ne_none, Ne, Text.splitFirst_eq_none_iff, not_not]

theorem opens_of_heading? {line : Line} {name : List Char} (h : line.heading? = some name) :
    line.opens = true := by
  obtain ⟨written, htext, -⟩ := exists_of_heading? h
  simp [opens, htext]

end Line

/-- Whether the line at `position` stands in a block that the line at `opener` opens: all lines
after the opener, up to and including the one at `position`, are deeper. -/
def opensAt (lines : List Line) (opener position : ℕ) : Bool :=
  lines[opener]?.any fun line => line.opens &&
    ((lines.take (position + 1)).drop (opener + 1)).all fun later => line.indent < later.indent

/-- The owner of the line at `position`: the latest line before it that opens a block in which
it stands. -/
def owner? (lines : List Line) (position : ℕ) : Option ℕ :=
  ((List.range position).filter fun opener => opensAt lines opener position).getLast?

/-- The lines with a given owner, or with none, in order and with their positions. -/
def ownedBy (lines : List Line) (owner : Option ℕ) : List (Line × ℕ) :=
  lines.zipIdx.filter fun entry => owner? lines entry.2 = owner

section

variable {lines block tail : List Line} {first line : Line} {owner : Option ℕ} {position opener : ℕ}

theorem lt_of_owner?_eq_some (h : owner? lines position = some opener) : opener < position := by
  have hmem := List.mem_of_getLast? h
  exact List.mem_range.mp (List.mem_of_mem_filter hmem)

theorem lt_of_mem_ownedBy (h : (line, position) ∈ ownedBy lines owner) :
    position < lines.length ∧ ∀ opener ∈ owner, opener < position := by
  obtain ⟨hmem, howner⟩ := List.mem_filter.mp h
  refine ⟨by simpa using List.snd_lt_of_mem_zipIdx hmem, fun opener hopener => ?_⟩
  exact lt_of_owner?_eq_some ((decide_eq_true_eq.mp howner).trans (Option.mem_def.mp hopener))

/-- How far an owner is from the end of the lines. -/
def remaining (lines : List Line) : Option ℕ → ℕ
  | none => lines.length + 1
  | some position => lines.length - position

theorem remaining_lt (h : (line, position) ∈ ownedBy lines owner) :
    remaining lines (some position) < remaining lines owner := by
  obtain ⟨hlength, hopener⟩ := lt_of_mem_ownedBy h
  cases owner with
  | none => simp only [remaining]; omega
  | some opener =>
      have := hopener opener rfl
      simp only [remaining]
      omega

end

/-- What the lines with a given owner, or with none, give in order. A line gives it together with
what is given by the lines that it owns itself. -/
def gather {α : Type} (give : Line → List α → List α) (lines : List Line) (owner : Option ℕ) :
    List α :=
  (ownedBy lines owner).attach.flatMap fun entry =>
    give entry.1.1 (gather give lines (some entry.1.2))
termination_by remaining lines owner
decreasing_by exact remaining_lt entry.2

/-- The entries of the lines with a given owner, or with none. Each comes with the entries of the
lines that it owns itself. -/
def entriesOwned : List Line → Option ℕ → List (String × Override) :=
  gather fun line owned => [line.entry owned]

/-- The lines with a given owner, or with none, each followed by the lines that it owns itself. -/
def linesOwned : List Line → Option ℕ → List Line :=
  gather List.cons

section

variable {α : Type} {give : Line → List α → List α}

theorem gather_eq (give : Line → List α → List α) (lines : List Line) (owner : Option ℕ) :
    gather give lines owner =
      (ownedBy lines owner).flatMap fun entry =>
        give entry.1 (gather give lines (some entry.2)) := by
  rw [gather]
  simp only [List.flatMap_def, List.map_attach_eq_pmap, List.pmap_eq_map]

theorem gather_nil (owner : Option ℕ) : gather give [] owner = [] := by
  rw [gather_eq, ownedBy, List.zipIdx_nil, List.filter_nil, List.flatMap_nil]

end

/-! ## Owners among some of the lines -/

section

variable {lines inner block tail : List Line} {first line : Line} {position : ℕ}

/-- The first line is the owner of a later one only if no line between them is. -/
theorem owner?_cons (first : Line) (rest : List Line) (position : ℕ) :
    owner? (first :: rest) (position + 1) =
      ((owner? rest position).map (· + 1)).or
        (if opensAt (first :: rest) 0 (position + 1) then some 0 else none) := by
  -- a later line opens a block as it does without the first one
  have hlater (opener : ℕ) :
      opensAt (first :: rest) (opener + 1) (position + 1) = opensAt rest opener position := by
    simp [opensAt]
  rw [owner?, List.range_succ_eq_map, List.filter_cons, List.filter_map, owner?]
  simp only [Function.comp_def, Nat.succ_eq_add_one, hlater]
  split
  · rw [List.getLast?_cons, List.getLast?_map]
    cases ((List.range position).filter (opensAt rest · position)).getLast? <;> rfl
  · rw [List.getLast?_map]
    cases ((List.range position).filter (opensAt rest · position)).getLast? <;> rfl

theorem owner?_append_left (h : position < block.length) :
    owner? (block ++ tail) position = owner? block position := by
  rw [owner?, owner?]
  congr 1
  -- only the lines up to the position are looked at
  refine List.filter_congr fun opener hopener => ?_
  have hlt := List.mem_range.mp hopener
  rw [opensAt, opensAt, List.getElem?_append_left (hlt.trans h), List.take_append_of_le_length h]

/-- What comes after a cut has its owner after it. -/
theorem owner?_append_right (hcut : ∀ l ∈ block, ∀ next ∈ tail.head?, next.indent ≤ l.indent)
    (h : position < tail.length) :
    owner? (block ++ tail) (position + block.length) =
      (owner? tail position).map (· + block.length) := by
  induction block with
  | nil => simp
  | cons first block ih =>
      rw [List.forall_mem_cons] at hcut
      -- the first line after the cut stands in no block that is opened before it
      have hclosed : opensAt (first :: block ++ tail) 0 (position + block.length + 1) = false := by
        obtain ⟨next, others, rfl⟩ := List.exists_cons_of_length_pos (Nat.zero_lt_of_lt h)
        have hle := hcut.1 next rfl
        have hmem : next ∈ (block ++ next :: others).take (position + block.length + 1) := by
          have hlength : position + block.length + 1 - block.length = position + 1 := by omega
          rw [List.take_append, List.mem_append, hlength]
          exact Or.inr List.mem_cons_self
        simp only [opensAt, List.cons_append, List.getElem?_cons_zero, Option.any_some,
          Bool.and_eq_false_iff, List.take_succ_cons, List.drop_succ_cons, List.drop_zero]
        right
        rw [List.all_eq_false]
        exact ⟨next, hmem, by simpa using hle⟩
      rw [List.length_cons, ← Nat.add_assoc, List.cons_append, owner?_cons, ih hcut.2,
        ← List.cons_append, hclosed, Option.map_map]
      simp [Function.comp_def, Nat.add_assoc]

theorem owner?_cons_of_deeper (hblock : ∀ l ∈ block, first.indent < l.indent) :
    owner? (first :: block) (position + 1) =
      ((owner? block position).map (· + 1)).or (if first.opens then some 0 else none) := by
  -- nothing closes the block of the first line
  have hopens : opensAt (first :: block) 0 (position + 1) = first.opens := by
    simp only [opensAt, List.getElem?_cons_zero, Option.any_some, List.take_succ_cons,
      List.drop_succ_cons, List.drop_zero]
    rw [Bool.and_eq_left_iff_imp]
    intro _
    rw [List.all_eq_true]
    intro l hl
    exact decide_eq_true (hblock l (List.mem_of_mem_take hl))
  rw [owner?_cons, hopens]

theorem ownedBy_append (hcut : ∀ l ∈ block, ∀ next ∈ tail.head?, next.indent ≤ l.indent)
    (owner : Option ℕ) :
    ownedBy (block ++ tail) owner = ownedBy block owner ++
      (tail.zipIdx.filter fun entry => (owner? tail entry.2).map (· + block.length) = owner).map
        (Prod.map id (· + block.length)) := by
  rw [ownedBy, List.zipIdx_append, List.filter_append, ownedBy, Nat.zero_add]
  congr 1
  · refine List.filter_congr fun entry hentry => ?_
    rw [owner?_append_left]
    simpa using List.snd_lt_of_mem_zipIdx hentry
  · rw [← Nat.add_zero block.length, ← List.map_snd_add_zipIdx_eq_zipIdx, List.filter_map]
    congr 1
    refine List.filter_congr fun entry hentry => ?_
    have hlt : entry.2 < tail.length := by simpa using List.snd_lt_of_mem_zipIdx hentry
    simp [owner?_append_right hcut hlt]

theorem ownedBy_cons_of_deeper (hblock : ∀ l ∈ block, first.indent < l.indent)
    (owner : Option ℕ) :
    ownedBy (first :: block) owner = (if owner = none then [(first, 0)] else []) ++
      (block.zipIdx.filter fun entry =>
        ((owner? block entry.2).map (· + 1)).or (if first.opens then some 0 else none) = owner).map
          (Prod.map id (· + 1)) := by
  rw [ownedBy, List.zipIdx_cons', List.filter_cons, List.filter_map]
  simp only [Function.comp_def, Prod.map_snd, owner?_cons_of_deeper hblock]
  cases owner <;> simp [owner?]

/-! ## What some of the lines give -/

/-- Each of some lines owns the same lines among all lines, where they are at other places. -/
def OwnAlike (inner lines : List Line) (place : ℕ → ℕ) : Prop :=
  ∀ position < inner.length,
    ownedBy lines (some (place position)) =
      (ownedBy inner (some position)).map (Prod.map id place)

theorem OwnAlike.append_left (hcut : ∀ l ∈ block, ∀ next ∈ tail.head?, next.indent ≤ l.indent) :
    OwnAlike block (block ++ tail) id := by
  intro position hlt
  -- a line after the cut has no owner before it
  rw [ownedBy_append hcut, Prod.map_id, List.map_id, id_eq, List.append_right_eq_self,
    List.map_eq_nil_iff, List.filter_eq_nil_iff]
  intro entry _
  simp only [decide_eq_true_eq, Option.map_eq_some_iff, not_exists, not_and]
  omega

theorem OwnAlike.append_right (hcut : ∀ l ∈ block, ∀ next ∈ tail.head?, next.indent ≤ l.indent) :
    OwnAlike tail (block ++ tail) (· + block.length) := by
  intro position _
  -- a line before the cut has no owner after it
  have hnone : ownedBy block (some (position + block.length)) = [] := by
    refine List.eq_nil_iff_forall_not_mem.mpr fun entry hentry => ?_
    obtain ⟨hlt, howner⟩ := lt_of_mem_ownedBy hentry
    have := howner _ rfl
    omega
  rw [ownedBy_append hcut, hnone, List.nil_append, ownedBy]
  congr 1
  refine List.filter_congr fun entry _ => ?_
  cases owner? tail entry.2 <;> simp

theorem OwnAlike.cons_of_deeper (hblock : ∀ l ∈ block, first.indent < l.indent) :
    OwnAlike block (first :: block) (· + 1) := by
  intro position _
  rw [ownedBy_cons_of_deeper hblock, if_neg (Option.some_ne_none _), List.nil_append, ownedBy]
  congr 1
  refine List.filter_congr fun entry _ => ?_
  cases owner? block entry.2 <;> simp

variable {α : Type} {give : Line → List α → List α}

/-- Lines that own alike give the same. -/
theorem OwnAlike.flatMap_give {place : ℕ → ℕ} (h : OwnAlike inner lines place)
    (give : Line → List α → List α) (owner : Option ℕ) :
    ((ownedBy inner owner).map (Prod.map id place)).flatMap
        (fun entry => give entry.1 (gather give lines (some entry.2))) =
      gather give inner owner := by
  induction hremaining : remaining inner owner using Nat.strong_induction_on generalizing owner with
  | _ n ih =>
      -- what the lines own themselves is nearer to the end
      subst hremaining
      rw [gather_eq give inner owner, List.flatMap_map]
      refine List.flatMap_congr fun entry hentry => ?_
      have howned := ih _ (remaining_lt hentry) (some entry.2) rfl
      rw [← h entry.2 (lt_of_mem_ownedBy hentry).1, ← gather_eq] at howned
      simp only [Prod.map_fst, Prod.map_snd, id_eq, howned]

/-- Lines after a cut give what they give alone, after those before it. -/
theorem gather_append (hcut : ∀ l ∈ block, ∀ next ∈ tail.head?, next.indent ≤ l.indent) :
    gather give (block ++ tail) none = gather give block none ++ gather give tail none := by
  have hbefore := (OwnAlike.append_left hcut).flatMap_give give none
  have hafter := (OwnAlike.append_right hcut).flatMap_give give none
  rw [Prod.map_id, List.map_id] at hbefore
  rw [gather_eq, ownedBy_append hcut, List.flatMap_append, hbefore, ← hafter]
  simp only [ownedBy, Option.map_eq_none_iff]

/-- Lines that are deeper than the line before them are put under it if it opens a block, and
after it if not. -/
theorem gather_cons_of_deeper (hblock : ∀ l ∈ block, first.indent < l.indent) :
    gather give (first :: block) none =
      if first.opens then give first (gather give block none)
      else give first [] ++ gather give block none := by
  have hinner := (OwnAlike.cons_of_deeper hblock).flatMap_give give none
  -- the lines of the block that have no owner in it belong to the first line if it opens one
  have hheader : ownedBy (first :: block) (some 0) =
      if first.opens then (ownedBy block none).map (Prod.map id (· + 1)) else [] := by
    rw [ownedBy_cons_of_deeper hblock, if_neg (Option.some_ne_none _), List.nil_append, ownedBy]
    cases first.opens with
    | false => simp
    | true =>
        congr 1
        refine List.filter_congr fun entry _ => ?_
        cases owner? block entry.2 <;> simp
  rw [gather_eq, ownedBy_cons_of_deeper hblock, if_pos rfl, List.flatMap_append,
    List.flatMap_singleton, gather_eq _ _ (some 0), hheader]
  split
  case isTrue hopens =>
    rw [hinner]
    simp
  case isFalse hopens =>
    rw [← hinner, ownedBy]
    simp

/-- Owners come before what they own, and no line is lost. -/
theorem linesOwned_none (lines : List Line) : linesOwned lines none = lines := by
  induction lines using Line.block_induction with
  | nil => exact gather_nil none
  | cons header block tail hblock htail ihblock ihtail =>
      rw [linesOwned] at ihblock ihtail ⊢
      rw [← List.cons_append, gather_append (Line.cut_of_block hblock htail),
        gather_cons_of_deeper hblock, ihblock, ihtail]
      split <;> rfl

/-! ## Reading by owners -/

/-- What a line that opens no section gives, with what is read of the lines below it. -/
theorem entriesOf_node {children : List Outline} {entries : List (String × Override)}
    (hreferences : line.text ≠ "references:".toList) (hproperties : line.text ≠ "properties:".toList)
    (hchildren : entriesOfAll children = .ok entries) :
    entriesOf (.node line children) =
      .ok (if line.opens then [line.entry entries] else line.entry [] :: entries) := by
  -- a swap has overrides if there are lines below it, and each of them gives an entry
  have hempty : children.isEmpty = entries.isEmpty := by
    cases children with
    | nil =>
        obtain rfl := Except.ok.inj hchildren
        rfl
    | cons child rest =>
        have hne := ne_nil_of_entriesOfAll (List.cons_ne_nil child rest) hchildren
        exact (List.isEmpty_eq_false_iff.mpr hne).symm
  rw [entriesOf, Heading.ofLine_of_ne hreferences hproperties]
  cases hheading : line.heading? with
  | some name =>
      simp [hchildren, Except.map, Line.opens_of_heading? hheading, Line.entry, hheading]
  | none =>
      cases hpair : line.pair? with
      | some parts =>
          simp [hchildren, Except.map, Line.opens_eq_isSome, Line.entry, hheading, hpair, hempty]
      | none =>
          simp [hchildren, Except.map, Line.opens_eq_isSome, Line.entry, hheading, hpair, Line.string]

/-- Lines without sections are put under their owners. -/
theorem entriesOfAll_ofLines (hsections : ∀ line ∈ lines,
      line.text ≠ "references:".toList ∧ line.text ≠ "properties:".toList) :
    entriesOfAll (Outline.ofLines lines) = .ok (entriesOwned lines none) := by
  induction lines using Line.block_induction with
  | nil => rw [entriesOwned, gather_nil, Outline.ofLines, entriesOfAll]
  | cons header block tail hblock htail ihblock ihtail =>
      simp only [List.forall_mem_cons, List.forall_mem_append] at hsections
      obtain ⟨⟨hreferences, hproperties⟩, hinner, hafter⟩ := hsections
      have hcut := Line.cut_of_block hblock htail
      have hheader := entriesOf_node hreferences hproperties (ihblock hinner)
      rw [Outline.ofLines_cons_append hblock htail, entriesOfAll, hheader, ihtail hafter,
        ← List.cons_append, entriesOwned, gather_append hcut, gather_cons_of_deeper hblock]
      rfl

/-- Architectures without sections are read by owners. -/
theorem eq_map_of_architecturesOf {found : List Slice} {entries : List (String × Architecture)}
    (hsections : ∀ slice ∈ found, ∀ line ∈ slice.lines,
      line.text ≠ "references:".toList ∧ line.text ≠ "properties:".toList)
    (h : architecturesOf found = .ok entries) :
    entries = found.map fun slice => (String.ofList (slice.header.heading?.getD []),
      ⟨Entries.collect (entriesOwned slice.lines none)⟩) := by
  induction architecturesOf_eq_ok_iff.mp h with
  | nil => rfl
  | @cons slice entry rest others hentry hothers ih =>
      obtain ⟨hslice, hrest⟩ := List.forall_mem_cons.mp hsections
      obtain ⟨pairs, hpairs, -, rfl⟩ := architectureOf_eq_ok_iff.mp hentry
      rw [entriesOfAll_ofLines hslice] at hpairs
      rw [List.map_cons, ih hrest (architecturesOf_eq_ok_iff.mpr hothers), Except.ok.inj hpairs]

end

/-- A document without sections is read as the lines of each architecture put under their
owners. Every line that is not blank belongs to an architecture, as its header or within, and
those within are all put somewhere, in the order of the document. -/
theorem parse_by_owners {text : String} {architectures : Architectures}
    (hread : parse text = .ok architectures)
    (hsections : ∀ line ∈ Line.all text.toList,
      line.text ≠ "references:".toList ∧ line.text ≠ "properties:".toList) :
    (parts (Line.all text.toList)).flatMap Slice.all = Line.all text.toList ∧
      (∀ slice ∈ (parts (Line.all text.toList)).tail, isHeader slice.header = true) ∧
      (∀ slice ∈ parts (Line.all text.toList),
        (∀ line ∈ slice.lines, isHeader line = false) ∧
          linesOwned slice.lines none = slice.lines) ∧
      architectures = Entries.collect ((parts (Line.all text.toList)).map fun slice =>
        (String.ofList (slice.header.heading?.getD []),
          ⟨Entries.collect (entriesOwned slice.lines none)⟩)) := by
  refine ⟨flatMap_parts _, fun slice => isHeader_of_mem_tail_parts,
    fun slice hslice => ⟨isHeader_of_mem_parts hslice, linesOwned_none slice.lines⟩, ?_⟩
  obtain ⟨first, rest, found, -, -, -, hfound, rfl⟩ := ofLines_eq_ok_iff.mp hread
  rw [eq_map_of_architecturesOf (fun slice hslice line hline => hsections line
    (mem_of_mem_parts hslice (List.mem_cons_of_mem _ hline))) hfound]

/-- A document whose lines are indented at random. -/
def raggedText : String :=
  "hall:\n   stairs:\n     lamp\n      bulb: old\n    rail\n door: oak\n   knob\n" ++
    " door: elm\n   cellar: dry\n  cellar: wet\nattic:\n\n roof"

/-- What `raggedText` is read as. -/
def raggedRooms : Architectures :=
  [("hall", ⟨[("stairs", .nested [("lamp", .default), ("bulb", .swap "old" none), ("rail", .default)]),
      ("door", .swap "elm" (some [("cellar", .swap "wet" none)]))]⟩),
    ("attic", ⟨[("roof", .default)]⟩)]

/-- The lamp has no colon, so the bulb is put under the stairs with it. The knob goes with the
earlier door, and the later of two cellars counts. -/
theorem parse_raggedText :
    parse raggedText = .ok raggedRooms ∧
      (∀ line ∈ Line.all raggedText.toList,
        line.text ≠ "references:".toList ∧ line.text ≠ "properties:".toList) ∧
      ((parts (Line.all raggedText.toList)).map fun slice =>
          (List.range slice.lines.length).map (owner? slice.lines)) =
        [[none, some 0, some 0, some 0, none, some 4, none, some 6, some 6], [none]] ∧
      raggedRooms = Entries.collect ((parts (Line.all raggedText.toList)).map fun slice =>
        (String.ofList (slice.header.heading?.getD []),
          ⟨Entries.collect (entriesOwned slice.lines none)⟩)) := by
  have hread : parse raggedText = .ok raggedRooms := by decide +kernel
  have hsections : ∀ line ∈ Line.all raggedText.toList,
      line.text ≠ "references:".toList ∧ line.text ≠ "properties:".toList := by decide +kernel
  exact ⟨hread, hsections, by decide +kernel, (parse_by_owners hread hsections).2.2.2⟩

end ArchDiagram.Document
