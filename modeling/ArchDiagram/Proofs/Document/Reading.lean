/-
# What is read from a document

Whatever a document says, names come out of it trimmed and on one line, keys have
no colon, sections stand under their own names, and nothing is named twice in one
place. So, apart from references without a title, what is read can be expressed
again unless its text would say something else: an infinite number, a block under
the name of a section, or an author that is not trimmed or has a line break. Main
statement: `expressible_titled_of_parse`.
-/

import ArchDiagram.Proofs.Document.RoundTrip
import ArchDiagram.Proofs.Document.Titles

namespace ArchDiagram

/-! ## Texts that say something else -/

/-- A property that is not infinite. -/
def Property.Finite : Property → Prop
  | .real value => value.isInfinite = false
  | .integer _ | .text _ => True

instance : (property : Property) → Decidable property.Finite
  | .real value => inferInstanceAs (Decidable (value.isInfinite = false))
  | .integer _ | .text _ => isTrue trivial

/-- A reference whose authors stand on lines of their own. -/
def Reference.AuthorsExpressible (reference : Reference) : Prop :=
  ∀ author ∈ reference.authors, author ≠ "" ∧ Tidy author

instance (reference : Reference) : Decidable reference.AuthorsExpressible :=
  inferInstanceAs (Decidable (∀ author ∈ reference.authors, author ≠ "" ∧ Tidy author))

namespace Override

mutual

/-- Nothing in the entry under `key` would be written as something else. -/
def Unambiguous (key : String) : Override → Prop
  | .nested children =>
      key ≠ "references" ∧ key ≠ "properties" ∧ UnambiguousBlock children
  | .swap _ (some overrides) => UnambiguousBlock overrides
  | .references listed =>
      ∀ reference ∈ Reference.titledAmong listed, reference.AuthorsExpressible
  | .properties listed => ∀ entry ∈ listed, entry.2.Finite
  | .default | .swap _ none | .settings _ => True

/-- Nothing in some entries would be written as something else. -/
def UnambiguousBlock : List (String × Override) → Prop
  | [] => True
  | (key, entry) :: rest => entry.Unambiguous key ∧ UnambiguousBlock rest

end

mutual

/-- Whether an entry would be written as something else is decidable. -/
def decUnambiguous (key : String) : (entry : Override) → Decidable (entry.Unambiguous key)
  | .nested children =>
      have := decUnambiguousBlock children
      inferInstanceAs
        (Decidable (key ≠ "references" ∧ key ≠ "properties" ∧ UnambiguousBlock children))
  | .swap _ (some overrides) => decUnambiguousBlock overrides
  | .references listed =>
      inferInstanceAs (Decidable
        (∀ reference ∈ Reference.titledAmong listed, reference.AuthorsExpressible))
  | .properties listed => inferInstanceAs (Decidable (∀ entry ∈ listed, entry.2.Finite))
  | .default | .swap _ none | .settings _ => isTrue trivial

/-- Whether some entries would be written as something else is decidable. -/
def decUnambiguousBlock : (entries : List (String × Override)) →
    Decidable (UnambiguousBlock entries)
  | [] => isTrue trivial
  | (key, entry) :: rest =>
      have := decUnambiguous key entry
      have := decUnambiguousBlock rest
      inferInstanceAs (Decidable (entry.Unambiguous key ∧ UnambiguousBlock rest))

end

instance (entries : List (String × Override)) : Decidable (UnambiguousBlock entries) :=
  decUnambiguousBlock entries

end Override

/-- Nothing in some architectures would be written as something else. -/
def Architectures.Unambiguous (architectures : Architectures) : Prop :=
  ∀ entry ∈ architectures, Override.UnambiguousBlock entry.2.entries

instance (architectures : Architectures) : Decidable architectures.Unambiguous :=
  inferInstanceAs (Decidable (∀ entry ∈ architectures, Override.UnambiguousBlock entry.2.entries))

namespace Document

/-! ## Lines -/

theorem tidy_trim {text : List Char} (h : '\n' ∉ text) : Tidy (String.ofList (Text.trim text)) := by
  refine ⟨?_, ?_⟩ <;> rw [String.toList_ofList]
  · exact Text.trimmed_trim text
  · intro hmem
    exact h (Text.mem_of_mem_trim hmem)

namespace Line

variable {line : Line}

/-- A line as it is found in a text. -/
structure Found (line : Line) : Prop where
  ne : line.text ≠ []
  trimmed : Text.Trimmed line.text
  one_line : '\n' ∉ line.text

theorem found_of_mem_listFrom {pieces : List (List Char)} (hpieces : ∀ piece ∈ pieces, '\n' ∉ piece)
    {number : ℕ} (h : line ∈ listFrom number pieces) : line.Found := by
  induction pieces generalizing number with
  | nil => exact absurd h List.not_mem_nil
  | cons piece rest ih =>
      rw [List.forall_mem_cons] at hpieces
      rw [listFrom, List.mem_append] at h
      rcases h with h | h
      · obtain ⟨-, htext, hne⟩ := spec_ofText? (Option.mem_toList.mp h)
        refine ⟨hne, ?_, ?_⟩ <;> rw [htext]
        · exact Text.trimmed_trim piece
        · exact fun hmem => hpieces.1 (Text.mem_of_mem_trim hmem)
      · exact ih hpieces.2 h

theorem found_of_mem_all {text : List Char} (h : line ∈ all text) : line.Found :=
  found_of_mem_listFrom (fun _ => Text.notMem_of_mem_splitAll) h

variable {name key value : List Char}

theorem Found.tidy_string (h : line.Found) : Tidy line.string := by
  refine ⟨?_, ?_⟩ <;> rw [string, String.toList_ofList]
  · exact h.trimmed
  · exact h.one_line

theorem Found.tidy_heading (h : line.Found) (hname : line.heading? = some name) :
    Tidy (String.ofList name) := by
  obtain ⟨written, htext, rfl⟩ := exists_of_heading? hname
  apply tidy_trim
  intro hmem
  apply h.one_line
  rw [htext]
  exact List.mem_append_left _ hmem

theorem exists_of_pair? (hpair : line.pair? = some (key, value)) :
    ∃ before after, line.text = before ++ ':' :: after ∧ ':' ∉ before ∧
      key = Text.trim before ∧ value = Text.trim after := by
  obtain ⟨⟨before, after⟩, hsplit, hparts⟩ := Option.map_eq_some_iff.mp hpair
  obtain ⟨rfl, rfl⟩ := Prod.mk.inj hparts
  obtain ⟨htext, hbefore⟩ := Text.splitFirst_eq_some ':' hsplit
  exact ⟨before, after, htext, hbefore, rfl, rfl⟩

theorem notMem_of_pair? (hpair : line.pair? = none) : ':' ∉ line.text :=
  (Text.splitFirst_eq_none_iff ':').mp (Option.map_eq_none_iff.mp hpair)

theorem Found.tidyKey_pair (h : line.Found) (hpair : line.pair? = some (key, value)) :
    TidyKey (String.ofList key) := by
  obtain ⟨before, after, htext, hcolon, rfl, -⟩ := exists_of_pair? hpair
  have hline : '\n' ∉ before := by
    intro hmem
    apply h.one_line
    rw [htext]
    exact List.mem_append_left _ hmem
  refine ⟨tidy_trim hline, ?_⟩
  rw [String.toList_ofList]
  intro hmem
  exact hcolon (Text.mem_of_mem_trim hmem)

/-- What is put in a slot is not blank, because a colon at the end makes a header. -/
theorem Found.replacement (h : line.Found) (hheading : line.heading? = none)
    (hpair : line.pair? = some (key, value)) :
    Override.ReplacementExpressible (String.ofList value) := by
  obtain ⟨before, after, htext, -, -, rfl⟩ := exists_of_pair? hpair
  have hcolon : line.text.getLast? ≠ some ':' := by
    intro hlast
    rw [heading?, if_pos hlast] at hheading
    cases hheading
  have hafter : after ≠ [] := by
    rintro rfl
    apply hcolon
    rw [htext, List.getLast?_concat]
  -- the last character is neither blank nor a colon, and trimming leaves it
  have hlast : after.getLast? = line.text.getLast? := by
    rw [htext, List.getLast?_append_of_ne_nil _ (List.cons_ne_nil _ _),
      List.getLast?_cons_of_ne_nil hafter]
  have htrim : (Text.trim after).getLast? = line.text.getLast? := by
    rw [← hlast]
    refine Text.getLast?_trim ?_
    rw [hlast]
    exact (Text.trimmed_iff.mp h.trimmed).2
  have hline : '\n' ∉ after := by
    intro hmem
    apply h.one_line
    rw [htext]
    exact List.mem_append_right _ (List.mem_cons_of_mem _ hmem)
  refine ⟨tidy_trim hline, ?_, ?_⟩
  · intro hnil
    have hempty : Text.trim after = [] := by simpa using hnil
    rw [hempty] at htrim
    exact h.ne (List.getLast?_eq_none_iff.mp htrim.symm)
  · rw [String.toList_ofList, htrim]
    exact hcolon

end Line

/-! ## Properties -/

theorem Numeral.fits_of_toProperty {numeral : Numeral} {value : ℤ}
    (h : numeral.toProperty = .integer value) : Property.fits value = true := by
  simp only [Numeral.toProperty] at h
  split at h
  · rename_i whole hwhole
    obtain rfl := Property.integer.inj h
    exact (Option.filter_eq_some_iff.mp hwhole).2
  · split at h
    · split at h
      · rename_i hsmall
        obtain rfl := Property.integer.inj h
        simp only [Property.fits, decide_eq_true_eq]
        have hpow : (Int.pow 2 63 : ℤ) = 2 ^ 63 := rfl
        have hnat : Nat.pow 2 63 = 2 ^ 63 := rfl
        rw [hnat] at hsmall
        rw [hpow]
        omega
      · cases h
    · cases h

/-- A property that is read can be written unless it is infinite. -/
theorem expressible_propertyOf {value : List Char} (h : (propertyOf value).Finite) :
    (propertyOf value).Expressible := by
  cases hproperty : propertyOf value with
  | integer whole =>
      rw [propertyOf] at hproperty
      split at hproperty
      · exact Numeral.fits_of_toProperty hproperty
      · split at hproperty <;> cases hproperty
  | real number =>
      rw [hproperty] at h
      exact h
  | text written => trivial

theorem propertiesOfLines_found {lines : List Line} (hlines : ∀ line ∈ lines, line.Found)
    {properties : List (String × Property)} (h : propertiesOfLines lines = .ok properties) :
    ∀ entry ∈ properties, TidyKey entry.1 ∧ (entry.2.Finite → entry.2.Expressible) := by
  induction lines generalizing properties with
  | nil =>
      obtain rfl := Except.ok.inj h
      exact nofun
  | cons line rest ih =>
      rw [List.forall_mem_cons] at hlines
      rw [propertiesOfLines, propertyOfLine] at h
      cases hpair : line.pair? with
      | none => simp [hpair] at h
      | some pair =>
          obtain ⟨key, value⟩ := pair
          simp only [hpair] at h
          obtain ⟨others, hothers, rfl⟩ := exists_of_map_eq_ok h
          rw [List.forall_mem_cons]
          exact ⟨⟨hlines.1.tidyKey_pair hpair, expressible_propertyOf⟩, ih hlines.2 hothers⟩

theorem tableExpressible_propertiesOf {children : List Outline}
    (hlines : ∀ line ∈ Outline.flattenAll children, line.Found) {properties : Entries Property}
    (h : propertiesOf children = .ok properties) (hfinite : ∀ entry ∈ properties, entry.2.Finite) :
    Property.TableExpressible properties := by
  obtain ⟨pairs, hpairs, rfl⟩ := exists_of_map_eq_ok h
  have hfound := propertiesOfLines_found hlines hpairs
  exact ⟨Entries.nodup_names_collect pairs,
    fun entry hentry => (hfound entry (Entries.mem_of_mem_collect hentry)).1,
    fun entry hentry => (hfound entry (Entries.mem_of_mem_collect hentry)).2 (hfinite entry hentry)⟩

/-! ## References -/

/-- A member of a reference as it is read: its name is tidy and is not that of the
authors. -/
def Member.Found : Member → Prop
  | .authors _ => True
  | .text name _ => TidyKey name ∧ name ≠ "authors"

/-- Only a pair whose name is not that of the authors is read as a text. -/
theorem name_of_ofPair {key value name : List Char}
    (h : (∃ text, MemberForm.ofPair key value = .plain name text) ∨
      ∃ inner, MemberForm.ofPair key value = .quoted name inner) :
    name = key ∧ key ≠ "authors".toList := by
  by_cases hkey : key = "authors".toList
  · -- under this name there are authors, in the line or below it
    simp only [MemberForm.ofPair, if_pos hkey] at h
    rcases h with ⟨text, h⟩ | ⟨inner, h⟩
    all_goals
      split at h
      · cases h
      · split at h <;> cases h
  · simp only [MemberForm.ofPair, if_neg hkey] at h
    refine ⟨?_, hkey⟩
    rcases h with ⟨text, h⟩ | ⟨inner, h⟩
    · split at h
      · cases h
      · exact (MemberForm.plain.inj h).1.symm
    · split at h
      · exact (MemberForm.quoted.inj h).1.symm
      · cases h

theorem Line.Found.found_text {line : Line} (hline : line.Found) {key value : List Char}
    (hpair : line.pair? = some (key, value)) {name : List Char} {read : String}
    (h : (∃ text, MemberForm.ofPair key value = .plain name text) ∨
      ∃ inner, MemberForm.ofPair key value = .quoted name inner) :
    Member.Found (.text (String.ofList name) read) := by
  obtain ⟨rfl, hname⟩ := name_of_ofPair h
  refine ⟨hline.tidyKey_pair hpair, fun heq => hname ?_⟩
  rw [← heq, String.toList_ofList]

mutual

theorem membersOf_found : ∀ {outline : Outline} {members : List Member},
    (∀ line ∈ Outline.flatten outline, line.Found) → membersOf outline = .ok members →
    ∀ member ∈ members, member.Found
  | .node line children, members, hlines, h => by
      rw [Outline.flatten, List.forall_mem_cons] at hlines
      rw [membersOf] at h
      cases hpair : line.pair? with
      | none => simp [hpair] at h
      | some pair =>
          obtain ⟨key, value⟩ := pair
          simp only [hpair] at h
          cases hform : MemberForm.ofPair key value with
          | author name =>
              -- what stands below one author is read as members
              simp only [hform] at h
              obtain ⟨others, hothers, rfl⟩ := exists_of_map_eq_ok h
              rw [List.forall_mem_cons]
              exact ⟨trivial, membersOfAll_found hlines.2 hothers⟩
          | authorsBelow =>
              simp only [hform] at h
              obtain rfl := Except.ok.inj h
              rw [List.forall_mem_singleton]
              trivial
          | plain name text =>
              simp only [hform] at h
              obtain ⟨others, hothers, rfl⟩ := exists_of_map_eq_ok h
              rw [List.forall_mem_cons]
              exact ⟨hlines.1.found_text hpair (Or.inl ⟨_, hform⟩), membersOfAll_found hlines.2 hothers⟩
          | quoted name inner =>
              simp only [hform] at h
              obtain rfl := Except.ok.inj h
              rw [List.forall_mem_singleton]
              exact hlines.1.found_text hpair (Or.inr ⟨_, hform⟩)

theorem membersOfAll_found : ∀ {outlines : List Outline} {members : List Member},
    (∀ line ∈ Outline.flattenAll outlines, line.Found) → membersOfAll outlines = .ok members →
    ∀ member ∈ members, member.Found
  | [], members, _, h => by
      obtain rfl := Except.ok.inj h
      exact nofun
  | outline :: rest, members, hlines, h => by
      rw [Outline.flattenAll, List.forall_mem_append] at hlines
      obtain ⟨first, others, hfirst, hothers, rfl⟩ := reading_membersOf.exists_of_cons h
      rw [List.forall_mem_append]
      exact ⟨membersOf_found hlines.1 hfirst, membersOfAll_found hlines.2 hothers⟩

end

/-- A reference as it is read. -/
structure ReferenceFound (reference : Reference) : Prop where
  title_line : '\n' ∉ reference.title.toList
  nodup : (Entries.names reference.others).Nodup
  other : ∀ other ∈ reference.others, Reference.OtherExpressible other

theorem ReferenceFound.addTo {reference : Reference} (h : ReferenceFound reference)
    {member : Member} (hmember : member.Found) : ReferenceFound (member.addTo reference) := by
  unfold Member.addTo
  split
  -- only a member that is no field goes to the others
  case h_6 name value htitle hlink hinfo hrefType =>
    obtain ⟨hkey, hauthors⟩ := hmember
    refine ⟨h.title_line, Entries.nodup_names_put _ _ h.nodup, fun other hother => ?_⟩
    rcases Entries.mem_of_mem_put hother with hold | rfl
    · exact h.other other hold
    · refine ⟨hkey, ?_, value, rfl⟩
      simp only [Reference.fieldNames, List.mem_cons, List.not_mem_nil, or_false, not_or]
      exact ⟨htitle, hlink, hinfo, hauthors, hrefType⟩
  all_goals exact ⟨h.title_line, h.nodup, h.other⟩

theorem ReferenceFound.foldl {reference : Reference} (h : ReferenceFound reference)
    {members : List Member} (hmembers : ∀ member ∈ members, member.Found) :
    ReferenceFound (members.foldl Member.addTo reference) := by
  induction members generalizing reference with
  | nil => exact h
  | cons member rest ih =>
      rw [List.forall_mem_cons] at hmembers
      exact ih (h.addTo hmembers.1) hmembers.2

theorem mem_of_mem_unquote {text inner : List Char} (h : Text.unquote text = some inner) {c : Char}
    (hmem : c ∈ inner) : c ∈ text := by
  unfold Text.unquote at h
  split at h
  · split at h
    · obtain rfl := Option.some.inj h
      exact List.mem_cons_of_mem _ (List.mem_of_mem_dropLast hmem)
    · cases h
  · cases h

theorem referenceFound_titled {line : Line} (hline : line.Found) {depth : ℕ} {title : List Char}
    (h : title? depth line = some title) :
    ReferenceFound (Reference.titled (String.ofList title)) := by
  rw [title?] at h
  split at h
  · obtain ⟨written, hwritten, rfl⟩ := Option.map_eq_some_iff.mp h
    have hbreak := (hline.tidy_heading hwritten).one_line
    rw [String.toList_ofList] at hbreak
    refine ⟨?_, by simp [Reference.titled, Entries.names], by simp [Reference.titled]⟩
    rw [Reference.titled, String.toList_ofList]
    cases hquotes : Text.unquote written with
    | none => exact hbreak
    | some inner =>
        exact fun hmem => hbreak (mem_of_mem_unquote hquotes hmem)
  · cases h

theorem referencesAt_found {depth : ℕ} {outlines : List Outline}
    (hlines : ∀ line ∈ Outline.flattenAll outlines, line.Found) {listed : List Reference}
    (h : referencesAt depth outlines = .ok listed) :
    ∀ reference ∈ listed, ReferenceFound reference := by
  induction outlines generalizing listed with
  | nil =>
      obtain rfl := Except.ok.inj h
      exact nofun
  | cons outline rest ih =>
      obtain ⟨line, children⟩ := outline
      rw [Outline.flattenAll, Outline.flatten, List.forall_mem_append, List.forall_mem_cons]
        at hlines
      rw [referencesAt] at h
      cases htitle : title? depth line with
      | none => simp [htitle] at h
      | some title =>
          simp only [htitle] at h
          cases hmembers : membersOfAll children with
          | error fault => simp [hmembers] at h
          | ok members =>
              simp only [hmembers] at h
              obtain ⟨others, hothers, rfl⟩ := exists_of_map_eq_ok h
              rw [List.forall_mem_cons]
              exact ⟨(referenceFound_titled hlines.1.1 htitle).foldl
                (membersOfAll_found hlines.1.2 hmembers), ih hlines.2 hothers⟩

theorem referencesOf_found {children : List Outline}
    (hlines : ∀ line ∈ Outline.flattenAll children, line.Found) {listed : List Reference}
    (h : referencesOf children = .ok listed) : ∀ reference ∈ listed, ReferenceFound reference := by
  cases children with
  | nil =>
      obtain rfl := Except.ok.inj h
      exact nofun
  | cons first rest => exact referencesAt_found hlines h

theorem expressible_of_referencesOf {children : List Outline}
    (hlines : ∀ line ∈ Outline.flattenAll children, line.Found) {listed : List Reference}
    (h : referencesOf children = .ok listed)
    (hauthors : ∀ reference ∈ Reference.titledAmong listed, reference.AuthorsExpressible) :
    ∀ reference ∈ Reference.titledAmong listed, reference.Expressible := by
  intro reference hreference
  have hauthor := hauthors reference hreference
  obtain ⟨hmem, htitle⟩ := List.mem_filter.mp hreference
  obtain ⟨hline, hnodup, hother⟩ := referencesOf_found hlines h reference hmem
  exact ⟨by simpa using htitle, hline, fun author h => (hauthor author h).1,
    fun author h => (hauthor author h).2, hnodup, hother⟩

/-! ## Blocks -/

/-- An entry as it is read: without references that have no title it can be written
again unless it would be written as something else. -/
structure EntryFound (entry : String × Override) : Prop where
  key : Tidy entry.1
  expressible : entry.2.Unambiguous entry.1 → entry.2.titled.Expressible entry.1

theorem blockExpressible_titledBlock {entries : Entries Override}
    (hnodup : (Entries.names entries).Nodup) (hfound : ∀ entry ∈ entries, EntryFound entry)
    (h : Override.UnambiguousBlock entries) :
    Override.BlockExpressible (Override.titledBlock entries) := by
  induction entries with
  | nil => trivial
  | cons entry rest ih =>
      obtain ⟨key, entry⟩ := entry
      obtain ⟨hentry, hrest⟩ := h
      rw [List.forall_mem_cons] at hfound
      obtain ⟨hnew, hnodup⟩ := List.nodup_cons.mp hnodup
      -- leaving references out keeps the names, so they stay different
      refine ⟨?_, hfound.1.key, hfound.1.expressible hentry, ih hnodup hfound.2 hrest⟩
      rw [Override.names_titledBlock]
      exact hnew

theorem blockExpressible_collect {entries : List (String × Override)}
    (hfound : ∀ entry ∈ entries, EntryFound entry)
    (h : Override.UnambiguousBlock (Entries.collect entries)) :
    Override.BlockExpressible (Override.titledBlock (Entries.collect entries)) :=
  blockExpressible_titledBlock (Entries.nodup_names_collect entries)
    (fun entry hentry => hfound entry (Entries.mem_of_mem_collect hentry)) h

theorem titledBlock_ne_nil {entries : List (String × Override)} (h : entries ≠ []) :
    Override.titledBlock entries ≠ [] := by
  rw [Override.titledBlock_eq_map]
  simpa using h

/-- What the text of a line has to be for what it means. -/
theorem Heading.spec_ofLine {line : Line} {heading : Heading} (h : Heading.ofLine line = heading) :
    match heading with
    | .references | .properties => True
    | .nested name => line.heading? = some name
    | .swap slotClass replacement =>
        line.heading? = none ∧ line.pair? = some (slotClass, replacement)
    | .bare name => line.pair? = none ∧ name = line.text := by
  unfold Heading.ofLine at h
  split at h
  · subst h
    trivial
  split at h
  · subst h
    trivial
  split at h
  · subst h
    assumption
  · subst h
    exact ⟨by assumption, by assumption⟩
  · subst h
    exact ⟨by assumption, rfl⟩

mutual

theorem entriesOf_found : ∀ {outline : Outline} {entries : List (String × Override)},
    (∀ line ∈ Outline.flatten outline, line.Found) → entriesOf outline = .ok entries →
    ∀ entry ∈ entries, EntryFound entry
  | .node line children, entries, hlines, h => by
      rw [Outline.flatten, List.forall_mem_cons] at hlines
      obtain ⟨hline, hchildren⟩ := hlines
      rw [entriesOf] at h
      cases hheading : Heading.ofLine line with
      | references =>
          simp only [hheading] at h
          obtain ⟨listed, hlisted, rfl⟩ := exists_of_map_eq_ok h
          refine List.forall_mem_singleton.mpr ⟨?_, fun hplain => ⟨rfl, ?_⟩⟩
          · exact show Tidy "references" by decide
          · exact expressible_of_referencesOf hchildren hlisted hplain
      | properties =>
          simp only [hheading] at h
          obtain ⟨listed, hlisted, rfl⟩ := exists_of_map_eq_ok h
          refine List.forall_mem_singleton.mpr ⟨?_, fun hplain => ⟨rfl, ?_⟩⟩
          · exact show Tidy "properties" by decide
          · exact tableExpressible_propertiesOf hchildren hlisted hplain
      | nested name =>
          simp only [hheading] at h
          obtain ⟨inner, hinner, rfl⟩ := exists_of_map_eq_ok h
          have hfound := entriesOfAll_found hchildren hinner
          refine List.forall_mem_singleton.mpr ⟨?_, fun hplain => ?_⟩
          · exact hline.tidy_heading (Heading.spec_ofLine hheading)
          · obtain ⟨hreferences, hproperties, hblock⟩ := hplain
            exact ⟨hreferences, hproperties, blockExpressible_collect hfound hblock⟩
      | swap slotClass replacement =>
          simp only [hheading] at h
          obtain ⟨inner, hinner, rfl⟩ := exists_of_map_eq_ok h
          obtain ⟨hnone, hpair⟩ := Heading.spec_ofLine hheading
          have hfound := entriesOfAll_found hchildren hinner
          have hkey := hline.tidyKey_pair hpair
          have hreplacement := hline.replacement hnone hpair
          refine List.forall_mem_singleton.mpr ⟨hkey.toTidy, fun hplain => ?_⟩
          -- overrides are only read if there are lines below, and then they are not empty
          cases children with
          | nil => exact ⟨hkey.no_colon, hreplacement⟩
          | cons first rest =>
              have hsome := ne_nil_of_entriesOfAll (List.cons_ne_nil _ _) hinner
              exact ⟨hkey.no_colon, hreplacement, titledBlock_ne_nil (Entries.collect_ne_nil hsome),
                blockExpressible_collect hfound hplain⟩
      | bare name =>
          simp only [hheading] at h
          obtain ⟨inner, hinner, rfl⟩ := exists_of_map_eq_ok h
          obtain ⟨hpair, rfl⟩ := Heading.spec_ofLine hheading
          -- the lines below a bare name count for the block it stands in
          refine List.forall_mem_cons.mpr
            ⟨⟨hline.tidy_string, fun _ => ⟨?_, ?_⟩⟩, entriesOfAll_found hchildren hinner⟩
          · simpa using hline.ne
          · rw [String.toList_ofList]
            exact Line.notMem_of_pair? hpair

theorem entriesOfAll_found : ∀ {outlines : List Outline} {entries : List (String × Override)},
    (∀ line ∈ Outline.flattenAll outlines, line.Found) → entriesOfAll outlines = .ok entries →
    ∀ entry ∈ entries, EntryFound entry
  | [], entries, _, h => by
      obtain rfl := Except.ok.inj h
      exact nofun
  | outline :: rest, entries, hlines, h => by
      rw [Outline.flattenAll, List.forall_mem_append] at hlines
      obtain ⟨first, others, hfirst, hothers, rfl⟩ := reading_entriesOf.exists_of_cons h
      rw [List.forall_mem_append]
      exact ⟨entriesOf_found hlines.1 hfirst, entriesOfAll_found hlines.2 hothers⟩

end

/-! ## Documents -/

/-- A slice as it is cut from a text. -/
structure Slice.Found (slice : Slice) : Prop where
  header : slice.header.Found
  lines : ∀ line ∈ slice.lines, line.Found

theorem found_of_mem_parts {lines : List Line} (hlines : ∀ line ∈ lines, line.Found)
    {slice : Slice} (hslice : slice ∈ parts lines) : slice.Found := by
  have hmem : ∀ line ∈ slice.all, line.Found := fun line hline =>
    hlines line (mem_of_mem_parts hslice hline)
  rw [Slice.all, List.forall_mem_cons] at hmem
  exact ⟨hmem.1, hmem.2⟩

/-- An architecture as it is read: without references that have no title it can be
written again unless it would be written as something else. -/
def ArchitectureFound (entry : String × Architecture) : Prop :=
  Override.UnambiguousBlock entry.2.entries → entry.2.titled.Expressible entry.1

/-- The entries of an architecture that is read are those of its lines. -/
theorem exists_of_architectureOf {slice : Slice} (hslice : slice.Found)
    {entry : String × Architecture} (h : architectureOf slice = .ok entry) :
    ∃ outlines pairs, (∀ line ∈ Outline.flattenAll outlines, line.Found) ∧
      entriesOfAll outlines = .ok pairs ∧ Entries.collect pairs ≠ [] ∧
        entry = (String.ofList (slice.header.heading?.getD []), ⟨Entries.collect pairs⟩) := by
  obtain ⟨pairs, hpairs, hne, rfl⟩ := architectureOf_eq_ok_iff.mp h
  refine ⟨Outline.ofLines slice.lines, pairs, ?_, hpairs, hne, rfl⟩
  rw [Outline.flattenAll_ofLines]
  exact hslice.lines

theorem architectureOf_found {slice : Slice} (hslice : slice.Found)
    {entry : String × Architecture} (h : architectureOf slice = .ok entry) :
    ArchitectureFound entry := by
  have hname : Tidy (String.ofList (slice.header.heading?.getD [])) := by
    -- a header always has a name, but nothing depends on it here
    cases hheading : slice.header.heading? with
    | none => exact show Tidy "" by decide
    | some name => exact hslice.header.tidy_heading hheading
  obtain ⟨outlines, pairs, hlines, hpairs, hne, rfl⟩ := exists_of_architectureOf hslice h
  exact fun hplain => ⟨hname, titledBlock_ne_nil hne,
    blockExpressible_collect (entriesOfAll_found hlines hpairs) hplain⟩

theorem exists_slice_of_ofLines {lines : List Line} (hlines : ∀ line ∈ lines, line.Found)
    {architectures : Architectures} (h : ofLines lines = .ok architectures) :
    architectures ≠ [] ∧ (Entries.names architectures).Nodup ∧
      ∀ entry ∈ architectures, ∃ slice : Slice, slice.Found ∧ architectureOf slice = .ok entry := by
  obtain ⟨first, rest, pairs, rfl, -, -, hpairs, rfl⟩ := ofLines_eq_ok_iff.mp h
  have hne : pairs ≠ [] := by
    rintro rfl
    cases architecturesOf_eq_ok_iff.mp hpairs
  refine ⟨Entries.collect_ne_nil hne, Entries.nodup_names_collect pairs, fun entry hentry => ?_⟩
  obtain ⟨slice, hslice, hentry⟩ := exists_slice_of_mem hpairs (Entries.mem_of_mem_collect hentry)
  exact ⟨slice, found_of_mem_parts hlines hslice, hentry⟩

/-- Every architecture that is read from a text comes from lines that are found in it. -/
theorem exists_slice_of_parse {text : String} {architectures : Architectures}
    (h : parse text = .ok architectures) :
    architectures ≠ [] ∧ (Entries.names architectures).Nodup ∧
      ∀ entry ∈ architectures, ∃ slice : Slice, slice.Found ∧ architectureOf slice = .ok entry :=
  exists_slice_of_ofLines (fun _ => Line.found_of_mem_all) h

/-- What is read from a document can be written again without references that have no
title, unless it would be written as something else. -/
theorem expressible_titled_of_parse {text : String} {architectures : Architectures}
    (h : parse text = .ok architectures) (hplain : architectures.Unambiguous) :
    architectures.titled ≠ [] ∧ architectures.titled.Expressible := by
  obtain ⟨hne, hnodup, hread⟩ := exists_slice_of_parse h
  refine ⟨by simpa [Architectures.titled] using hne, ?_, ?_⟩
  · rw [Architectures.titled, Entries.names, List.map_map]
    exact hnodup
  · intro entry hentry
    obtain ⟨original, horiginal, rfl⟩ := List.mem_map.mp hentry
    obtain ⟨slice, hslice, hentry⟩ := hread original horiginal
    exact architectureOf_found hslice hentry (hplain original horiginal)

end Document

end ArchDiagram
