/-
# Sections that read back

The lines of properties and of references are read as what they were written for.
A property is read whatever stands above it, and a reference from its title down
to the next one. Main statements: `propertiesOf_propertyPieces` and
`referencesOf_referencePieces`.
-/

import ArchDiagram.Proofs.Document.Numbers
import ArchDiagram.Proofs.Document.Rows
import ArchDiagram.Proofs.Entries

namespace ArchDiagram.Document

/-! ## Lines -/

namespace Line

variable {line : Line} {key value : List Char}

/-- A name with a colon is read as a heading. -/
theorem heading?_of_text (h : line.text = key ++ [':']) (hkey : Text.Trimmed key) :
    line.heading? = some key := by
  have htrim : Text.trim key = key := hkey
  simp [heading?, h, htrim]

theorem heading?_eq_none (h : line.text.getLast? ≠ some ':') : line.heading? = none :=
  if_neg h

theorem exists_of_heading? (h : line.heading? = some key) :
    ∃ written, line.text = written ++ [':'] ∧ key = Text.trim written := by
  rw [heading?] at h
  split at h
  · rename_i hlast
    exact ⟨_, (List.dropLast_append_getLast? ':' hlast).symm, (Option.some.inj h).symm⟩
  · cases h

/-- A key and a value are read apart. -/
theorem pair?_of_text (h : line.text = key ++ ':' :: ' ' :: value) (hcolon : ':' ∉ key)
    (hkey : Text.Trimmed key) (hvalue : Text.Trimmed value) :
    line.pair? = some (key, value) := by
  have htrim : Text.trim key = key := hkey
  have hspace : Text.trim (' ' :: value) = value := Text.trim_indented 1 hvalue
  simp [pair?, h, Text.splitFirst_append_cons hcolon, htrim, hspace]

theorem pair?_eq_none (h : ':' ∉ line.text) : line.pair? = none := by
  rw [pair?, (Text.splitFirst_eq_none_iff ':').mpr h, Option.map_none]

end Line

theorem toList_header (key : String) : (s!"{key}:").toList = key.toList ++ [':'] := by
  change (key ++ ":").toList = _
  simp

theorem toList_pair (key value : String) :
    (s!"{key}: {value}").toList = key.toList ++ ':' :: ' ' :: value.toList := by
  change (key ++ ": " ++ value).toList = _
  simp

theorem legible_of_tidy {text : String} (h : Tidy text) (depth : ℕ) :
    (Piece.line depth text).Legible := ⟨h.trimmed, h.one_line⟩

/-! ## Pairs -/

/-- Lines of a key and a value each. -/
def pairPieces (depth : ℕ) (pairs : List (String × String)) : List Piece :=
  pairs.map fun pair => .line depth s!"{pair.1}: {pair.2}"

theorem rows_pairPieces (depth : ℕ) (pairs : List (String × String)) :
    Piece.rows (pairPieces depth pairs) = pairs.map fun pair =>
      (depth, pair.1.toList ++ ':' :: ' ' :: pair.2.toList) := by
  induction pairs with
  | nil => rfl
  | cons pair rest ih =>
      have hcons : pairPieces depth (pair :: rest) =
          .line depth s!"{pair.1}: {pair.2}" :: pairPieces depth rest := rfl
      rw [hcons, Piece.rows, toList_pair, if_neg (by simp), ih, List.map_cons]

theorem hangs_pairPieces (depth : ℕ) (pairs : List (String × String)) :
    Hangs depth (pairPieces depth pairs) := by
  apply Hangs.of_level
  intro row hrow
  rw [rows_pairPieces] at hrow
  obtain ⟨pair, -, rfl⟩ := List.mem_map.mp hrow
  rfl

theorem legible_pair {key value : String} (hkey : Tidy key) (hvalue : Tidy value)
    (hne : value ≠ "") (depth : ℕ) : (Piece.line depth s!"{key}: {value}").Legible := by
  constructor
  · rw [toList_pair]
    apply hkey.trimmed.append
    -- a colon is no blank, and the value does not end in one
    refine Text.trimmed_iff.mpr ⟨?_, ?_⟩
    · rintro c ⟨⟩
      decide
    · intro c hc
      rw [List.getLast?_cons_cons, List.getLast?_cons_of_ne_nil (by simpa using hne)] at hc
      exact (Text.trimmed_iff.mp hvalue.trimmed).2 c hc
  · rw [toList_pair]
    simp [hkey.one_line, hvalue.one_line]

theorem legible_header {key : String} (hkey : Tidy key) (depth : ℕ) :
    (Piece.line depth s!"{key}:").Legible := by
  constructor
  · rw [toList_header]
    exact hkey.trimmed.append (show Text.Trimmed [':'] by decide)
  · rw [toList_header]
    simp [hkey.one_line]

theorem legible_pairPieces {pairs : List (String × String)} (hkey : ∀ pair ∈ pairs, Tidy pair.1)
    (hvalue : ∀ pair ∈ pairs, Tidy pair.2) (hne : ∀ pair ∈ pairs, pair.2 ≠ "") (depth : ℕ) :
    ∀ piece ∈ pairPieces depth pairs, piece.Legible := by
  intro piece hpiece
  obtain ⟨pair, hpair, rfl⟩ := List.mem_map.mp hpiece
  exact legible_pair (hkey pair hpair) (hvalue pair hpair) (hne pair hpair) depth

/-! ## Properties -/

/-- The names of properties with the texts of their values. -/
def propertyTexts (properties : Entries Property) : List (String × String) :=
  properties.map fun entry => (entry.1, propertyText entry.2)

theorem propertyPieces_eq (depth : ℕ) (properties : Entries Property) :
    propertyPieces depth properties = pairPieces depth (propertyTexts properties) := by
  rw [propertyPieces, pairPieces, propertyTexts, List.map_map]
  rfl

theorem legible_propertyPieces {properties : Entries Property}
    (h : Property.TableExpressible properties) (depth : ℕ) :
    ∀ piece ∈ propertyPieces depth properties, piece.Legible := by
  rw [propertyPieces_eq]
  apply legible_pairPieces
  all_goals
    intro pair hpair
    obtain ⟨entry, hentry, rfl⟩ := List.mem_map.mp hpair
  · exact (h.key entry hentry).toTidy
  · exact tidy_propertyText (h.value entry hentry)
  · exact propertyText_ne (h.value entry hentry)

theorem propertyOfLine_of_text {line : Line} {key : String} {property : Property}
    (hkey : TidyKey key) (hproperty : property.Expressible)
    (h : line.text = key.toList ++ ':' :: ' ' :: (propertyText property).toList) :
    propertyOfLine line = .ok (key, property) := by
  rw [propertyOfLine, Line.pair?_of_text h hkey.no_colon hkey.trimmed
    (tidy_propertyText hproperty).trimmed]
  simp only [propertyOf_propertyText hproperty, String.ofList_toList]

/-- Properties are read from their lines. -/
theorem propertiesOfLines_of_rows {properties : Entries Property}
    (hkey : ∀ entry ∈ properties, TidyKey entry.1)
    (hvalue : ∀ entry ∈ properties, entry.2.Expressible) {depth : ℕ} {lines : List Line}
    (hlines : lines.map Line.row = Piece.rows (pairPieces depth (propertyTexts properties))) :
    propertiesOfLines lines = .ok properties := by
  rw [rows_pairPieces] at hlines
  induction properties generalizing lines with
  | nil =>
      rw [List.map_eq_nil_iff.mp hlines]
      rfl
  | cons entry rest ih =>
      obtain ⟨line, below, rfl, hline, hbelow⟩ := List.map_eq_cons_iff.mp hlines
      rw [List.forall_mem_cons] at hkey hvalue
      have htext : line.text = entry.1.toList ++ ':' :: ' ' :: (propertyText entry.2).toList :=
        (Prod.mk.inj hline).2
      rw [propertiesOfLines, propertyOfLine_of_text hkey.1 hvalue.1 htext]
      simp only [ih hkey.2 hvalue.2 hbelow]
      rfl

theorem propertiesOf_propertyPieces {properties : Entries Property}
    (h : Property.TableExpressible properties) {depth : ℕ} {outlines : List Outline}
    (hread : ReadAs (propertyPieces depth properties) outlines) :
    propertiesOf outlines = .ok properties := by
  rw [propertyPieces_eq] at hread
  rw [propertiesOf, propertiesOfLines_of_rows h.key h.value hread.flattenAll]
  exact congrArg Except.ok (Entries.collect_eq_self h.nodup)

/-! ## Members of references -/

/-- The names of members with the texts of their values in quotes. -/
def quotedTexts (texts : List (String × String)) : List (String × String) :=
  texts.map fun text => (text.1, quoted text.2)

/-- The lines of authors, if there are any. -/
def authorPieces (width depth : ℕ) (authors : List String) : List Piece :=
  if authors.isEmpty then []
  else .line depth "authors:" :: authors.map (.line (depth + width) ·)

/-- The fields of a reference that are texts. -/
def fieldTexts (reference : Reference) : List (String × String) :=
  reference.link.toList.map ("link", ·) ++ reference.info.toList.map ("info", ·)
    ++ reference.refType.toList.map ("refType", ·)

/-- The members as they are kept in a reference. -/
def jsonTexts (texts : List (String × String)) : Entries Json :=
  texts.map fun text => (text.1, .string text.2)

theorem exists_jsonTexts {others : Entries Json}
    (h : ∀ other ∈ others, ∃ value, other.2 = .string value) :
    ∃ texts, others = jsonTexts texts := by
  induction others with
  | nil => exact ⟨[], rfl⟩
  | cons other rest ih =>
      rw [List.forall_mem_cons] at h
      obtain ⟨name, json⟩ := other
      obtain ⟨value, rfl⟩ := h.1
      obtain ⟨texts, rfl⟩ := ih h.2
      exact ⟨(name, value) :: texts, rfl⟩

theorem referencePieces_eq {reference : Reference} (htitle : reference.title ≠ "")
    {texts : List (String × String)} (htexts : reference.others = jsonTexts texts)
    (width depth : ℕ) :
    referencePieces width depth reference =
      .line depth ("\"" ++ reference.title ++ "\":") ::
        (authorPieces width (depth + width) reference.authors ++
          pairPieces (depth + width) (quotedTexts (fieldTexts reference ++ texts))) := by
  simp only [referencePieces, if_neg htitle, htexts, authorPieces, pairPieces, quotedTexts,
    fieldTexts, jsonTexts, List.map_append, List.map_map, List.cons_append, List.append_assoc]
  rfl

theorem reading_membersOf : Reading membersOf membersOfAll where
  nil := rfl
  cons outline rest := by
    rw [membersOfAll]
    cases membersOf outline with
    | error fault => rfl
    | ok members => rfl

/-- Members that are texts are read from their lines. -/
theorem membersOfAll_quotedTexts {texts : List (String × String)}
    (hkey : ∀ text ∈ texts, TidyKey text.1) (hauthors : ∀ text ∈ texts, text.1 ≠ "authors")
    {depth : ℕ} {outlines : List Outline}
    (hread : ReadAs (pairPieces depth (quotedTexts texts)) outlines) :
    membersOfAll outlines = .ok (texts.map fun text => .text text.1 text.2) := by
  induction texts generalizing outlines with
  | nil =>
      rw [hread.nil]
      rfl
  | cons text rest ih =>
      rw [List.forall_mem_cons] at hkey hauthors
      obtain ⟨line, below, rfl, htext, hbelow⟩ :=
        hread.leaf (by rw [toList_pair]; simp) (hangs_pairPieces depth (quotedTexts rest))
      rw [toList_pair] at htext
      have hform : MemberForm.ofPair text.1.toList (quoted text.2).toList =
          .quoted text.1.toList (Text.escape text.2.toList) := by
        rw [MemberForm.ofPair, if_neg (mt String.toList_inj.mp hauthors.1), unquote_quoted]
      have hpair := Line.pair?_of_text htext hkey.1.no_colon hkey.1.trimmed (trimmed_quoted _)
      -- there is no line below in which the value could go on
      have hfirst : membersOf (.node line []) = .ok [.text text.1 text.2] := by
        simp only [membersOf, hpair, hform, continued, Outline.flattenAll, List.flatMap_nil,
          List.append_nil, Text.unescape_escape, String.ofList_toList]
      exact reading_membersOf.append (reading_membersOf.singleton hfirst)
        (ih hkey.2 hauthors.2 hbelow)

theorem rows_map_line (depth : ℕ) {texts : List String} (hne : ∀ text ∈ texts, text ≠ "") :
    Piece.rows (texts.map (.line depth ·)) = texts.map fun text => (depth, text.toList) := by
  induction texts with
  | nil => rfl
  | cons text rest ih =>
      rw [List.forall_mem_cons] at hne
      rw [List.map_cons, Piece.rows, if_neg (by simpa using hne.1), ih hne.2, List.map_cons]

theorem hangs_map_line (depth : ℕ) {texts : List String} (hne : ∀ text ∈ texts, text ≠ "") :
    Hangs depth (texts.map (.line depth ·)) := by
  apply Hangs.of_level
  intro row hrow
  rw [rows_map_line depth hne] at hrow
  obtain ⟨text, -, rfl⟩ := List.mem_map.mp hrow
  rfl

theorem hangs_authorPieces {authors : List String} (hne : ∀ author ∈ authors, author ≠ "")
    (width depth : ℕ) : Hangs depth (authorPieces width depth authors) := by
  rw [authorPieces]
  split
  · exact Hangs.nil
  · exact (hangs_map_line (depth + width) hne).cons (by decide)

/-- The member that gives the authors, if there are any. -/
def authorMembers (authors : List String) : List Member :=
  if authors.isEmpty then [] else [.authors authors]

/-- Authors are read from their lines. -/
theorem membersOfAll_authorPieces {authors : List String} (hne : ∀ author ∈ authors, author ≠ "")
    {width depth : ℕ} (hwidth : 0 < width) {outlines : List Outline}
    (hread : ReadAs (authorPieces width depth authors) outlines) :
    membersOfAll outlines = .ok (authorMembers authors) := by
  rw [authorPieces] at hread
  rw [authorMembers]
  split at hread
  · rename_i hnone
    rw [hread.nil, if_pos hnone]
    rfl
  · rename_i hsome
    obtain ⟨header, children, rfl, -, htext, hchildren⟩ :=
      hread.cons (by decide) hwidth (hangs_map_line _ hne)
    have hpair : header.pair? = some ("authors".toList, []) := by
      rw [Line.pair?, htext]
      decide
    -- the lines below are taken as they are
    have hstrings : (Outline.flattenAll children).map Line.string = authors := by
      have hrows := congrArg (List.map fun row => String.ofList row.2) hchildren.flattenAll
      rw [rows_map_line _ hne, List.map_map, List.map_map] at hrows
      simp only [Function.comp_def, String.ofList_toList, List.map_id'] at hrows
      exact hrows
    have hform : MemberForm.ofPair "authors".toList [] = .authorsBelow := rfl
    rw [if_neg hsome]
    apply reading_membersOf.singleton
    simp only [membersOf, hpair, hform, hstrings]

/-! ## References -/

theorem addTo_text {reference : Reference} {name : String} (h : name ∉ Reference.fieldNames)
    (value : String) : Member.addTo reference (.text name value) =
      { reference with others := reference.others.put name (.string value) } := by
  simp only [Reference.fieldNames, List.mem_cons, List.not_mem_nil, or_false, not_or] at h
  unfold Member.addTo
  split <;> simp_all

theorem foldl_addTo_texts {texts : List (String × String)}
    (h : ∀ text ∈ texts, text.1 ∉ Reference.fieldNames) (reference : Reference) :
    (texts.map fun text => Member.text text.1 text.2).foldl Member.addTo reference =
      { reference with others := Entries.putAll reference.others (jsonTexts texts) } := by
  induction texts generalizing reference with
  | nil => rfl
  | cons text rest ih =>
      rw [List.forall_mem_cons] at h
      rw [List.map_cons, List.foldl_cons, addTo_text h.1, ih h.2]
      rfl

/-- The members of a reference put together give the reference. -/
theorem foldl_addTo_members {reference : Reference}
    (hnodup : (Entries.names reference.others).Nodup)
    {texts : List (String × String)} (htexts : reference.others = jsonTexts texts)
    (h : ∀ text ∈ texts, text.1 ∉ Reference.fieldNames) :
    (authorMembers reference.authors ++
      (fieldTexts reference ++ texts).map fun text => Member.text text.1 text.2).foldl
        Member.addTo (Reference.titled reference.title) = reference := by
  obtain ⟨title, link, info, authors, refType, others⟩ := reference
  simp only at hnodup htexts
  subst htexts
  -- the fields come first and touch none of the other members
  have hfields : (authorMembers authors ++
      (fieldTexts ⟨title, link, info, authors, refType, jsonTexts texts⟩).map fun text =>
        Member.text text.1 text.2).foldl Member.addTo (Reference.titled title) =
      ⟨title, link, info, authors, refType, []⟩ := by
    rcases authors with _ | ⟨author, others⟩ <;> rcases link with _ | link <;>
      rcases info with _ | info <;> rcases refType with _ | refType <;> rfl
  rw [List.map_append, ← List.append_assoc, List.foldl_append, hfields, foldl_addTo_texts h]
  rw [Entries.putAll_eq_append (by simpa using hnodup), List.nil_append]

theorem tidyKey_fieldTexts (reference : Reference) :
    ∀ text ∈ fieldTexts reference, TidyKey text.1 ∧ text.1 ≠ "authors" := by
  have hlink : TidyKey "link" ∧ "link" ≠ "authors" := by decide
  have hinfo : TidyKey "info" ∧ "info" ≠ "authors" := by decide
  have hrefType : TidyKey "refType" ∧ "refType" ≠ "authors" := by decide
  intro text htext
  simp only [fieldTexts, List.mem_append, List.mem_map] at htext
  rcases htext with (⟨value, -, rfl⟩ | ⟨value, -, rfl⟩) | ⟨value, -, rfl⟩
  · exact hlink
  · exact hinfo
  · exact hrefType

theorem toList_title (title : String) :
    ("\"" ++ title ++ "\":").toList = ('"' :: (title.toList ++ ['"'])) ++ [':'] := by
  simp

/-- A title is read from its line. -/
theorem title?_of_text {depth : ℕ} {line : Line} {title : String} (hindent : line.indent = depth)
    (htext : line.text = ("\"" ++ title ++ "\":").toList) :
    title? depth line = some title.toList := by
  rw [toList_title] at htext
  have hheading := Line.heading?_of_text htext (Text.trimmed_between (by decide) (by decide) _)
  simp [title?, hindent, hheading, Text.unquote]

/-- What stands below the title of a reference. -/
structure Body (reference : Reference) (texts : List (String × String)) : Prop where
  others : reference.others = jsonTexts texts
  key : ∀ text ∈ fieldTexts reference ++ texts, TidyKey text.1
  no_authors : ∀ text ∈ fieldTexts reference ++ texts, text.1 ≠ "authors"
  no_field : ∀ text ∈ texts, text.1 ∉ Reference.fieldNames

theorem exists_body {reference : Reference} (h : reference.Expressible) :
    ∃ texts, Body reference texts := by
  obtain ⟨texts, htexts⟩ := exists_jsonTexts fun other hother => (h.other other hother).text
  have hother : ∀ text ∈ texts, Reference.OtherExpressible (text.1, .string text.2) := by
    intro text htext
    exact h.other _ (htexts ▸ List.mem_map_of_mem htext)
  refine ⟨texts, htexts, ?_, ?_, fun text htext => (hother text htext).no_field⟩
  all_goals
    intro text htext
    rcases List.mem_append.mp htext with hfield | htext
  · exact (tidyKey_fieldTexts reference text hfield).1
  · exact (hother text htext).key
  · exact (tidyKey_fieldTexts reference text hfield).2
  · intro heq
    apply (hother text htext).no_field
    rw [heq]
    decide

theorem hangs_body {reference : Reference} (h : reference.Expressible)
    (texts : List (String × String)) (width depth : ℕ) :
    Hangs depth (authorPieces width depth reference.authors ++ pairPieces depth texts) :=
  (hangs_authorPieces h.author_ne width depth).append (hangs_pairPieces depth texts)

theorem hangs_referencePieces {reference : Reference} (h : reference.Expressible)
    (width depth : ℕ) : Hangs depth (referencePieces width depth reference) := by
  obtain ⟨texts, hbody⟩ := exists_body h
  rw [referencePieces_eq h.title_ne hbody.others]
  exact (hangs_body h _ width (depth + width)).cons (by rw [toList_title]; simp)

theorem hangs_references {listed : List Reference}
    (h : ∀ reference ∈ listed, reference.Expressible) (width depth : ℕ) :
    Hangs depth (listed.flatMap (referencePieces width depth)) := by
  induction listed with
  | nil => exact Hangs.nil
  | cons reference rest ih =>
      rw [List.forall_mem_cons] at h
      rw [List.flatMap_cons]
      exact (hangs_referencePieces h.1 width depth).append (ih h.2)

theorem legible_authorPieces {authors : List String} (h : ∀ author ∈ authors, Tidy author)
    (width depth : ℕ) : ∀ piece ∈ authorPieces width depth authors, piece.Legible := by
  intro piece hpiece
  rw [authorPieces] at hpiece
  split at hpiece
  · exact absurd hpiece List.not_mem_nil
  · rcases List.mem_cons.mp hpiece with rfl | hpiece
    · exact legible_of_tidy (by decide) depth
    · obtain ⟨author, hauthor, rfl⟩ := List.mem_map.mp hpiece
      exact legible_of_tidy (h author hauthor) _

theorem legible_referencePieces {reference : Reference} (h : reference.Expressible)
    (width depth : ℕ) : ∀ piece ∈ referencePieces width depth reference, piece.Legible := by
  obtain ⟨texts, hbody⟩ := exists_body h
  rw [referencePieces_eq h.title_ne hbody.others, List.forall_mem_cons, List.forall_mem_append]
  refine ⟨⟨?_, ?_⟩, legible_authorPieces h.author width _, ?_⟩
  · rw [toList_title]
    exact Text.trimmed_between (by decide) (by decide) _
  · rw [toList_title]
    simp [h.title_line]
  · apply legible_pairPieces
    all_goals
      intro pair hpair
      obtain ⟨text, htext, rfl⟩ := List.mem_map.mp hpair
    · exact (hbody.key text htext).toTidy
    · exact ⟨trimmed_quoted _, notMem_quoted _⟩
    · exact quoted_ne _

/-- A reference is read from the lines below its title. -/
theorem membersOfAll_body {reference : Reference} (h : reference.Expressible)
    {texts : List (String × String)} (hbody : Body reference texts) {width depth : ℕ}
    (hwidth : 0 < width) {outlines : List Outline}
    (hread : ReadAs (authorPieces width depth reference.authors ++
      pairPieces depth (quotedTexts (fieldTexts reference ++ texts))) outlines) :
    membersOfAll outlines = .ok (authorMembers reference.authors ++
      (fieldTexts reference ++ texts).map fun text => Member.text text.1 text.2) := by
  obtain ⟨before, after, rfl, hbefore, hafter⟩ :=
    hread.append (hangs_authorPieces h.author_ne width depth) (hangs_pairPieces depth _)
  exact reading_membersOf.append (membersOfAll_authorPieces h.author_ne hwidth hbefore)
    (membersOfAll_quotedTexts hbody.key hbody.no_authors hafter)

/-- References are read from their lines. -/
theorem referencesAt_referencePieces {listed : List Reference}
    (h : ∀ reference ∈ listed, reference.Expressible) {width depth : ℕ} (hwidth : 0 < width)
    {outlines : List Outline}
    (hread : ReadAs (listed.flatMap (referencePieces width depth)) outlines) :
    referencesAt depth outlines = .ok listed := by
  induction listed generalizing outlines with
  | nil =>
      rw [hread.nil]
      rfl
  | cons reference rest ih =>
      rw [List.forall_mem_cons] at h
      rw [List.flatMap_cons] at hread
      obtain ⟨before, after, rfl, hbefore, hafter⟩ :=
        hread.append (hangs_referencePieces h.1 width depth) (hangs_references h.2 width depth)
      obtain ⟨texts, hbody⟩ := exists_body h.1
      rw [referencePieces_eq h.1.title_ne hbody.others] at hbefore
      obtain ⟨line, children, rfl, hindent, htext, hchildren⟩ :=
        hbefore.cons (by rw [toList_title]; simp) hwidth (hangs_body h.1 _ width _)
      rw [List.singleton_append, referencesAt, title?_of_text hindent htext,
        membersOfAll_body h.1 hbody hwidth hchildren]
      simp only [ih h.2 hafter, String.ofList_toList,
        foldl_addTo_members h.1.nodup hbody.others hbody.no_field]
      rfl

theorem referencesOf_referencePieces {listed : List Reference}
    (h : ∀ reference ∈ listed, reference.Expressible) {width depth : ℕ} (hwidth : 0 < width)
    {outlines : List Outline}
    (hread : ReadAs (listed.flatMap (referencePieces width depth)) outlines) :
    referencesOf outlines = .ok listed := by
  have hat := referencesAt_referencePieces h hwidth hread
  cases outlines with
  | nil => exact hat
  | cons first rest =>
      -- the first title stands where all of them do
      have hfirst : first.line.indent = depth := by
        obtain ⟨lines, hlines, houtlines⟩ := hread
        have hhead : first.line ∈ lines.head? := by
          rw [← Outline.head?_ofLines, ← houtlines]
          rfl
        apply (hangs_references h width depth).first first.line.row
        rw [← hlines, List.head?_map, Option.mem_def.mp hhead]
        rfl
      rw [referencesOf, hfirst]
      exact hat

end ArchDiagram.Document
