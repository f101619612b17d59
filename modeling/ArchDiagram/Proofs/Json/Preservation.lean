/-
# Items written as they were read

An item that is read from a JSON object without repeated names is written as an object that
has the same under every name (`Item.kept_toJson_of_ofJson?`). What may be missing is said field by
field: a field that may be left out is not written where it was `null`, and a list is not
written where it was empty. The same holds of the arrows, segments, labels and references
inside the item; members that are no fields keep their order besides.
-/

import ArchDiagram.Proofs.Json.Canonical

namespace ArchDiagram

namespace Json

/-! ## Values without repeated names -/

mutual

/-- A value in which no object names anything twice, at any depth. -/
def Distinct : Json → Prop
  | .array elements => DistinctElements elements
  | .object members => (Entries.names members).Nodup ∧ DistinctMembers members
  | .null | .bool _ | .integer _ | .real _ | .string _ => True

/-- Elements in each of which no object names anything twice. -/
def DistinctElements : List Json → Prop
  | [] => True
  | element :: rest => element.Distinct ∧ DistinctElements rest

/-- Members in the value of each of which no object names anything twice. -/
def DistinctMembers : List (String × Json) → Prop
  | [] => True
  | (_, value) :: rest => value.Distinct ∧ DistinctMembers rest

end

mutual

/-- In such a value there is nothing to be merged. -/
theorem Distinct.merged_eq : ∀ {value : Json}, value.Distinct → value.merged = value
  | .null, _ | .bool _, _ | .integer _, _ | .real _, _ | .string _, _ => rfl
  | .array _, h => congrArg Json.array (DistinctElements.mergedElements_eq h)
  | .object members, ⟨hnodup, hmembers⟩ => by
      rw [merged, DistinctMembers.mergedMembers_eq hmembers, Entries.collect_eq_self hnodup]

theorem DistinctElements.mergedElements_eq : ∀ {elements : List Json},
    DistinctElements elements → mergedElements elements = elements
  | [], _ => rfl
  | _ :: _, ⟨hfirst, hrest⟩ => by
      rw [mergedElements, hfirst.merged_eq, DistinctElements.mergedElements_eq hrest]

theorem DistinctMembers.mergedMembers_eq : ∀ {members : List (String × Json)},
    DistinctMembers members → mergedMembers members = members
  | [], _ => rfl
  | (_, _) :: _, ⟨hfirst, hrest⟩ => by
      rw [mergedMembers, hfirst.merged_eq, DistinctMembers.mergedMembers_eq hrest]

end

theorem distinctMembers_iff {members : List (String × Json)} :
    DistinctMembers members ↔ ∀ member ∈ members, member.2.Distinct := by
  induction members with
  | nil => simp [DistinctMembers]
  | cons member rest ih => rw [DistinctMembers, List.forall_mem_cons, ih]

/-! ## What is kept -/

/-- How the values of a field are written again. -/
structure Rule where
  /-- The values that are not written. -/
  omits : Json → Prop
  /-- What a value that is written becomes. -/
  keeps : Json → Json → Prop

namespace Rule

/-- Every value is written as it is. -/
def verbatim : Rule := ⟨fun _ => False, Eq⟩

/-- Every value but `null` is written. -/
def unlessNull (keeps : Json → Json → Prop) : Rule := ⟨(· = .null), keeps⟩

/-- Every value but the empty array is written. -/
def unlessEmpty (keeps : Json → Json → Prop) : Rule := ⟨(· = .array []), keeps⟩

/-- What stands under a name where a record is read and where it is written again. -/
inductive Takes (rule : Rule) : Option Json → Option Json → Prop
  | missing : rule.Takes none none
  | omitted {given} (h : rule.omits given) : rule.Takes (some given) none
  | kept {given again} (homits : ¬rule.omits given) (hkeeps : rule.keeps given again) :
      rule.Takes (some given) (some again)

theorem takes_verbatim (given : Option Json) : verbatim.Takes given given := by
  cases given with
  | none => exact .missing
  | some given => exact .kept id rfl

end Rule

/-- Two arrays whose elements are kept one by one. -/
def EachKept (keeps : Json → Json → Prop) (source written : Json) : Prop :=
  ∃ elements again, source = .array elements ∧ written = .array again ∧
    List.Forall₂ keeps elements again

/-- Two arrays whose elements are kept one by one, or two values of another shape that are
kept. -/
def OneOrEachKept (keeps : Json → Json → Prop) (source written : Json) : Prop :=
  EachKept keeps source written ∨
    (∀ elements, source ≠ .array elements) ∧ (∀ again, written ≠ .array again) ∧
      keeps source written

/-- Two objects that have the same under every name, the fields according to their rules. The
members that are no fields have the same order in both. -/
def RecordKept (rules : List (String × Rule)) (source written : Json) : Prop :=
  ∃ members again, source = .object members ∧ written = .object again ∧
    (Entries.names again).Nodup ∧
    (∀ name, ((rules.lookup name).getD .verbatim).Takes (members.lookup name) (again.lookup name)) ∧
    again.filter (fun member => member.1 ∉ rules.map Prod.fst) =
      members.filter (fun member => member.1 ∉ rules.map Prod.fst)

/-! ## Records -/

section Records

variable {rules : List (String × Rule)} {members : List (String × Json)} {fields : Fields}
  {written : List (String × Option Json)}

/-- The values of the fields are parts of the object. -/
theorem Distinct.named {known : List String} (h : Distinct (.object members))
    (hread : Fields.ofMembers? known members = some fields) {name : String} {given : Json}
    (hgiven : fields.named.lookup name = some given) : given.Distinct := by
  obtain ⟨hnodup, hnamed, -⟩ := Fields.ofMembers?_eq_some_iff.mp hread
  have hmember := (Entries.lookup_eq_some_iff_mem hnodup).mp hgiven
  rw [hnamed] at hmember
  exact distinctMembers_iff.mp h.2 _ (List.mem_of_mem_filter hmember)

/-- Without repeated names the members left over are those that are no fields. -/
theorem Distinct.others_eq {known : List String} (h : Distinct (.object members))
    (hread : Fields.ofMembers? known members = some fields) :
    fields.others = members.filter fun member => !known.contains member.1 := by
  have hmembers : ∀ member ∈ members.filter fun member => !known.contains member.1,
      member.2.merged = member.2 := fun member hmember =>
    (distinctMembers_iff.mp h.2 member (List.mem_of_mem_filter hmember)).merged_eq
  have hnodup := h.1.sublist ((List.filter_sublist (p := fun member => !known.contains member.1)
    (l := members)).map Prod.fst)
  rw [(Fields.ofMembers?_eq_some_iff.mp hread).2.2, mergedMembers_eq_self hmembers,
    Entries.collect_eq_self hnodup]

/-- A record is kept if each of its fields is. -/
theorem recordKept_of_forall₂ {known : List String} (hdistinct : Distinct (.object members))
    (hread : Fields.ofMembers? known members = some fields) (hknown : known.Nodup)
    (hrules : rules.map Prod.fst = known) (hwritten : written.map Prod.fst = known)
    (hfields : List.Forall₂ (fun rule field => rule.1 = field.1 ∧
      rule.2.Takes (fields.named.lookup field.1) field.2) rules written) :
    RecordKept rules (.object members) (.object (present written ++ fields.others)) := by
  have hremainder := Fields.remainder_of_ofMembers? hread
  have hothers := hdistinct.others_eq hread
  have hnamed := (Fields.ofMembers?_eq_some_iff.mp hread).2.1
  have hnames := hwritten ▸ names_present_sublist written
  have hselected : (fun member : String × Json => decide (member.1 ∉ rules.map Prod.fst)) =
      fun member => !known.contains member.1 := by
    funext member
    simp [hrules]
  refine ⟨members, _, rfl, rfl, hremainder.nodup_names_append hknown hwritten, fun name => ?_, ?_⟩
  · rw [List.lookup_append]
    by_cases hname : name ∈ known
    · -- the rule of the field says what is written
      obtain ⟨⟨_, rule⟩, hrule, rfl⟩ := List.mem_map.mp (hrules ▸ hname)
      obtain ⟨⟨_, value⟩, hfield, rfl, htakes⟩ := exists_of_forall₂_of_mem hfields.flip hrule
      have hlookup := forall_lookup_present (hwritten ▸ hknown) _ hfield
      have hnodup : (Entries.names rules).Nodup := by rwa [Entries.names, hrules]
      rw [(Entries.lookup_eq_some_iff_mem hnodup).mpr hrule, hlookup, hothers,
        Entries.lookup_filter (fun name => !known.contains name)]
      rw [hnamed, Entries.lookup_filter] at htakes
      simpa [hname] using htakes
    · -- any other member is among those left over
      have hrule : rules.lookup name = none :=
        Entries.lookup_eq_none_iff_notMem.mpr (by rwa [Entries.names, hrules])
      have hpresent : (present written).lookup name = none :=
        Entries.lookup_eq_none_iff_notMem.mpr fun hmem => hname (hnames.subset hmem)
      rw [hrule, hpresent, hothers, Entries.lookup_filter (fun name => !known.contains name)]
      simpa [hname] using Rule.takes_verbatim (members.lookup name)
  · have hnone : (present written).filter (fun member => !known.contains member.1) = [] :=
      List.filter_eq_nil_iff.mpr fun member hmember => by
        simpa using hnames.subset (List.mem_map_of_mem hmember)
    have hall : fields.others.filter (fun member => !known.contains member.1) = fields.others :=
      List.filter_eq_self.mpr fun other hother => by simpa using hremainder.unknown other hother
    rw [hselected, List.filter_append, hnone, hall, List.nil_append, hothers]

end Records

/-! ## Fields of each kind -/

section Fields

variable {α : Type} {read? : Json → Option α} {write : α → Json} {keeps : Json → Json → Prop}
  {fields : Fields} {name : String}

theorem takes_of_required? {value : α} (h : fields.required? name read? = some value)
    (hread : ∀ given content, read? given = some content → given = write content) :
    Rule.verbatim.Takes (fields.named.lookup name) (some (write value)) := by
  obtain ⟨given, hgiven, hvalue⟩ := Fields.required?_eq_some_iff.mp h
  rw [hgiven]
  exact .kept id (hread given value hvalue)

theorem takes_of_optional? {value : Option α} (h : fields.optional? name read? = some value)
    (hread : ∀ given content, fields.named.lookup name = some given → read? given = some content →
      keeps given (write content)) :
    (Rule.unlessNull keeps).Takes (fields.named.lookup name) (value.map write) := by
  cases value with
  | none =>
      rcases Fields.optional?_eq_some_none_iff.mp h with hlookup | hlookup
      · rw [hlookup]
        exact .missing
      · rw [hlookup]
        exact .omitted rfl
  | some content =>
      obtain ⟨given, hgiven, hnull, hcontent⟩ := Fields.optional?_eq_some_some_iff.mp h
      have hkeeps := hread given content hgiven hcontent
      rw [hgiven]
      exact .kept hnull hkeeps

theorem takes_of_defaulted? {values : List α}
    (h : fields.defaulted? name [] (list? read?) = some values)
    (hread : ∀ given, fields.named.lookup name = some given → list? read? given = some values →
      keeps given (.array (values.map write))) :
    (Rule.unlessEmpty keeps).Takes (fields.named.lookup name) (listValue write values) := by
  rcases Fields.defaulted?_eq_some_iff.mp h with ⟨hlookup, rfl⟩ | ⟨given, hgiven, hvalues⟩
  · rw [hlookup]
    exact .missing
  · have hkeeps := hread given hgiven hvalues
    obtain ⟨elements, rfl, helements⟩ := forall₂_of_list? hvalues
    rw [hgiven]
    cases helements with
    | nil => exact .omitted rfl
    | cons hfirst hrest => exact .kept (by simp [Rule.unlessEmpty]) hkeeps

theorem eq_string_of_string? {given : Json} {text : String} (h : string? given = some text) :
    given = .string text := by
  cases given with
  | string found => exact congrArg Json.string (Option.some.inj h)
  | null => cases h
  | bool _ => cases h
  | integer _ => cases h
  | real _ => cases h
  | array _ => cases h
  | object _ => cases h

theorem takes_of_optional?_string {value : Option String}
    (h : fields.optional? name string? = some value) :
    (Rule.unlessNull Eq).Takes (fields.named.lookup name) (value.map .string) :=
  takes_of_optional? h fun _ _ _ => eq_string_of_string?

/-- The elements of an array are kept if each of them is. -/
theorem eachKept_of_forall₂ {elements : List Json} {values : List α}
    (hdistinct : DistinctElements elements)
    (h : List.Forall₂ (fun element content => read? element = some content) elements values)
    (hread : ∀ element content, element.Distinct → read? element = some content →
      keeps element (write content)) :
    EachKept keeps (.array elements) (.array (values.map write)) := by
  refine ⟨elements, _, rfl, rfl, ?_⟩
  induction h with
  | nil => exact .nil
  | cons hfirst _ ih => exact .cons (hread _ _ hdistinct.1 hfirst) (ih hdistinct.2)

theorem eachKept_of_list? {given : Json} {values : List α}
    (hread : ∀ element content, element.Distinct → read? element = some content →
      keeps element (write content))
    (hdistinct : given.Distinct) (h : list? read? given = some values) :
    EachKept keeps given (.array (values.map write)) := by
  obtain ⟨elements, rfl, helements⟩ := forall₂_of_list? h
  exact eachKept_of_forall₂ hdistinct helements hread

theorem oneOrEachKept_of_ofJson? {given : Json} {values : OneOrMany α}
    (hobject : ∀ content, ∃ members, write content = .object members)
    (hread : ∀ element content, element.Distinct → read? element = some content →
      keeps element (write content))
    (hdistinct : given.Distinct) (h : OneOrMany.ofJson? read? given = some values) :
    OneOrEachKept keeps given (values.toJson write) := by
  rcases OneOrMany.cases_of_ofJson? h with ⟨elements, listed, rfl, rfl, hlisted⟩ |
    ⟨single, hshape, rfl, hsingle⟩
  · exact Or.inl (eachKept_of_forall₂ hdistinct hlisted hread)
  · refine Or.inr ⟨hshape, fun again hagain => ?_, hread given single hdistinct hsingle⟩
    obtain ⟨members, hmembers⟩ := hobject single
    cases hmembers.symm.trans hagain

end Fields

end Json

open Json (Fields RecordKept EachKept OneOrEachKept)

/-! ## References -/

namespace Reference

/-- How the fields of a reference are written again. -/
def rules : List (String × Json.Rule) :=
  [("title", .verbatim), ("link", .unlessNull Eq), ("info", .unlessNull Eq),
    ("authors", .unlessEmpty (EachKept Eq)), ("refType", .unlessNull Eq)]

/-- Two objects that are the same as references. -/
def Kept : Json → Json → Prop := RecordKept rules

theorem kept_of_ofJson? {value : Json} {reference : Reference} (hdistinct : value.Distinct)
    (h : ofJson? value = some reference) : Kept value reference.toJson := by
  obtain ⟨fields, hfields, htitle, hlink, hinfo, hauthors, hrefType, hothers⟩ :=
    ofJson?_eq_some_iff.mp h
  obtain ⟨members, rfl, hmembers⟩ := Fields.exists_of_ofObject? hfields
  have hnamed {name : String} {given : Json} (hgiven : fields.named.lookup name = some given) :=
    hdistinct.named hmembers hgiven
  rw [toJson_eq_present, ← hothers]
  exact Json.recordKept_of_forall₂ hdistinct hmembers (by decide) rfl rfl <|
    .cons ⟨rfl, Json.takes_of_required? htitle fun _ _ => Json.eq_string_of_string?⟩ <|
    .cons ⟨rfl, Json.takes_of_optional?_string hlink⟩ <|
    .cons ⟨rfl, Json.takes_of_optional?_string hinfo⟩ <|
    .cons ⟨rfl, Json.takes_of_defaulted? hauthors fun _ hgiven =>
      Json.eachKept_of_list? (fun _ _ _ => Json.eq_string_of_string?) (hnamed hgiven)⟩ <|
    .cons ⟨rfl, Json.takes_of_optional?_string hrefType⟩ .nil

end Reference

/-! ## Labels -/

namespace Label

/-- How the fields of a label are written again. -/
def rules : List (String × Json.Rule) :=
  [("text", .unlessNull Eq), ("latexText", .unlessNull Eq), ("default", .unlessNull Eq),
    ("details", .unlessNull Eq), ("info", .unlessNull Eq),
    ("references", .unlessNull (EachKept Reference.Kept))]

/-- Two objects that are the same as labels. -/
def Kept : Json → Json → Prop := RecordKept rules

theorem kept_of_ofJson? {value : Json} {label : Label} (hdistinct : value.Distinct)
    (h : ofJson? value = some label) : Kept value label.toJson := by
  obtain ⟨fields, hfields, htext, hlatexText, hdefault, hdetails, hinfo, hreferences, hothers⟩ :=
    ofJson?_eq_some_iff.mp h
  obtain ⟨members, rfl, hmembers⟩ := Fields.exists_of_ofObject? hfields
  have hnamed {name : String} {given : Json} (hgiven : fields.named.lookup name = some given) :=
    hdistinct.named hmembers hgiven
  rw [toJson_eq_present, ← hothers]
  exact Json.recordKept_of_forall₂ hdistinct hmembers (by decide) rfl rfl <|
    .cons ⟨rfl, Json.takes_of_optional?_string htext⟩ <|
    .cons ⟨rfl, Json.takes_of_optional?_string hlatexText⟩ <|
    .cons ⟨rfl, Json.takes_of_optional? hdefault fun given _ hgiven hmerged =>
      (hnamed hgiven).merged_eq.symm.trans (Option.some.inj hmerged)⟩ <|
    .cons ⟨rfl, Json.takes_of_optional?_string hdetails⟩ <|
    .cons ⟨rfl, Json.takes_of_optional?_string hinfo⟩ <|
    .cons ⟨rfl, Json.takes_of_optional? hreferences fun _ _ hgiven =>
      Json.eachKept_of_list? (fun _ _ => Reference.kept_of_ofJson?) (hnamed hgiven)⟩ .nil

end Label

/-! ## Segments and arrows -/

namespace Segment

/-- How the field of a segment is written again. -/
def rules : List (String × Json.Rule) := [("text", .unlessNull (OneOrEachKept Label.Kept))]

/-- Two objects that are the same as segments. -/
def Kept : Json → Json → Prop := RecordKept rules

theorem kept_of_ofJson? {value : Json} {segment : Segment} (hdistinct : value.Distinct)
    (h : ofJson? value = some segment) : Kept value segment.toJson := by
  obtain ⟨fields, hfields, htext, hothers⟩ := ofJson?_eq_some_iff.mp h
  obtain ⟨members, rfl, hmembers⟩ := Fields.exists_of_ofObject? hfields
  rw [toJson_eq_present, ← hothers]
  exact Json.recordKept_of_forall₂ hdistinct hmembers (by decide) rfl rfl <|
    .cons ⟨rfl, Json.takes_of_optional? htext fun _ _ hgiven =>
      Json.oneOrEachKept_of_ofJson? Label.exists_toJson_eq (fun _ _ => Label.kept_of_ofJson?)
        (hdistinct.named hmembers hgiven)⟩ .nil

end Segment

namespace Arrow

/-- How the fields of an arrow are written again. -/
def rules : List (String × Json.Rule) :=
  [("previous", .unlessNull Eq), ("details", .unlessNull Eq),
    ("text", .unlessNull (OneOrEachKept Label.Kept)),
    ("segments", .unlessEmpty (EachKept Segment.Kept))]

/-- Two objects that are the same as arrows. -/
def Kept : Json → Json → Prop := RecordKept rules

theorem kept_of_ofJson? {value : Json} {arrow : Arrow} (hdistinct : value.Distinct)
    (h : ofJson? value = some arrow) : Kept value arrow.toJson := by
  obtain ⟨fields, hfields, hprevious, hdetails, htext, hsegments, hothers⟩ :=
    ofJson?_eq_some_iff.mp h
  obtain ⟨members, rfl, hmembers⟩ := Fields.exists_of_ofObject? hfields
  have hnamed {name : String} {given : Json} (hgiven : fields.named.lookup name = some given) :=
    hdistinct.named hmembers hgiven
  rw [toJson_eq_present, ← hothers]
  exact Json.recordKept_of_forall₂ hdistinct hmembers (by decide) rfl rfl <|
    .cons ⟨rfl, Json.takes_of_optional?_string hprevious⟩ <|
    .cons ⟨rfl, Json.takes_of_optional?_string hdetails⟩ <|
    .cons ⟨rfl, Json.takes_of_optional? htext fun _ _ hgiven =>
      Json.oneOrEachKept_of_ofJson? Label.exists_toJson_eq (fun _ _ => Label.kept_of_ofJson?)
        (hnamed hgiven)⟩ <|
    .cons ⟨rfl, Json.takes_of_defaulted? hsegments fun _ hgiven =>
      Json.eachKept_of_list? (fun _ _ => Segment.kept_of_ofJson?) (hnamed hgiven)⟩ .nil

end Arrow

/-! ## Items -/

namespace Item

/-- How the fields of an item are written again. -/
def rules : List (String × Json.Rule) :=
  [("shape", .unlessNull Eq), ("position", .unlessNull Eq), ("previous", .unlessNull Eq),
    ("details", .unlessNull Eq), ("info", .unlessNull Eq),
    ("arrow", .unlessNull (OneOrEachKept Arrow.Kept)),
    ("text", .unlessNull (OneOrEachKept Label.Kept)),
    ("references", .unlessNull (EachKept Reference.Kept))]

/-- Two objects that are the same as items. -/
def Kept : Json → Json → Prop := RecordKept rules

/-- An item is written as an object that is the same as an item as the one it was read from. -/
theorem kept_toJson_of_ofJson? {value : Json} {item : Item} (hdistinct : value.Distinct)
    (h : ofJson? value = some item) : Kept value item.toJson := by
  obtain ⟨fields, hfields, hshape, hposition, hprevious, hdetails, hinfo, harrow, htext,
    hreferences, hothers⟩ := ofJson?_eq_some_iff.mp h
  obtain ⟨members, rfl, hmembers⟩ := Fields.exists_of_ofObject? hfields
  have hnamed {name : String} {given : Json} (hgiven : fields.named.lookup name = some given) :=
    hdistinct.named hmembers hgiven
  rw [toJson_eq_present, ← hothers]
  exact Json.recordKept_of_forall₂ hdistinct hmembers (by decide) rfl rfl <|
    .cons ⟨rfl, Json.takes_of_optional?_string hshape⟩ <|
    .cons ⟨rfl, Json.takes_of_optional?_string hposition⟩ <|
    .cons ⟨rfl, Json.takes_of_optional?_string hprevious⟩ <|
    .cons ⟨rfl, Json.takes_of_optional?_string hdetails⟩ <|
    .cons ⟨rfl, Json.takes_of_optional?_string hinfo⟩ <|
    .cons ⟨rfl, Json.takes_of_optional? harrow fun _ _ hgiven =>
      Json.oneOrEachKept_of_ofJson? Arrow.exists_toJson_eq (fun _ _ => Arrow.kept_of_ofJson?)
        (hnamed hgiven)⟩ <|
    .cons ⟨rfl, Json.takes_of_optional? htext fun _ _ hgiven =>
      Json.oneOrEachKept_of_ofJson? Label.exists_toJson_eq (fun _ _ => Label.kept_of_ofJson?)
        (hnamed hgiven)⟩ <|
    .cons ⟨rfl, Json.takes_of_optional? hreferences fun _ _ hgiven =>
      Json.eachKept_of_list? (fun _ _ => Reference.kept_of_ofJson?) (hnamed hgiven)⟩ .nil

/-- An object whose arrow stands alone and has an empty list, with labels in a list, a field
that is `null` and other members in between. -/
def scatteredJson : Json :=
  .object [
    ("width", .integer 3),
    ("arrow", .object [("segments", .array []), ("dashed", .bool true)]),
    ("shape", .string "box"),
    ("text", .array [.object [("text", .string "A"), ("info", .null)]]),
    ("fill", .null)]

theorem kept_toJson_scatteredJson :
    scatteredJson.Distinct ∧ ∃ item, ofJson? scatteredJson = some item ∧
      Kept scatteredJson item.toJson := by
  have hdistinct : scatteredJson.Distinct := by
    simp [scatteredJson, Json.Distinct, Json.DistinctElements, Json.DistinctMembers, Entries.names]
  exact ⟨hdistinct, _, rfl, kept_toJson_of_ofJson? hdistinct rfl⟩

end Item

end ArchDiagram
