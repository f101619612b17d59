/-
# Properties filled in at once

A label is filled by one property after the other, so a value that was put in may be
searched for the placeholders of the next one. Filling at once cuts the text at the
placeholders first (`cut`) and then writes the values there (`fillAtOnce`), so that a value is
never searched. The two agree, in every order of the properties, if no placeholder comes about
on the way: whichever properties have been filled in, a placeholder of another one starts only
at a place where the text has it (`KeepsPlaces`). A single property keeps its places in every
text, and so do properties that have no braces and of which no value is a part of another's
name (`Plain`).
-/

import ArchDiagram.Placeholder
import ArchDiagram.Proofs.Entries
import ArchDiagram.Proofs.Text.Trimmed

namespace ArchDiagram

namespace Text

/-! ## Replacing a pattern -/

variable {pattern replacement first rest : List Char} {c : Char}

/-- A pattern starts in the first of two texts that stand one behind the other. -/
def StartsIn (pattern first rest : List Char) : Prop :=
  ∃ passed left, first = passed ++ left ∧ left ≠ [] ∧ pattern <+: left ++ rest

theorem StartsIn.of_front (hne : first ≠ []) (h : pattern <+: first ++ rest) :
    StartsIn pattern first rest :=
  ⟨[], first, rfl, hne, h⟩

theorem not_startsIn_nil : ¬StartsIn pattern [] rest := by
  rintro ⟨passed, left, hnil, hleft, -⟩
  exact hleft (List.append_eq_nil_iff.mp hnil.symm).2

theorem startsIn_cons_iff :
    StartsIn pattern (c :: first) rest ↔
      pattern <+: c :: (first ++ rest) ∨ StartsIn pattern first rest := by
  constructor
  · rintro ⟨passed, left, hsplit, hleft, hpattern⟩
    cases passed with
    | nil =>
        obtain rfl : left = c :: first := hsplit.symm
        exact Or.inl hpattern
    | cons d passed => exact Or.inr ⟨passed, left, (List.cons.inj hsplit).2, hleft, hpattern⟩
  · rintro (h | ⟨passed, left, rfl, hleft, hpattern⟩)
    · exact .of_front (List.cons_ne_nil _ _) h
    · exact ⟨c :: passed, left, rfl, hleft, hpattern⟩

theorem StartsIn.mem (h : StartsIn (c :: pattern) first rest) : c ∈ first := by
  obtain ⟨passed, left, rfl, hleft, hpattern⟩ := h
  obtain ⟨d, others, rfl⟩ := List.exists_cons_of_ne_nil hleft
  obtain rfl := (List.cons_prefix_cons.mp hpattern).1
  simp

/-- A part of two texts that has no character of the second one is a part of the first. -/
theorem infix_of_infix_append {part last : List Char} (hapart : ∀ c ∈ last, c ∉ part)
    (hne : part ≠ []) (h : part <:+: first ++ last) : part <:+: first := by
  obtain ⟨c, others, rfl⟩ := List.exists_cons_of_ne_nil hne
  rcases List.infix_append_iff.mp h with hfirst | hlast | ⟨front, back, hsplit, hfirst, hlast⟩
  · exact hfirst
  · exact absurd List.mem_cons_self (hapart c (hlast.subset List.mem_cons_self))
  · cases back with
    | nil =>
        rw [hsplit, List.append_nil]
        exact hfirst.isInfix
    | cons d back =>
        have hd := hapart d (hlast.subset List.mem_cons_self)
        simp [hsplit] at hd

theorem placeholder_ne_nil (name : List Char) : placeholder name ≠ [] :=
  List.cons_ne_nil _ _

/-- A text in which the pattern does not start is kept. -/
theorem replaceAll_append (h : ¬StartsIn pattern first rest) :
    replaceAll pattern replacement (first ++ rest) =
      first ++ replaceAll pattern replacement rest := by
  induction first with
  | nil => rfl
  | cons c first ih =>
      rw [startsIn_cons_iff, not_or] at h
      rw [List.cons_append, replaceAll, if_neg (by rw [List.isPrefixOf_iff_prefix]; exact h.1),
        ih h.2]
      rfl

/-- The pattern is replaced, and the search goes on behind it. -/
theorem replaceAll_pattern_append (hpattern : pattern ≠ []) :
    replaceAll pattern replacement (pattern ++ rest) =
      replacement ++ replaceAll pattern replacement rest := by
  obtain ⟨c, others, rfl⟩ := List.exists_cons_of_ne_nil hpattern
  rw [List.cons_append, replaceAll, if_pos (by simp [List.isPrefixOf_iff_prefix])]
  simp

end Text

namespace Label

/-! ## Places of properties -/

/-- A part of a text: a character, or the place of a property. -/
inductive Part
  | char (c : Char)
  | place (name : String) (value : Property)
deriving DecidableEq, Repr

/-- What a part reads once the properties of some names have been filled in. -/
def Part.text (filled : List String) : Part → List Char
  | .char c => [c]
  | .place name value =>
      if name ∈ filled then value.display.toList else Text.placeholder name.toList

/-- What a list of parts reads. -/
def spelled (filled : List String) (parts : List Part) : List Char :=
  parts.flatMap (Part.text filled)

/-- Cut a text from the left at the placeholders of the properties that are asked for. -/
def cut (asked : Entries Property) : List Char → List Part
  | [] => []
  | c :: rest =>
      match asked.find? fun entry => (Text.placeholder entry.1.toList).isPrefixOf (c :: rest) with
      | some entry =>
          .place entry.1 entry.2 :: cut asked (rest.drop (entry.1.toList.length + 3))
      | none => .char c :: cut asked rest
termination_by text => text.length
decreasing_by
  · simp only [List.length_drop, List.length_cons]; omega
  · simp

/-- Fill in all properties at once: the values stand where the text has the placeholders. -/
def fillAtOnce (asked : Entries Property) (text : List Char) : List Char :=
  spelled (Entries.names asked) (cut asked text)

variable {asked order : Entries Property} {filled : List String} {parts before after : List Part}
  {part : Part} {name : String} {value : Property} {text : List Char}

theorem length_placeholder (name : List Char) :
    (Text.placeholder name).length = name.length + 4 := by
  simp [Text.placeholder]

/-- A text that is not empty starts with a placeholder at which it is cut, or with a character
at which no placeholder starts. -/
theorem cut_cases (asked : Entries Property) (c : Char) (rest : List Char) :
    (∃ entry ∈ asked, ∃ behind, c :: rest = Text.placeholder entry.1.toList ++ behind ∧
      cut asked (c :: rest) = .place entry.1 entry.2 :: cut asked behind) ∨
    ((∀ entry ∈ asked, ¬Text.placeholder entry.1.toList <+: c :: rest) ∧
      cut asked (c :: rest) = .char c :: cut asked rest) := by
  rw [cut]
  split
  · rename_i entry hentry
    have hfront := List.find?_some hentry
    obtain ⟨behind, hbehind⟩ := List.isPrefixOf_iff_prefix.mp hfront
    refine Or.inl ⟨entry, List.mem_of_find?_eq_some hentry, behind, hbehind.symm, ?_⟩
    have hdrop : rest.drop (entry.1.toList.length + 3) = behind := by
      have hlength := congrArg (List.drop (entry.1.toList.length + 4)) hbehind
      rw [← length_placeholder, List.drop_left, length_placeholder] at hlength
      exact hlength.symm
    rw [hdrop]
  · rename_i hnone
    refine Or.inr ⟨fun entry hentry hfront => ?_, rfl⟩
    exact List.find?_eq_none.mp hnone entry hentry (List.isPrefixOf_iff_prefix.mpr hfront)

/-- The parts of a text: nothing, or a place and the parts behind it, or a character at which no
placeholder starts and the parts behind it. -/
theorem cut_induction (asked : Entries Property) {motive : List Char → List Part → Prop}
    (nil : motive [] [])
    (place : ∀ entry ∈ asked, ∀ behind, motive behind (cut asked behind) →
      motive (Text.placeholder entry.1.toList ++ behind)
        (.place entry.1 entry.2 :: cut asked behind))
    (char : ∀ c rest, (∀ entry ∈ asked, ¬Text.placeholder entry.1.toList <+: c :: rest) →
      motive rest (cut asked rest) → motive (c :: rest) (.char c :: cut asked rest))
    (text : List Char) : motive text (cut asked text) := by
  induction hlength : text.length using Nat.strong_induction_on generalizing text with
  | _ length ih =>
      cases text with
      | nil =>
          rw [cut]
          exact nil
      | cons c rest =>
          rcases cut_cases asked c rest with ⟨entry, hentry, behind, htext, hcut⟩ | ⟨hnone, hcut⟩
          · have hshorter : behind.length < length := by
              rw [← hlength, htext, List.length_append, length_placeholder]
              omega
            rw [hcut, htext]
            exact place entry hentry behind (ih _ hshorter behind rfl)
          · have hshorter : rest.length < length := by
              rw [← hlength, List.length_cons]
              omega
            rw [hcut]
            exact char c rest hnone (ih _ hshorter rest rfl)

theorem spelled_cons (part : Part) (parts : List Part) :
    spelled filled (part :: parts) = part.text filled ++ spelled filled parts :=
  List.flatMap_cons

/-- Nothing is lost by cutting. -/
theorem spelled_cut (asked : Entries Property) (text : List Char) :
    spelled [] (cut asked text) = text := by
  induction text using cut_induction asked with
  | nil => rfl
  | place entry _ behind ih => rw [spelled_cons, ih, Part.text, if_neg List.not_mem_nil]
  | char c rest _ ih => rw [spelled_cons, ih, Part.text, List.singleton_append]

theorem mem_of_place_mem_cut (h : .place name value ∈ cut asked text) : (name, value) ∈ asked := by
  induction text using cut_induction asked with
  | nil => cases h
  | place entry hentry behind ih =>
      rcases List.mem_cons.mp h with heq | h
      · obtain ⟨rfl, rfl⟩ := Part.place.inj heq
        exact hentry
      · exact ih h
  | char c rest _ ih => exact ih ((List.mem_cons.mp h).resolve_left nofun)

/-- No placeholder starts at a character of the text that is cut. -/
theorem not_prefix_of_cut {c : Char} (h : cut asked text = before ++ .char c :: after)
    {entry : String × Property} (hentry : entry ∈ asked) :
    ¬Text.placeholder entry.1.toList <+: c :: spelled [] after := by
  induction text using cut_induction asked generalizing before with
  | nil => simp at h
  | place other _ behind ih =>
      cases before with
      | nil => cases (List.cons.inj h).1
      | cons first before => exact ih (List.cons.inj h).2
  | char d rest hnone ih =>
      cases before with
      | nil =>
          obtain ⟨hd, rfl⟩ := List.cons.inj h
          obtain rfl := Part.char.inj hd
          rw [spelled_cut]
          exact hnone entry hentry
      | cons first before => exact ih (List.cons.inj h).2

/-! ## One property after the other -/

theorem spelled_congr {filled' : List String} (h : ∀ name, name ∈ filled ↔ name ∈ filled')
    (parts : List Part) : spelled filled parts = spelled filled' parts := by
  refine List.flatMap_congr fun part _ => ?_
  cases part with
  | char c => rfl
  | place name value => simp only [Part.text, h]

/-- The placeholder of a property starts only at its places once others have been filled in. -/
def OnlyAtPlaces (filled : List String) (name : String) (parts : List Part) : Prop :=
  ∀ before part after, parts = before ++ part :: after → (∀ value, part ≠ .place name value) →
    ¬Text.StartsIn (Text.placeholder name.toList) (part.text filled) (spelled filled after)

/-- Whichever properties have been filled in, the placeholder of another one starts only at a
place where the text has it. -/
def KeepsPlaces (asked : Entries Property) (text : List Char) : Prop :=
  ∀ (filled : List String) (name : String), name ∈ Entries.names asked → name ∉ filled →
    OnlyAtPlaces filled name (cut asked text)

theorem OnlyAtPlaces.tail (h : OnlyAtPlaces filled name (part :: parts)) :
    OnlyAtPlaces filled name parts :=
  fun before other after hparts => h (part :: before) other after (by rw [hparts]; rfl)

/-- To fill in a property is to write its value at its places. -/
theorem fillProperty_spelled (hnew : name ∉ filled)
    (hvalue : ∀ other, .place name other ∈ parts → other = value)
    (hplaces : OnlyAtPlaces filled name parts) :
    fillProperty (spelled filled parts) name value = spelled (name :: filled) parts := by
  induction parts with
  | nil => simp [spelled, fillProperty, Text.replaceAll]
  | cons part parts ih =>
      have hrest := ih (fun other hother => hvalue other (List.mem_cons_of_mem _ hother))
        hplaces.tail
      rw [fillProperty] at hrest ⊢
      rw [spelled_cons, spelled_cons]
      by_cases hpart : ∃ other, part = .place name other
      · obtain ⟨other, rfl⟩ := hpart
        obtain rfl := hvalue other List.mem_cons_self
        rw [Part.text, if_neg hnew, Part.text, if_pos List.mem_cons_self,
          Text.replaceAll_pattern_append (Text.placeholder_ne_nil _), hrest]
      · have hother : ∀ other, part ≠ .place name other := not_exists.mp hpart
        have hkept : part.text (name :: filled) = part.text filled := by
          cases part with
          | char c => rfl
          | place other value =>
              have hne : other ≠ name := by
                rintro rfl
                exact hother value rfl
              simp [Part.text, hne]
        rw [Text.replaceAll_append (hplaces [] part parts rfl hother), hrest, hkept]

/-- Properties that are filled in one after the other stand at their places in the end. -/
theorem foldl_fillProperty (order : Entries Property) (filled : List String)
    (hnodup : (Entries.names asked).Nodup) (hkeeps : KeepsPlaces asked text)
    (hsubset : ∀ entry ∈ order, entry ∈ asked) (hnew : (Entries.names order ++ filled).Nodup) :
    order.foldl (fun text entry => fillProperty text entry.1 entry.2)
        (spelled filled (cut asked text)) =
      spelled (Entries.names order ++ filled) (cut asked text) := by
  induction order generalizing filled with
  | nil => rfl
  | cons entry order ih =>
      obtain ⟨name, value⟩ := entry
      have hmem := hsubset _ List.mem_cons_self
      have hfilled : name ∉ filled := fun h =>
        (List.nodup_append.mp hnew).2.2 name (by simp [Entries.names]) name h rfl
      have hvalue (other : Property) (hother : .place name other ∈ cut asked text) :
          other = value := by
        have hfound := (Entries.lookup_eq_some_iff_mem hnodup).mpr (mem_of_place_mem_cut hother)
        have hlookup := (Entries.lookup_eq_some_iff_mem hnodup).mpr hmem
        exact Option.some.inj (hfound.symm.trans hlookup)
      have hstep := fillProperty_spelled hfilled hvalue
        (hkeeps filled name (List.mem_map_of_mem hmem) hfilled)
      have hmiddle : (Entries.names order ++ name :: filled).Nodup :=
        (List.perm_middle.nodup_iff).mpr hnew
      rw [List.foldl_cons, hstep,
        ih (name :: filled) (fun entry h => hsubset entry (List.mem_cons_of_mem _ h)) hmiddle]
      exact spelled_congr (fun other => List.perm_middle.mem_iff) _

theorem foldl_fillProperty_eq_fillAtOnce (hnodup : (Entries.names asked).Nodup)
    (hperm : asked.Perm order) (hkeeps : KeepsPlaces asked text) :
    order.foldl (fun text entry => fillProperty text entry.1 entry.2) text =
      fillAtOnce asked text := by
  have hnames : (Entries.names asked).Perm (Entries.names order) := hperm.map Prod.fst
  have hfold := foldl_fillProperty order [] hnodup hkeeps
    (fun entry h => hperm.mem_iff.mpr h) (by simpa using hnames.nodup_iff.mp hnodup)
  rw [spelled_cut] at hfold
  rw [hfold, fillAtOnce]
  exact spelled_congr (fun name => by rw [List.append_nil, hnames.mem_iff]) _

/-! ## Properties that keep their places -/

theorem spelled_of_unfilled (h : ∀ name value, .place name value ∈ parts → name ∉ filled) :
    spelled filled parts = spelled [] parts := by
  refine List.flatMap_congr fun part hpart => ?_
  cases part with
  | char c => rfl
  | place name value => simp [Part.text, h name value hpart]

/-- A single property keeps its places in every text. -/
theorem keepsPlaces_singleton (name : String) (value : Property) (text : List Char) :
    KeepsPlaces [(name, value)] text := by
  intro filled other hname hnew before part after hcut hpart hstarts
  obtain rfl : other = name := List.mem_singleton.mp hname
  have hplace (found : String) (value' : Property)
      (h : .place found value' ∈ cut [(other, value)] text) : found = other :=
    (Prod.mk.inj (List.mem_singleton.mp (mem_of_place_mem_cut h))).1
  cases part with
  | char c =>
      -- nothing has been filled in
      have hspelled : spelled filled after = spelled [] after :=
        spelled_of_unfilled fun found value' h => by
          rw [hplace found value' (by simp [hcut, h])]
          exact hnew
      rw [Part.text, hspelled, Text.startsIn_cons_iff] at hstarts
      exact not_prefix_of_cut hcut List.mem_cons_self (hstarts.resolve_right Text.not_startsIn_nil)
  | place found value' =>
      obtain rfl := hplace found value' (by simp [hcut])
      exact hpart value' rfl

/-- Properties without braces, of which no value is empty or a part of another's name. -/
structure Plain (asked : Entries Property) : Prop where
  name : ∀ entry ∈ asked, '{' ∉ entry.1.toList ∧ '}' ∉ entry.1.toList
  value : ∀ entry ∈ asked, '{' ∉ entry.2.display.toList ∧ '}' ∉ entry.2.display.toList
  value_ne : ∀ entry ∈ asked, entry.2.display.toList ≠ []
  value_name : ∀ entry ∈ asked, ∀ other ∈ asked, other.1 ≠ entry.1 →
    ¬entry.2.display.toList <:+: other.1.toList

namespace Plain

theorem notMem_closed (h : Plain asked) (hvalue : (name, value) ∈ asked) :
    '{' ∉ name.toList ++ ['}', '}'] := by
  simp [(h.name _ hvalue).1]

/-- Behind the opening braces of a placeholder no value has been filled in. -/
theorem prefix_spelled (h : Plain asked) (hvalue : (name, value) ∈ asked) (hnew : name ∉ filled)
    (hparts : ∀ other found, .place other found ∈ parts → (other, found) ∈ asked)
    {left : List Char} (hleft : left <:+ name.toList ++ ['}', '}'])
    (hfront : left <+: spelled filled parts) : left <+: spelled [] parts := by
  induction parts generalizing left with
  | nil => exact hfront
  | cons part parts ih =>
      by_cases hne : left = []
      · rw [hne]
        exact List.nil_prefix
      obtain ⟨c, rest, rfl⟩ := List.exists_cons_of_ne_nil hne
      rw [spelled_cons] at hfront ⊢
      cases part with
      | char d =>
          obtain ⟨rfl, hrest⟩ := List.cons_prefix_cons.mp hfront
          have htail := ih (fun other found h => hparts other found (List.mem_cons_of_mem _ h))
            ((List.suffix_cons c rest).trans hleft) hrest
          exact List.cons_prefix_cons.mpr ⟨rfl, htail⟩
      | place other found =>
          have hfound := hparts other found List.mem_cons_self
          by_cases hfilled : other ∈ filled
          · rw [Part.text, if_pos hfilled] at hfront
            have hother : name ≠ other := fun heq => hnew (heq ▸ hfilled)
            rcases List.prefix_or_prefix_of_prefix hfront (List.prefix_append _ _) with hin | hin
            · -- the value would have the closing braces
              obtain hnil | ⟨front, hlast, -⟩ := List.suffix_concat_iff.mp
                (show c :: rest <:+ (name.toList ++ ['}']) ++ ['}'] by simpa using hleft)
              · exact absurd hnil hne
              · exact absurd (hin.subset (by simp [hlast])) (h.value _ hfound).2
            · -- the value would be a part of the name
              refine absurd (Text.infix_of_infix_append ?_ (h.value_ne _ hfound)
                (hin.isInfix.trans hleft.isInfix)) (h.value_name _ hfound _ hvalue hother)
              simpa using (h.value _ hfound).2
          · rw [Part.text, if_neg hfilled] at hfront
            have hc : c = '{' := (List.cons_prefix_cons.mp hfront).1
            exact absurd (hleft.subset (hc ▸ List.mem_cons_self)) (h.notMem_closed hvalue)

theorem notMem_value (h : Plain asked) {entry : String × Property} (hentry : entry ∈ asked)
    (pattern rest : List Char) :
    ¬Text.StartsIn ('{' :: pattern) entry.2.display.toList rest :=
  fun hstarts => (h.value _ hentry).1 hstarts.mem

/-- A placeholder starts at no character. -/
theorem not_prefix_cons_spelled (h : Plain asked) {c : Char}
    (hcut : cut asked text = before ++ .char c :: after) (hvalue : (name, value) ∈ asked)
    (hnew : name ∉ filled) : ¬Text.placeholder name.toList <+: c :: spelled filled after := by
  intro hplaceholder
  have hparts (other : String) (found : Property) (hmem : .place other found ∈ after) :
      (other, found) ∈ asked := mem_of_place_mem_cut (by rw [hcut]; simp [hmem])
  obtain ⟨hc, hsecond⟩ := List.cons_prefix_cons.mp hplaceholder
  refine not_prefix_of_cut hcut hvalue (List.cons_prefix_cons.mpr ⟨hc, ?_⟩)
  cases after with
  | nil => exact hsecond
  | cons second after =>
      rw [spelled_cons] at hsecond ⊢
      cases second with
      | char d =>
          obtain ⟨hd, hname⟩ := List.cons_prefix_cons.mp hsecond
          exact List.cons_prefix_cons.mpr ⟨hd, h.prefix_spelled hvalue hnew
            (fun other found hmem => hparts other found (List.mem_cons_of_mem _ hmem))
            List.suffix_rfl hname⟩
      | place other found =>
          have hfound := hparts other found List.mem_cons_self
          by_cases hfilled : other ∈ filled
          · rw [Part.text, if_pos hfilled] at hsecond
            exact absurd (.of_front (h.value_ne _ hfound) hsecond) (h.notMem_value hfound _ _)
          · -- two opening braces would follow the first one
            rw [Part.text, if_neg hfilled] at hsecond
            have hname := (List.cons_prefix_cons.mp hsecond).2
            have hnone := h.notMem_closed hvalue
            obtain ⟨e, rest, hclosed⟩ :=
              List.exists_cons_of_ne_nil (show name.toList ++ ['}', '}'] ≠ [] by simp)
            rw [hclosed] at hname hnone
            have he : e = '{' := (List.cons_prefix_cons.mp hname).1
            exact absurd (he ▸ List.mem_cons_self) hnone

/-- A placeholder starts at no other. -/
theorem eq_of_startsIn_placeholder (h : Plain asked) {other : String} {found : Property}
    (hvalue : (name, value) ∈ asked) (hfound : (other, found) ∈ asked) {rest : List Char}
    (hstarts : Text.StartsIn (Text.placeholder name.toList) (Text.placeholder other.toList) rest) :
    name = other := by
  have hclosed : other.toList ++ ['}', '}'] ≠ [] := by simp
  rcases Text.startsIn_cons_iff.mp hstarts with hfront | hstarts
  · obtain ⟨behind, hbehind⟩ := hfront
    have hsplit := congrArg (Text.splitFirst '}') (List.cons.inj (List.cons.inj hbehind).2).2
    simp only [List.append_assoc, List.cons_append, List.append_eq,
      Text.splitFirst_append_cons (h.name _ hvalue).2,
      Text.splitFirst_append_cons (h.name _ hfound).2, Option.some.injEq, Prod.mk.injEq] at hsplit
    exact String.toList_inj.mp hsplit.1
  -- behind its opening braces the other one has none
  · rcases Text.startsIn_cons_iff.mp hstarts with hfront | hstarts
    · obtain ⟨-, hfront⟩ := List.cons_prefix_cons.mp hfront
      exact absurd (Text.StartsIn.of_front hclosed hfront).mem (h.notMem_closed hfound)
    · exact absurd hstarts.mem (h.notMem_closed hfound)

/-- Plain properties keep their places in every text. -/
theorem keepsPlaces (h : Plain asked) (text : List Char) : KeepsPlaces asked text := by
  intro filled name hname hnew before part after hcut hpart hstarts
  obtain ⟨⟨name, value⟩, hvalue, rfl⟩ := List.mem_map.mp hname
  cases part with
  | char c =>
      rcases Text.startsIn_cons_iff.mp hstarts with hfront | hstarts
      · exact h.not_prefix_cons_spelled hcut hvalue hnew hfront
      · exact Text.not_startsIn_nil hstarts
  | place other found =>
      have hfound : (other, found) ∈ asked := mem_of_place_mem_cut (by rw [hcut]; simp)
      by_cases hfilled : other ∈ filled
      · rw [Part.text, if_pos hfilled] at hstarts
        exact h.notMem_value hfound _ _ hstarts
      · rw [Part.text, if_neg hfilled] at hstarts
        obtain rfl := h.eq_of_startsIn_placeholder hvalue hfound hstarts
        exact hpart found rfl

end Plain

/-! ## Labels -/

/-- The text of a label in which placeholders are filled. -/
def target? (label : Label) : Option String :=
  label.latexText.or label.text

variable {label : Label} {properties properties' : Entries Property}

theorem mapTarget_congr {f g : List Char → List Char}
    (h : ∀ text ∈ label.target?, f text.toList = g text.toList) :
    label.mapTarget f = label.mapTarget g := by
  rw [mapTarget, mapTarget]
  cases hlatex : label.latexText with
  | some latex => simp only [h latex (by simp [target?, hlatex])]
  | none =>
      cases htext : label.text with
      | some text => simp only [Option.map_some, h text (by simp [target?, hlatex, htext])]
      | none => rfl

theorem mapTarget_id (label : Label) : label.mapTarget id = label := by
  obtain ⟨text, latexText, default, details, info, references, others⟩ := label
  cases latexText <;> cases text <;> simp [mapTarget]

theorem fill_of_asked_eq_nil (h : label.asked properties = []) :
    label.fill properties = label.fill [] := by
  have hnil : label.asked [] = [] := rfl
  rw [fill, fill, h, hnil]

/-- Unless the default counts, the properties are filled in one after the other. -/
theorem fill_eq_foldl (h : label.asked properties ≠ [] ∨ label.default = none) :
    label.fill properties = label.mapTarget
      ((label.asked properties).foldl fun text entry => fillProperty text entry.1 entry.2) := by
  rw [fill]
  split
  · rename_i hasked _
    rw [hasked]
    exact (mapTarget_id label).symm
  · rename_i hasked hdefault
    rcases h with h | h
    · exact absurd hasked h
    · cases hdefault.symm.trans h
  · rfl

/-- If the properties that a label asks for keep their places in its text, they are filled in at
once, and their order makes no difference. -/
theorem fill_eq_fillAtOnce (label : Label) (properties properties' : Entries Property)
    (hnodup : (Entries.names properties).Nodup) (hperm : properties.Perm properties')
    (hkeeps : ∀ text ∈ label.target?, KeepsPlaces (label.asked properties) text.toList) :
    label.fill properties' = label.fill properties ∧
      (label.asked properties ≠ [] ∨ label.default = none →
        label.fill properties = label.mapTarget (fillAtOnce (label.asked properties))) := by
  have hasked : (label.asked properties).Perm (label.asked properties') := hperm.filter _
  have hnames : (Entries.names (label.asked properties)).Nodup :=
    hnodup.sublist ((List.filter_sublist).map Prod.fst)
  have hfolds (order : Entries Property) (horder : (label.asked properties).Perm order) :
      label.mapTarget (order.foldl fun text entry => fillProperty text entry.1 entry.2) =
        label.mapTarget (fillAtOnce (label.asked properties)) :=
    mapTarget_congr fun text htext =>
      foldl_fillProperty_eq_fillAtOnce hnames horder (hkeeps text htext)
  by_cases hcounts : label.asked properties ≠ [] ∨ label.default = none
  · have hcounts' : label.asked properties' ≠ [] ∨ label.default = none :=
      hcounts.imp_left fun hne hnil => hne (hnil ▸ hasked).eq_nil
    have hfill := (fill_eq_foldl hcounts).trans (hfolds _ (.refl _))
    exact ⟨((fill_eq_foldl hcounts').trans (hfolds _ hasked)).trans hfill.symm, fun _ => hfill⟩
  · -- the default does not depend on the properties
    have hnil : label.asked properties = [] := by
      by_contra hne
      exact hcounts (Or.inl hne)
    have hnil' : label.asked properties' = [] := (hnil ▸ hasked).nil_eq.symm
    exact ⟨(fill_of_asked_eq_nil hnil').trans (fill_of_asked_eq_nil hnil).symm,
      fun h => absurd h hcounts⟩

/-- A label with places for two properties. -/
def twoPlaces : Label where
  text := some (String.ofList
    (Text.placeholder "layers".toList ++ " x ".toList ++ Text.placeholder "heads".toList))
  latexText := none
  default := none
  details := none
  info := none
  references := none
  others := [("layers", .bool true), ("heads", .bool true)]

def sizes : Entries Property := [("layers", .integer 32), ("heads", .text "8")]

theorem plain_sizes : Plain (twoPlaces.asked sizes) where
  name := by decide +kernel
  value := by decide +kernel
  value_ne := by decide +kernel
  value_name := by decide +kernel

theorem fill_eq_fillAtOnce_sizes :
    ((Entries.names sizes).Nodup ∧ sizes.Perm sizes.reverse ∧
      ∀ text ∈ twoPlaces.target?, KeepsPlaces (twoPlaces.asked sizes) text.toList) ∧
    twoPlaces.fill sizes.reverse = twoPlaces.fill sizes ∧
    twoPlaces.fill sizes = twoPlaces.mapTarget (fillAtOnce sizes) ∧
    (twoPlaces.fill sizes).text = some "32 x 8" := by
  have hnodup : (Entries.names sizes).Nodup := by decide
  have hperm : sizes.Perm sizes.reverse := (List.reverse_perm sizes).symm
  have hkeeps : ∀ text ∈ twoPlaces.target?, KeepsPlaces (twoPlaces.asked sizes) text.toList :=
    fun text _ => plain_sizes.keepsPlaces text.toList
  obtain ⟨hreverse, hfill⟩ := fill_eq_fillAtOnce twoPlaces sizes sizes.reverse hnodup hperm hkeeps
  exact ⟨⟨hnodup, hperm, hkeeps⟩, hreverse, hfill (Or.inr rfl), by decide +kernel⟩

/-- A value that is the placeholder of the next property is filled in its turn, and without a
property the default stands for all placeholders. -/
theorem not_forall_fill_eq :
    (¬∀ (label : Label) (properties properties' : Entries Property),
      (Entries.names properties).Nodup → properties.Perm properties' →
        label.fill properties = label.fill properties') ∧
    ¬∀ label : Label, label.fill [] = label := by
  constructor
  · intro h
    have heq := h { twoPlaces with text := some (String.ofList (Text.placeholder "layers".toList)) }
      [("layers", .text (String.ofList (Text.placeholder "heads".toList))), ("heads", .text "8")]
      [("heads", .text "8"), ("layers", .text (String.ofList (Text.placeholder "heads".toList)))]
      (by decide) (.swap _ _ _)
    exact absurd heq (by decide +kernel)
  · intro h
    exact absurd (h { twoPlaces with default := some (.string "N") }) (by decide +kernel)

end Label

end ArchDiagram
