/-
# Texts made of tokens

A text is written as some tokens if it is cut into them wherever it stands, that is,
whatever follows it and however that is cut (`Writes`). Such texts can be put behind each
other, with blanks between them, as long as what stands behind a number does not belong to
it. Strings are among them because every escape is read as the character it stands for.
-/

import ArchDiagram.Proofs.Json.Numbers

namespace ArchDiagram.Json

/-- A text is cut into some tokens, with as many steps as it has characters. -/
def Scans (text : List Char) (tokens : List Token) : Prop :=
  ∀ steps read, text.length ≤ steps →
    Token.scan? steps read text = some (read.reverse ++ tokens)

section Scanning

variable {c : Char} {text after : List Char} {token : Token} {tokens : List Token}

theorem scans_nil : Scans [] [] := by
  intro steps read _
  rw [List.append_nil, Token.scan?]
  rfl

theorem Scans.blank (hc : Token.isBlank c = true) (h : Scans text tokens) :
    Scans (c :: text) tokens := by
  intro steps read hsteps
  have hdrop : (c :: text).dropWhile Token.isBlank = text.dropWhile Token.isBlank := by
    rw [List.dropWhile_cons, if_pos hc]
  rw [Token.scan?, hdrop, ← Token.scan?]
  exact h steps read (Nat.le_of_succ_le hsteps)

theorem Scans.cons (hc : Token.isBlank c = false)
    (hnext : Token.next? (c :: text) = some (token, after)) (hle : after.length ≤ text.length)
    (h : Scans after tokens) : Scans (c :: text) (token :: tokens) := by
  intro steps read hsteps
  obtain ⟨steps, rfl⟩ := Nat.exists_eq_add_of_lt (Nat.lt_of_lt_of_le (Nat.succ_pos _) hsteps)
  have hrest := h (0 + steps) (token :: read) (by simp at hsteps; omega)
  rw [Token.scan?, List.dropWhile_cons, if_neg (by simp [hc])]
  simp only [hnext]
  rw [hrest]
  simp

end Scanning

/-- A text is cut into some tokens whatever follows it, unless that belongs to a number. -/
def Writes (text : List Char) (tokens : List Token) : Prop :=
  ∀ rest following, Ends rest → Scans rest following → Scans (text ++ rest) (tokens ++ following)

namespace Writes

variable {c : Char} {text first second : List Char} {token : Token}
  {tokens tokens' : List Token}

theorem all? (h : Writes text tokens) : Token.all? text = some tokens := by
  have hscan := h [] [] ends_nil scans_nil text.length [] (by simp)
  simpa [Token.all?] using hscan

theorem nil : Writes [] [] := fun _ _ _ hrest => hrest

theorem append (hfirst : Writes first tokens) (hends : Ends second)
    (hsecond : Writes second tokens') : Writes (first ++ second) (tokens ++ tokens') := by
  intro rest following hrest hscans
  rw [List.append_assoc, List.append_assoc]
  exact hfirst _ _ (hends.append hrest) (hsecond rest following hrest hscans)

theorem blank (hc : Token.isBlank c = true) (h : Writes text tokens) : Writes (c :: text) tokens :=
  fun rest following hrest hscans => (h rest following hrest hscans).blank hc

theorem blanks {spaces : List Char} (hspaces : ∀ c ∈ spaces, Token.isBlank c = true)
    (h : Writes text tokens) : Writes (spaces ++ text) tokens := by
  induction spaces with
  | nil => exact h
  | cons c rest ih =>
      rw [List.forall_mem_cons] at hspaces
      exact (ih hspaces.2).blank hspaces.1

/-- A character that is a token by itself. -/
theorem cons (hc : Token.isBlank c = false)
    (hnext : ∀ rest, Token.next? (c :: rest) = some (token, rest)) (h : Writes text tokens) :
    Writes (c :: text) (token :: tokens) :=
  fun rest following hrest hscans =>
    .cons hc (hnext (text ++ rest)) le_rfl (h rest following hrest hscans)

/-- A text that is one token. -/
theorem single (hc : Token.isBlank c = false)
    (hnext : ∀ rest, Ends rest → Token.next? (c :: (text ++ rest)) = some (token, rest)) :
    Writes (c :: text) [token] :=
  fun rest _ hrest hscans => .cons hc (hnext rest hrest) (by simp) hscans

theorem openArray (h : Writes text tokens) : Writes ('[' :: text) (.openArray :: tokens) :=
  h.cons rfl fun _ => rfl

theorem closeArray (h : Writes text tokens) : Writes (']' :: text) (.closeArray :: tokens) :=
  h.cons rfl fun _ => rfl

theorem openObject (h : Writes text tokens) : Writes ('{' :: text) (.openObject :: tokens) :=
  h.cons rfl fun _ => rfl

theorem closeObject (h : Writes text tokens) : Writes ('}' :: text) (.closeObject :: tokens) :=
  h.cons rfl fun _ => rfl

theorem comma (h : Writes text tokens) : Writes (',' :: text) (.comma :: tokens) :=
  h.cons rfl fun _ => rfl

theorem colon (h : Writes text tokens) : Writes (':' :: text) (.colon :: tokens) :=
  h.cons rfl fun _ => rfl

/-- Parts with commas between them, and what stands behind the last one. -/
theorem intercalate {texts : List (List Char)} {parts : List (List Token)}
    (hparts : List.Forall₂ Writes texts parts) (hends : Ends text) (h : Writes text tokens) :
    Writes ([','].intercalate texts ++ text) ([Token.comma].intercalate parts ++ tokens) := by
  induction hparts with
  | nil => exact h
  | @cons first part texts parts hfirst hrest ih =>
      cases hrest with
      -- what stands behind the last part has to end it, a comma ends every other one
      | nil => simpa using hfirst.append hends h
      | @cons second part' texts parts hsecond hrest =>
          rw [List.intercalate_cons_cons, List.intercalate_cons_cons, List.append_assoc,
            List.append_assoc, List.append_assoc, List.append_assoc]
          exact hfirst.append (ends_cons (by decide) _) ih.comma

end Writes

/-! ## Scalars -/

theorem writes_null : Writes ("null" : String).toList [.null] := .single rfl fun _ _ => rfl

theorem writes_bool (value : Bool) :
    Writes (scalarText (.bool value)).toList [.bool value] := by
  cases value with
  | false => exact .single rfl fun _ _ => rfl
  | true => exact .single rfl fun _ _ => rfl

theorem isBlank_of_isDigit {c : Char} (h : c.isDigit = true) : Token.isBlank c = false := by
  rw [Token.isBlank]
  simp only [Bool.or_eq_false_iff, beq_eq_false_iff_ne]
  refine ⟨⟨⟨?_, ?_⟩, ?_⟩, ?_⟩ <;> rintro rfl <;> exact absurd h (by decide)

/-- A numeral with its sign is one token. -/
theorem writes_numeral {numeral : Numeral} (h : numeral.Valid) :
    Writes (Numeral.signText numeral.negative ++ numeral.spelling) [.number numeral] := by
  -- it begins with the sign or with a digit, and neither is blank
  obtain ⟨first, others, htext⟩ : ∃ first others,
      Numeral.signText numeral.negative ++ numeral.spelling = first :: others ∧
        Token.isBlank first = false := by
    cases hnegative : numeral.negative with
    | true => exact ⟨'-', numeral.spelling, rfl, rfl⟩
    | false =>
        obtain ⟨first, others, hwhole⟩ := List.exists_cons_of_ne_nil h.whole.ne
        refine ⟨first, others ++ Numeral.tailText numeral.fraction numeral.power, ?_, ?_⟩
        · simp [Numeral.signText, Numeral.spelling, hwhole]
        · exact isBlank_of_isDigit (h.whole.isDigit first (by rw [hwhole]; simp))
  rw [htext.1]
  refine .single htext.2 fun rest hrest => ?_
  have hread := Numeral.next?_spelling h hrest
  rwa [← List.append_assoc, htext.1] at hread

theorem writes_integer (value : ℤ) :
    Writes (scalarText (.integer value)).toList [.number (Numeral.ofInt value)] := by
  rw [scalarText, ← Numeral.spelling_ofInt]
  exact writes_numeral (Numeral.valid_ofInt value)

theorem writes_real {x : Binary64} (hfinite : x.isInfinite = false) :
    Writes (scalarText (.real x)).toList [.number (Numeral.ofReal x)] := by
  rw [scalarText, ← Numeral.spelling_ofReal hfinite]
  exact writes_numeral (Numeral.ofReal_spec hfinite).2.valid

/-! ## Strings -/

/-- How a character of a string is read: control characters without a letter of their own
are written by their code. -/
def pieceOf (c : Char) : Token.Piece :=
  if c.toNat < 0x20 ∧ c ∉ ['\x08', '\x0c', '\n', '\r', '\t'] then .unit c.toNat else .char c

theorem hexDigit?_digitChar : ∀ digit < 16, Token.hexDigit? (Nat.digitChar digit) = some digit := by
  decide

theorem hexCode?_digitChars {code : ℕ} (h : code < 0x20) :
    Token.hexCode? '0' '0' (Nat.digitChar (code / 16)) (Nat.digitChar (code % 16)) = some code := by
  have hzero : Token.hexDigit? '0' = some 0 := by decide
  simp only [Token.hexCode?, hzero, hexDigit?_digitChar _ (show code / 16 < 16 by omega),
    hexDigit?_digitChar _ (show code % 16 < 16 by omega), Option.bind_eq_bind, Option.bind_some]
  simp only [Option.pure_def, Option.some.injEq]
  omega

/-- A character is read from what it is written as. -/
theorem pieces?_escapeChar (c : Char) (read : List Token.Piece) (rest : List Char) :
    Token.pieces? read (escapeChar c ++ rest) = Token.pieces? (pieceOf c :: read) rest := by
  unfold escapeChar
  -- an escape of one letter is read by evaluation
  split
  all_goals try rfl
  rename_i hquote hbackslash hb hf hn hr ht
  have hletters : c ∉ ['\x08', '\x0c', '\n', '\r', '\t'] := by
    simp only [List.mem_cons, List.not_mem_nil, or_false, not_or]
    exact ⟨hb, hf, hn, hr, ht⟩
  by_cases hcontrol : c.toNat < 0x20
  · simp [hcontrol, pieceOf, hletters, Token.pieces?, hexCode?_digitChars hcontrol]
  · have hpiece : pieceOf c = .char c := if_neg fun h => hcontrol h.1
    rw [if_neg hcontrol, hpiece, List.singleton_append, Token.pieces?.eq_def]
    split <;> simp_all

theorem pieces?_string (value : List Char) (read : List Token.Piece) (rest : List Char) :
    Token.pieces? read (value.flatMap escapeChar ++ '"' :: rest) =
      some (read.reverse ++ value.map pieceOf, rest) := by
  induction value generalizing read with
  | nil => simp [Token.pieces?]
  | cons c value ih =>
      rw [List.flatMap_cons, List.append_assoc, pieces?_escapeChar, ih]
      simp

/-- A code below the surrogates is the character of this code. -/
theorem characters?_unit {code : ℕ} (h : code < 0xD800) (rest : List Token.Piece) :
    Token.characters? (.unit code :: rest) =
      (Token.characters? rest).map (Char.ofNat code :: ·) := by
  have hhigh : ¬(0xD800 ≤ code) := by omega
  have hlow : ¬(0xDC00 ≤ code) := by omega
  cases rest with
  | nil => simp [Token.characters?, hhigh]
  | cons piece rest => cases piece <;> simp [Token.characters?, hhigh, hlow]

theorem characters?_pieces (value : List Char) :
    Token.characters? (value.map pieceOf) = some value := by
  induction value with
  | nil => rfl
  | cons c value ih =>
      rw [List.map_cons, pieceOf]
      split
      · rename_i hcontrol
        rw [characters?_unit (by omega), ih, Option.map_some, Char.ofNat_toNat]
      · rw [Token.characters?, ih, Option.map_some]

theorem writes_string (value : String) :
    Writes (stringText value).toList [.string (some value)] := by
  rw [stringText, String.toList_ofList]
  refine .single rfl fun rest _ => ?_
  have htext : value.toList.flatMap escapeChar ++ ['"'] ++ rest =
      value.toList.flatMap escapeChar ++ '"' :: rest := by simp
  rw [htext, Token.next?, pieces?_string]
  simp [characters?_pieces]

end ArchDiagram.Json
