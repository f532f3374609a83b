import AtomrOntology.Query.SparqlGrammar

/-!
# The parser reads tokens

What the SPARQL parser returns for a text that starts with a token. A CURIE takes with it what
belongs to no token but may stand in a local name.
-/

namespace AtomrOntology

namespace Sparql

open Cypher (Ident IsIdent IsDecimal ok_bind)

/-- Skipping stops where it is. -/
theorem skipFrom_self {c : Char} {cs rest : List Char} {inComment : Bool}
    (h : skipFrom inComment cs = c :: rest) : skipWs (c :: rest) = c :: rest := by
  fun_induction skipFrom inComment cs with
  | case1 => simp at h
  | case2 c' cs ih => exact ih h
  | case3 c' cs hws ih => exact ih h
  | case4 c' cs hws hcomment ih => exact ih h
  | case5 c' cs hws hcomment =>
    obtain ⟨rfl, rfl⟩ := List.cons.inj h
    simp [skipWs, skipFrom, hws, hcomment]

/-- Skipping blanks and comments twice is skipping them once. -/
theorem skipWs_skipWs (cs : List Char) : skipWs (skipWs cs) = skipWs cs := by
  cases h : skipWs cs with
  | nil => rfl
  | cons c rest => exact skipFrom_self h

namespace Syntax

variable {text rest : List Char}

/-- The first letter of a keyword in lower case. -/
def Keyword.initial : Keyword → Char
  | .declare => 'p'
  | .select => 's'
  | .where => 'w'
  | .limit => 'l'
  | .offset => 'o'

/-- Keywords have different initials. -/
theorem Keyword.initial_inj {kw kw' : Keyword} (h : kw.initial = kw'.initial) : kw = kw' := by
  revert h
  cases kw <;> cases kw' <;> decide

/-- A keyword has an initial. -/
theorem Keyword.text_cons (kw : Keyword) :
    ∃ k ks, kw.text.toList = k :: ks ∧ toAsciiLower k = kw.initial := by
  cases kw <;> exact ⟨_, _, rfl, rfl⟩

/-- However a keyword is spelled, it starts with its initial. -/
theorem Keyword.spelled_cons {kw : Keyword} {s : List Char}
    (h : s.map toAsciiLower = kw.text.toList.map toAsciiLower) :
    ∃ c cs, s = c :: cs ∧ toAsciiLower c = kw.initial ∧ isIdentStart c = true := by
  obtain ⟨k, ks, hkw, hk⟩ := kw.text_cons
  rw [hkw] at h
  have halpha : isAsciiAlpha (toAsciiLower k) = true := by
    rw [hk]
    cases kw <;> rfl
  obtain ⟨c, cs, hs, hc, hletter⟩ := Cypher.anyCase_cons halpha h
  exact ⟨c, cs, hs, hc.trans hk, Cypher.isIdentStart_of_isAsciiAlpha hletter⟩

/-- A character that starts a token, but not a comment or a number with a sign. -/
structure IsInk (c : Char) : Prop where
  not_blank : isAsciiWhitespace c = false
  not_hash : c ≠ '#'
  not_dash : c ≠ '-'

/-- Characters of names are neither blanks nor start a comment. -/
theorem isInk_of_isIdentContinue {c : Char} (h : isIdentContinue c = true) : IsInk c where
  not_blank := by
    by_contra hc
    rw [Bool.not_eq_false] at hc
    simp only [isAsciiWhitespace, Bool.or_eq_true, beq_iff_eq] at hc
    rcases hc with (((rfl | rfl) | rfl) | rfl) | rfl <;> revert h <;> decide
  not_hash := by
    rintro rfl
    revert h
    decide
  not_dash := by
    rintro rfl
    revert h
    decide

theorem isIdentContinue_of_isIdentStart {c : Char} (h : isIdentStart c = true) :
    isIdentContinue c = true := by
  rw [isIdentContinue, ← isIdentStart, h, Bool.true_or]

/-- A token starts with ink, and only the dot with a dot. -/
theorem Token.Spelled.cons {t : Token} {s : List Char} (h : t.Spelled s) :
    ∃ c cs, s = c :: cs ∧ IsInk c ∧ (c = '.' → t = .mark .dot) := by
  have hword : ∀ {c : Char} {P : Prop}, isIdentContinue c = true → c = '.' → P := by
    rintro c P hc rfl
    exact absurd hc (by decide)
  cases h with
  | @keyword kw s h =>
    obtain ⟨c, cs, rfl, -, hc⟩ := Keyword.spelled_cons h
    have hcont := isIdentContinue_of_isIdentStart hc
    exact ⟨c, cs, rfl, isInk_of_isIdentContinue hcont, hword hcont⟩
  | isA => exact ⟨_, _, rfl, isInk_of_isIdentContinue (by decide), hword (by decide)⟩
  | prefixName ns =>
    cases ns with
    | none => exact ⟨_, _, rfl, ⟨by decide, by decide, by decide⟩, fun h => absurd h (by decide)⟩
    | some i =>
      obtain ⟨c, cs, hi, hc, -⟩ := i.valid.cons
      have hcont := isIdentContinue_of_isIdentStart hc
      exact ⟨c, cs ++ [':'], by simp [nsChars, hi], isInk_of_isIdentContinue hcont, hword hcont⟩
  | var v => exact ⟨_, _, rfl, ⟨by decide, by decide, by decide⟩, fun h => absurd h (by decide)⟩
  | iri i => exact ⟨_, _, rfl, ⟨by decide, by decide, by decide⟩, fun h => absurd h (by decide)⟩
  | curie c =>
    cases hns : c.ns with
    | none => exact ⟨_, _, rfl, ⟨by decide, by decide, by decide⟩, fun h => absurd h (by decide)⟩
    | some i =>
      obtain ⟨d, ds, hi, hd, -⟩ := i.valid.cons
      have hcont := isIdentContinue_of_isIdentStart hd
      exact ⟨d, _, by rw [nsChars, Option.map_some, Option.getD_some, hi, List.cons_append],
        isInk_of_isIdentContinue hcont, hword hcont⟩
  | natural h =>
    obtain ⟨c, cs, rfl, hc⟩ := h.cons
    have hcont := Cypher.isIdentContinue_of_isAsciiDigit hc
    exact ⟨c, cs, rfl, isInk_of_isIdentContinue hcont, hword hcont⟩
  | mark m =>
    cases m with
    | star => exact ⟨_, _, rfl, ⟨by decide, by decide, by decide⟩, fun h => absurd h (by decide)⟩
    | leftBrace =>
      exact ⟨_, _, rfl, ⟨by decide, by decide, by decide⟩, fun h => absurd h (by decide)⟩
    | rightBrace =>
      exact ⟨_, _, rfl, ⟨by decide, by decide, by decide⟩, fun h => absurd h (by decide)⟩
    | dot => exact ⟨_, _, rfl, ⟨by decide, by decide, by decide⟩, fun _ => rfl⟩

/-- A spelled token starts with something else than a blank. -/
theorem Token.Spelled.ink {t : Token} {s : List Char} (h : t.Spelled s) :
    ∃ c cs, s = c :: cs ∧ isAsciiWhitespace c = false := by
  obtain ⟨c, cs, hs, hc, -⟩ := h.cons
  exact ⟨c, cs, hs, hc.not_blank⟩

/-- The tokens of the SPARQL subset. -/
def lexis : Lexis Token := ⟨isAsciiWhitespace, Token.Spelled, Token.Ends, Token.Spelled.ink⟩

/-- Skipping blanks twice is skipping them once. -/
theorem skipWs_dropWhile (cs : List Char) :
    skipWs (cs.dropWhile isAsciiWhitespace) = skipWs cs := by
  induction cs with
  | nil => rfl
  | cons c cs ih =>
    rw [List.dropWhile_cons]
    by_cases hc : isAsciiWhitespace c = true
    · rw [if_pos hc, ih, skipWs, skipWs, skipFrom, if_pos hc]
    · rw [if_neg hc]

/-- Nothing is skipped before ink. -/
theorem skipWs_cons {c : Char} (h : IsInk c) (cs : List Char) : skipWs (c :: cs) = c :: cs := by
  simp [skipWs, skipFrom, h.not_blank, h.not_hash]

/-- The next token is found after blanks. -/
theorem skipWs_next {t : Token} (h : lexis.Next t text rest) :
    ∃ s, skipWs text = s ++ rest ∧ t.Spelled s ∧ t.Ends rest := by
  obtain ⟨s, hskip, hs, hends⟩ := h
  obtain ⟨c, cs, rfl, hc, -⟩ := hs.cons
  refine ⟨c :: cs, ?_, hs, hends⟩
  rw [← skipWs_dropWhile, show text.dropWhile isAsciiWhitespace = _ from hskip]
  exact skipWs_cons hc _

/-- Before a token only blanks are skipped, since printed texts have no comments. -/
theorem skipWs_eq_dropWhile {t : Token} (h : lexis.Next t text rest) :
    skipWs text = text.dropWhile isAsciiWhitespace := by
  obtain ⟨s, hskip, hs, -⟩ := h
  obtain ⟨c, cs, rfl, hc, -⟩ := hs.cons
  rw [← skipWs_dropWhile, show text.dropWhile isAsciiWhitespace = _ from hskip]
  exact skipWs_cons hc _

/-- After the last token there is nothing but blanks. -/
theorem skipWs_done (h : lexis.Printed [] text) : skipWs text = [] := by
  rw [← skipWs_dropWhile, show text.dropWhile isAsciiWhitespace = _ from h.done]
  rfl

/-- The next keyword is recognized. -/
theorem expectKeyword_next (kw : Keyword) (h : lexis.Next (.keyword kw) text rest) :
    tryKeyword kw.text (skipWs text) = some rest := by
  obtain ⟨s, hskip, hs, hends⟩ := skipWs_next h
  cases hs with
  | keyword hs =>
    rw [hskip]
    exact Cypher.tryKeyword_spelled hs hends

/-- A keyword is not found where another one is. -/
theorem tryKeyword_other {kw : Keyword} (kw' : Keyword) (hne : kw' ≠ kw)
    (h : lexis.Next (.keyword kw) text rest) : tryKeyword kw'.text (skipWs text) = none := by
  obtain ⟨s, hskip, hs, -⟩ := skipWs_next h
  cases hs with
  | keyword hs =>
    obtain ⟨c, cs, rfl, hc, -⟩ := Keyword.spelled_cons hs
    obtain ⟨k, ks, hkw, hk⟩ := kw'.text_cons
    rw [hskip, tryKeyword, hkw, if_neg]
    intro heq
    rw [List.length_cons, List.cons_append, List.take_succ_cons, List.map_cons, List.map_cons, hk,
      hc] at heq
    exact hne (Keyword.initial_inj (List.cons.inj heq).1.symm)

/-- A keyword starts with a letter. -/
theorem skipWs_keyword {kw : Keyword} (h : lexis.Next (.keyword kw) text rest) :
    ∃ c cs, skipWs text = c :: cs ∧ isIdentStart c = true := by
  obtain ⟨s, hskip, hs, -⟩ := skipWs_next h
  cases hs with
  | keyword hs =>
    obtain ⟨c, cs, rfl, -, hc⟩ := Keyword.spelled_cons hs
    exact ⟨c, cs ++ rest, hskip, hc⟩

/-- The next mark is found after blanks. -/
theorem skipWs_mark {m : Mark} (h : lexis.Next (.mark m) text rest) :
    skipWs text = m.char :: rest := by
  obtain ⟨s, hskip, hs, -⟩ := skipWs_next h
  cases hs
  exact hskip

/-- The next mark is the one expected. -/
theorem expectChar_next {m : Mark} (h : lexis.Next (.mark m) text rest) :
    expectChar m.char text = .ok rest := by
  simp only [expectChar, skipWs_mark h, if_true]

/-- The next variable is read. -/
theorem parseVar_next {v : Ident} (h : lexis.Next (.var v) text rest) :
    ∃ cs, skipWs text = '?' :: cs ∧ parseVar ('?' :: cs) = .ok (v.text, rest) := by
  obtain ⟨s, hskip, hs, hends⟩ := skipWs_next h
  cases hs
  obtain ⟨c, cs, hv, hc, hcs⟩ := v.valid.cons
  refine ⟨v.chars ++ rest, hskip, ?_⟩
  have hself : skipWs (c :: (cs ++ rest)) = c :: (cs ++ rest) :=
    skipWs_cons (isInk_of_isIdentContinue (isIdentContinue_of_isIdentStart hc)) _
  change parseIdent (v.chars ++ rest) = _
  rw [hv, List.cons_append, parseIdent, hself]
  simp only [hc, if_true, List.takeWhile_token hcs hends, List.dropWhile_token hcs hends]
  rw [Ident.text, hv]

/-- The next IRI is read. -/
theorem parseIriInAngles_next {i : Iri} (h : lexis.Next (.iri i) text rest) :
    ∃ cs, skipWs text = '<' :: cs ∧ parseIriInAngles ('<' :: cs) = .ok (i.text, rest) := by
  obtain ⟨s, hskip, hs, -⟩ := skipWs_next h
  cases hs
  refine ⟨i.chars ++ '>' :: rest, by simpa using hskip, ?_⟩
  have hall : ∀ c ∈ i.chars, (c != '>') = true := by
    intro c hc
    simpa using i.valid c hc
  have hend : ∀ c ∈ ('>' :: rest).head?, (c != '>') = false := by
    intro c hc
    obtain rfl := Option.some.inj hc
    rfl
  have hself : skipWs ('<' :: (i.chars ++ '>' :: rest)) = '<' :: (i.chars ++ '>' :: rest) := rfl
  simp only [parseIriInAngles, hself, List.dropWhile_token hall hend,
    List.takeWhile_token hall hend]
  rfl

/-- Blanks before an IRI do not matter. -/
theorem parseIriInAngles_skipWs (cs : List Char) :
    parseIriInAngles (skipWs cs) = parseIriInAngles cs := by
  rw [parseIriInAngles, parseIriInAngles, skipWs_skipWs]

/-- The name of a prefix is found before its colon. -/
theorem skipWs_prefixName {ns : Option Ident} (h : lexis.Next (.prefixName ns) text rest) :
    skipWs text = nsChars ns ++ ':' :: rest := by
  obtain ⟨s, hskip, hs, -⟩ := skipWs_next h
  cases hs
  rw [hskip, List.append_assoc]
  rfl

/-- The next number is read. -/
theorem parseUint_next {n : UInt64} (h : lexis.Next (.natural n) text rest) :
    parseUint text = .ok (n, rest) := by
  obtain ⟨digits, hskip, hs, hends⟩ := skipWs_next h
  cases hs with
  | natural hd =>
    have hrest : ∀ c ∈ rest.head?, isAsciiDigit c = false := by
      intro c hc
      have hnot := hends c hc
      rw [isIdentContinue, Bool.or_eq_false_iff] at hnot
      exact hnot.2
    have hne : digits.isEmpty = false := by simpa using hd.nonempty
    have hvalue : digits.foldl (fun n c => 10 * n + (c.toNat - '0'.toNat)) 0 = n.toNat := hd.value
    have hlt : n.toNat < 2 ^ 64 := n.toNat_lt
    simp only [parseUint, hskip, List.takeWhile_token hd.ofDigits hrest,
      List.dropWhile_token hd.ofDigits hrest, hne, hvalue, if_pos hlt, UInt64.ofNat_toNat,
      Bool.false_eq_true, if_false]

/-- What may stand in a local name for the parser. -/
def isLocalChar (c : Char) : Bool := isIdentContinue c || c == '.' || c == '-'

/-- What the parser takes a CURIE for. -/
def expand (declared : BTreeMap String String) (ns : Option Ident) (name : List Char) :
    Sparql.Term :=
  match declared[String.ofList (nsChars ns)]? with
  | some base => .iri (base ++ .ofList name)
  | none => .localName (.ofList name)

/-- A prefixed name stands for what its prefix expands to. -/
theorem Curie.denote_eq (declared : BTreeMap String String) (c : Curie) :
    c.denote declared = expand declared c.ns c.name.chars := rfl

/-- Prefixes consist of characters of names. -/
theorem nsChars_continue (ns : Option Ident) : ∀ c ∈ nsChars ns, isIdentContinue c = true := by
  intro c hc
  cases ns with
  | none => cases hc
  | some i =>
    obtain ⟨d, ds, hi, hd, hds⟩ := i.valid.cons
    rw [nsChars, Option.map_some, Option.getD_some, hi] at hc
    obtain rfl | hc := List.mem_cons.mp hc
    · exact isIdentContinue_of_isIdentStart hd
    · exact hds c hc

/-- Nothing is skipped before a prefix. -/
theorem skipWs_nsChars (ns : Option Ident) (cs : List Char) :
    skipWs (nsChars ns ++ ':' :: cs) = nsChars ns ++ ':' :: cs := by
  cases ns with
  | none => rfl
  | some i =>
    obtain ⟨d, ds, hi, hd, -⟩ := i.valid.cons
    rw [nsChars, Option.map_some, Option.getD_some, hi, List.cons_append]
    exact skipWs_cons (isInk_of_isIdentContinue (isIdentContinue_of_isIdentStart hd)) _

/-- The prefix of a name reaches to its colon. -/
theorem curieNamespace_nsChars (ns : Option Ident) (cs : List Char) :
    curieNamespace (nsChars ns ++ ':' :: cs) = nsChars ns := by
  cases ns with
  | none => rfl
  | some i =>
    obtain ⟨d, ds, hi, hd, -⟩ := i.valid.cons
    have hhead : (nsChars (some i) ++ ':' :: cs).head?.any isIdentStart = true := by
      rw [nsChars, Option.map_some, Option.getD_some, hi]
      exact hd
    have hcolon : ∀ c ∈ (':' :: cs).head?, isIdentContinue c = false := by
      intro c hc
      obtain rfl := Option.some.inj hc
      rfl
    rw [curieNamespace, if_pos hhead]
    exact List.takeWhile_token (nsChars_continue _) hcolon

/-- A CURIE is read up to the end of what may stand in a local name. -/
theorem tryParseCurie_append (declared : BTreeMap String String) (c : Curie) (rest : List Char) :
    tryParseCurie declared (nsChars c.ns ++ ':' :: (c.name.chars ++ rest)) =
      some (expand declared c.ns (c.name.chars ++ rest.takeWhile isLocalChar),
        rest.dropWhile isLocalChar) := by
  obtain ⟨d, ds, hname, hd, hds⟩ := c.name.valid.cons
  have hall : ∀ e ∈ c.name.chars, isLocalChar e = true := by
    intro e he
    rw [hname] at he
    have hcont : isIdentContinue e = true := by
      obtain rfl | he := List.mem_cons.mp he
      · exact isIdentContinue_of_isIdentStart hd
      · exact hds e he
    simp [isLocalChar, hcont]
  have hlocal : curieLocal (c.name.chars ++ rest) = c.name.chars ++ rest.takeWhile isLocalChar := by
    have hhead :
      (c.name.chars ++ rest).head?.any (fun e => isIdentStart e || isAsciiDigit e) = true := by
      rw [hname, List.cons_append, List.head?_cons, Option.any_some, hd, Bool.true_or]
    rw [curieLocal, if_pos hhead]
    exact List.takeWhile_append_of_pos hall
  have hne : (c.name.chars ++ rest.takeWhile isLocalChar).isEmpty = false := by
    rw [hname]
    rfl
  have hdrop : (c.name.chars ++ rest).drop (c.name.chars ++ rest.takeWhile isLocalChar).length =
      rest.dropWhile isLocalChar := by
    rw [List.length_append, ← List.drop_drop, List.drop_left]
    calc rest.drop (rest.takeWhile isLocalChar).length
        = (rest.takeWhile isLocalChar ++ rest.dropWhile isLocalChar).drop
            (rest.takeWhile isLocalChar).length := by rw [List.takeWhile_append_dropWhile]
      _ = rest.dropWhile isLocalChar := List.drop_left
  unfold tryParseCurie
  simp only [skipWs_nsChars, curieNamespace_nsChars, List.drop_left, hlocal, hne,
    Bool.false_eq_true, if_false, hdrop, expand]
  cases declared[String.ofList (nsChars c.ns)]? <;> rfl

end Syntax

end Sparql

end AtomrOntology
