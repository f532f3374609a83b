import AtomrOntology.Query.SparqlTokens

/-!
# The parser reads triples

What the SPARQL parser returns for the terms of a triple and where it goes on. A CURIE is read
on to the end of what may stand in a local name, and a verb with the prefix `a` as the keyword.
-/

namespace AtomrOntology

namespace Sparql

open Cypher (Ident ok_bind)

namespace Syntax

variable {text rest r r' : List Char} {declared : BTreeMap String String} {bound : Nat}
  {e : Token} {t : Triple} {ts us : List Token}

/-- What follows a token directly. -/
theorem head_of_next (h : lexis.Next e r r') : ∀ c ∈ r.head?,
    isAsciiWhitespace c = true ∨ IsInk c ∧ (c = '.' → e = .mark .dot) := by
  intro c hc
  cases r with
  | nil => cases hc
  | cons d ds =>
    obtain rfl := Option.some.inj hc
    by_cases hblank : isAsciiWhitespace d = true
    · exact Or.inl hblank
    · obtain ⟨s, hskip, hs, -⟩ := h
      obtain ⟨c, cs, rfl, hc, hdot⟩ := hs.cons
      have hdrop : (d :: ds).dropWhile isAsciiWhitespace = d :: ds := by
        rw [List.dropWhile_cons, if_neg hblank]
      obtain ⟨rfl, -⟩ := List.cons.inj (hdrop.symm.trans hskip)
      exact Or.inr ⟨hc, hdot⟩

/-- What is before a token other than a dot does not start with one. -/
theorem head_ne_dot (h : lexis.Next e r r') (he : e ≠ .mark .dot) : r.head? ≠ some '.' := by
  intro hdot
  obtain hblank | ⟨-, hmark⟩ := head_of_next h '.' hdot
  · exact absurd hblank (by decide)
  · exact he (hmark rfl)

/-- No local name goes on where a token does not end in a dot. -/
theorem not_local_of_next (hends : ∀ c ∈ r.head?, isIdentContinue c = false)
    (h : lexis.Next e r r') (hdot : r.head? ≠ some '.') :
    ∀ c ∈ r.head?, isLocalChar c = false := by
  intro c hc
  have hc' : c ≠ '.' := fun heq => hdot (heq ▸ hc)
  have hdash : c ≠ '-' := by
    obtain hblank | ⟨hink, -⟩ := head_of_next h c hc
    · rintro rfl
      exact absurd hblank (by decide)
    · exact hink.not_dash
  simp [isLocalChar, hends c hc, hc', hdash]

/-- What the parser takes a term for, and where it goes on. -/
def Term.read (declared : BTreeMap String String) (rest : List Char) :
    Term → Sparql.Term × List Char
  | .var v => (.var v.text, rest)
  | .iri i => (.iri i.text, rest)
  | .curie c => (expand declared c.ns (c.name.chars ++ rest.takeWhile isLocalChar),
      rest.dropWhile isLocalChar)

/-- A term is read as it is meant if no name goes on after it. -/
theorem Term.read_apart (declared : BTreeMap String String) (t : Term)
    (h : ∀ c ∈ rest.head?, isLocalChar c = false) :
    t.read declared rest = (t.denote declared, rest) := by
  cases t with
  | var v => rfl
  | iri i => rfl
  | curie c =>
    have htake : rest.takeWhile isLocalChar = [] := List.takeWhile_of_head h
    have hdrop : rest.dropWhile isLocalChar = rest := List.dropWhile_of_head h
    rw [read, htake, hdrop, List.append_nil]
    rfl

/-- The next term is read, with the dots that go on with its name. -/
theorem parseTerm_next {t : Term} (h : lexis.Next t.token text rest) :
    parseTerm declared text = .ok (t.read declared rest) := by
  cases t with
  | var v =>
    obtain ⟨cs, hskip, hparse⟩ := parseVar_next h
    simp only [parseTerm, hskip, hparse, ok_bind]
    rfl
  | iri i =>
    obtain ⟨cs, hskip, hparse⟩ := parseIriInAngles_next h
    simp only [parseTerm, hskip, hparse, ok_bind]
    rfl
  | curie c =>
    obtain ⟨s, hskip, hs, -⟩ := skipWs_next h
    cases hs
    rw [List.append_assoc, List.cons_append] at hskip
    have hcurie := tryParseCurie_append declared c rest
    rw [parseTerm, hskip]
    have hhead :
      ∀ d ∈ (nsChars c.ns ++ ':' :: (c.name.chars ++ rest)).head?, d ≠ '?' ∧ d ≠ '<' := by
      intro d hd
      cases hns : nsChars c.ns with
      | nil =>
        rw [hns] at hd
        obtain rfl := Option.some.inj hd
        decide
      | cons d' ds =>
        have hcont := nsChars_continue c.ns d' (by rw [hns]; exact List.mem_cons_self)
        rw [hns] at hd
        obtain rfl := Option.some.inj hd
        constructor <;> rintro rfl <;> exact absurd hcont (by decide)
    split
    · next heq =>
      rw [heq] at hhead
      exact absurd rfl (hhead '?' rfl).1
    · next heq =>
      rw [heq] at hhead
      exact absurd rfl (hhead '<' rfl).2
    · rw [hcurie]
      rfl

/-- Blanks before a term do not matter. -/
theorem parseTerm_skipWs (cs : List Char) :
    parseTerm declared (skipWs cs) = parseTerm declared cs := by
  rw [parseTerm, parseTerm, skipWs_skipWs]

/-- A CURIE with the prefix `a`, which is read as the keyword. -/
def Verb.ReadAsKeyword : Verb → Prop
  | .curie c => (nsChars c.ns).map toAsciiLower = ['a']
  | _ => False

instance (v : Verb) : Decidable v.ReadAsKeyword :=
  match v with
  | .curie c => inferInstanceAs (Decidable ((nsChars c.ns).map toAsciiLower = ['a']))
  | .isA => inferInstanceAs (Decidable False)
  | .iri _ => inferInstanceAs (Decidable False)

/-- What the parser takes a verb for, and where it goes on. -/
def Verb.read (declared : BTreeMap String String) (rest : List Char) :
    Verb → Sparql.Verb × List Char
  | .isA => (.isA, rest)
  | .iri i => (.term (.iri i.text), rest)
  | .curie c => (.term (expand declared c.ns (c.name.chars ++ rest.takeWhile isLocalChar)),
      rest.dropWhile isLocalChar)

/-- A verb is read as it is meant if no name goes on after it. -/
theorem Verb.read_apart (v : Verb) (h : ∀ c ∈ rest.head?, isLocalChar c = false) :
    v.read declared rest = (v.denote declared, rest) := by
  cases v with
  | isA => rfl
  | iri i => rfl
  | curie c =>
    have hterm := Term.read_apart declared (.curie c) h
    rw [Term.read, Prod.mk.injEq] at hterm
    rw [read, hterm.1, hterm.2]
    rfl

/-- The keyword is found at the start of a CURIE if the prefix is `a`. -/
theorem tryKeyword_a (ns : Option Ident) (cs : List Char) :
    tryKeyword "a" (nsChars ns ++ ':' :: cs) =
      if (nsChars ns).map toAsciiLower = ['a'] then some (':' :: cs) else none := by
  cases hns : nsChars ns with
  | nil => rfl
  | cons d ds =>
    cases ds with
    | nil =>
      have hkw : tryKeyword "a" ([d] ++ ':' :: cs) =
          if [toAsciiLower d] = ['a'] then some (':' :: cs) else none := rfl
      rw [hkw, List.map_singleton]
    | cons d' ds =>
      have hcont := nsChars_continue ns d' (by rw [hns]; simp)
      have hkw : tryKeyword "a" (d :: d' :: (ds ++ ':' :: cs)) =
          if [toAsciiLower d] = ['a'] then
            if isIdentContinue d' then none else some (d' :: (ds ++ ':' :: cs))
          else none := rfl
      rw [List.cons_append, List.cons_append, hkw, hcont, if_pos rfl, ite_self, if_neg (by simp)]

/-- The next verb is read, unless it is taken for the keyword. -/
theorem parseVerb_next {v : Verb} (h : lexis.Next v.token text rest) (hv : ¬v.ReadAsKeyword) :
    parseVerb declared text = .ok (v.read declared rest) := by
  have hterm : ∀ {u : Term}, lexis.Next u.token text rest → tryKeyword "a" (skipWs text) = none →
      parseVerb declared text =
        .ok (.term (u.read declared rest).1, (u.read declared rest).2) := by
    intro u hu hkw
    simp only [parseVerb, hkw, parseTerm_skipWs, parseTerm_next hu, ok_bind]
    rfl
  obtain ⟨s, hskip, hs, hends⟩ := skipWs_next h
  cases v with
  | isA =>
    cases hs
    have hkw : tryKeyword "a" (['a'] ++ rest) = some rest :=
      Cypher.tryKeyword_spelled rfl fun c hc => (hends c hc).1
    simp only [parseVerb, hskip, hkw]
    rfl
  | iri i =>
    cases hs
    rw [hterm (u := .iri i) h (by rw [hskip]; rfl)]
    rfl
  | curie c =>
    cases hs
    rw [List.append_assoc, List.cons_append] at hskip
    have hns : (nsChars c.ns).map toAsciiLower ≠ ['a'] := hv
    rw [hterm (u := .curie c) h (by rw [hskip, tryKeyword_a, if_neg hns])]
    rfl

/-- A CURIE that is read as the keyword and another CURIE. -/
theorem parseVerb_keyword {c : Curie} (h : lexis.Next (.curie c) text rest)
    (hv : (Verb.curie c).ReadAsKeyword) :
    parseVerb declared text = .ok (.isA, ':' :: (c.name.chars ++ rest)) := by
  obtain ⟨s, hskip, hs, -⟩ := skipWs_next h
  cases hs
  rw [List.append_assoc, List.cons_append] at hskip
  have hkw : tryKeyword "a" (skipWs text) = some (':' :: (c.name.chars ++ rest)) := by
    have hns : (nsChars c.ns).map toAsciiLower = ['a'] := hv
    rw [hskip, tryKeyword_a, if_pos hns]
  simp only [parseVerb, hkw]

/-- An error that is no report of an unsupported form. -/
def Stops {α : Type} (x : Except SparqlError α) : Prop :=
  ∃ error, x = .error error ∧ ∀ message, error ≠ .unsupported message

/-- What stops goes no further. -/
theorem Stops.bind {α β : Type} {x : Except SparqlError α} (h : Stops x)
    (f : α → Except SparqlError β) : Stops (x >>= f) := by
  obtain ⟨error, rfl, herror⟩ := h
  exact ⟨error, rfl, herror⟩

/-- An error at some text is an error of syntax. -/
theorem reject_stops {α : Type} {error : String → Nat → SparqlError}
    (h : ∀ got left message, error got left ≠ .unsupported message) (rest : List Char) :
    Stops (reject error rest : Except SparqlError α) := by
  rw [reject]
  cases restTrim rest with
  | none => exact ⟨_, rfl, by simp⟩
  | some got => exact ⟨_, rfl, h got _⟩

/-- What the parser does after a triple. -/
def afterTriple (declared : BTreeMap String String) (bound : Nat) (t : TriplePattern)
    (cs : List Char) : Except SparqlError (List TriplePattern × List Char) :=
  match skipWs cs with
  | '.' :: rest => do
    let (triples, rest) ← parseTripleBlock declared bound rest
    return (t :: triples, rest)
  | '\x7d' :: rest => return ([t], '\x7d' :: rest)
  | rest => reject (.expected "`.` or `\x7d` after triple") rest

/-- After a dot the block goes on. -/
theorem afterTriple_dot {t : TriplePattern} (h : lexis.Next (.mark .dot) r r') :
    afterTriple declared bound t r = do
      let (triples, rest) ← parseTripleBlock declared bound r'
      return (t :: triples, rest) := by
  rw [afterTriple, skipWs_mark h]
  rfl

/-- Before a closing brace the block is over. -/
theorem afterTriple_brace {t : TriplePattern} (h : lexis.Next (.mark .rightBrace) r r') :
    afterTriple declared bound t r = .ok ([t], '\x7d' :: r') := by
  rw [afterTriple, skipWs_mark h]
  rfl

/-- Before anything else the parser stops. -/
theorem afterTriple_stops {t : TriplePattern} (hdot : (skipWs r).head? ≠ some '.')
    (hbrace : (skipWs r).head? ≠ some '\x7d') : Stops (afterTriple declared bound t r) := by
  rw [afterTriple]
  split
  · next heq => exact absurd (by rw [heq]; rfl) hdot
  · next heq => exact absurd (by rw [heq]; rfl) hbrace
  · exact reject_stops (by simp) _

/-- A text starts with the tokens of a triple. -/
def Triple.At (t : Triple) (text rest : List Char) : Prop :=
  ∃ r₁ r₂, lexis.Next t.subject.token text r₁ ∧ lexis.Next t.verb.token r₁ r₂ ∧
    lexis.Next t.object.token r₂ rest

theorem Verb.token_ne_dot (v : Verb) : v.token ≠ .mark .dot := by
  cases v <;> simp [Verb.token]

theorem Term.token_ne_dot (u : Term) : u.token ≠ .mark .dot := by
  cases u <;> simp [Term.token]

/-- A term with the token of a prefixed name is the name. -/
theorem Term.eq_curie {u : Term} {c : Curie} (h : u.token = .curie c) : u = .curie c := by
  cases u with
  | var v => cases h
  | iri i => cases h
  | curie d => exact congrArg Term.curie (Token.curie.inj h)

/-- The first character of a term is no closing brace. -/
theorem Term.skipWs_head (u : Term) (h : lexis.Next u.token text rest) :
    (skipWs text).head? ≠ some '.' ∧ (skipWs text).head? ≠ some '\x7d' := by
  obtain ⟨s, hskip, hs, -⟩ := skipWs_next h
  obtain ⟨c, cs, rfl, -, hdot⟩ := hs.cons
  rw [hskip]
  constructor
  · intro hc
    exact u.token_ne_dot (hdot (Option.some.inj hc))
  · intro hc
    obtain rfl := Option.some.inj hc
    cases u with
    | var v => cases hs
    | iri i => cases hs
    | curie c =>
      have hinv : ∀ s, Token.Spelled (.curie c) s → s = nsChars c.ns ++ ':' :: c.name.chars := by
        intro s hs
        cases hs
        rfl
      have hspelled := hinv _ hs
      cases hns : nsChars c.ns with
      | nil =>
        rw [hns] at hspelled
        exact absurd (List.cons.inj hspelled).1 (by decide)
      | cons d ds =>
        rw [hns] at hspelled
        obtain ⟨rfl, -⟩ := List.cons.inj hspelled
        exact absurd (nsChars_continue c.ns _ (by rw [hns]; exact List.mem_cons_self)) (by decide)

/-- A term is read as it is meant unless a dot follows a prefixed name. -/
theorem Term.not_local (u : Term) (h : lexis.Next u.token text r) (hnext : lexis.Next e r r')
    (hdot : ∀ c, u = .curie c → r.head? ≠ some '.') : u.read declared r =
    (u.denote declared, r) := by
  cases u with
  | var v => rfl
  | iri i => rfl
  | curie c =>
    obtain ⟨s, -, -, hends⟩ := h
    exact Term.read_apart _ _ (not_local_of_next hends hnext (hdot c rfl))

/-- A triple is read up to its object. -/
theorem parseTripleBlock_at (h : t.At text r) (hverb : ¬t.verb.ReadAsKeyword) :
    parseTripleBlock declared (bound + 1) text =
      afterTriple declared bound
        ⟨t.subject.denote declared, t.verb.denote declared, (t.object.read declared r).1⟩
        (t.object.read declared r).2 := by
  obtain ⟨r₁, r₂, hs, hp, ho⟩ := h
  have hsubject : parseTerm declared text = .ok (t.subject.denote declared, r₁) := by
    rw [parseTerm_next hs, t.subject.not_local hs hp fun _ _ => head_ne_dot hp t.verb.token_ne_dot]
  have hpredicate : parseVerb declared r₁ = .ok (t.verb.denote declared, r₂) := by
    rw [parseVerb_next hp hverb]
    cases hv : t.verb with
    | isA => rfl
    | iri i => rfl
    | curie c =>
      rw [hv] at hp
      obtain ⟨s, -, -, hends⟩ := hp
      rw [Verb.read_apart _
        (not_local_of_next hends ho (head_ne_dot ho t.object.token_ne_dot))]
  have hstart := (t.subject.skipWs_head hs).2
  rw [parseTripleBlock]
  split
  · next heq => exact absurd (by rw [heq]; rfl) hstart
  · simp only [parseTerm_skipWs, hsubject, hpredicate, parseTerm_next ho, ok_bind]
    rfl

/-- A verb that is read as the keyword leaves a CURIE where the object should be. -/
theorem parseTripleBlock_keyword (h : t.At text r) (hverb : t.verb.ReadAsKeyword) :
    Stops (parseTripleBlock declared (bound + 1) text) := by
  obtain ⟨r₁, r₂, hs, hp, ho⟩ := h
  cases hv : t.verb with
  | isA => rw [hv] at hverb; exact hverb.elim
  | iri i => rw [hv] at hverb; exact hverb.elim
  | curie c =>
    rw [hv] at hp hverb
    have hsubject : parseTerm declared text = .ok (t.subject.denote declared, r₁) := by
      rw [parseTerm_next hs, t.subject.not_local hs hp fun _ _ =>
        head_ne_dot hp (by simp [Verb.token])]
    have hname : lexis.Next (.curie ⟨none, c.name⟩) (':' :: (c.name.chars ++ r₂)) r₂ := by
      obtain ⟨s, -, -, hends⟩ := hp
      exact ⟨':' :: c.name.chars, rfl, .curie ⟨none, c.name⟩, hends⟩
    have hobject : parseTerm declared (':' :: (c.name.chars ++ r₂)) =
        .ok (Term.denote declared (.curie ⟨none, c.name⟩), r₂) := by
      rw [parseTerm_next (t := .curie ⟨none, c.name⟩) hname, Term.not_local (.curie _) hname ho
        fun _ _ => head_ne_dot ho t.object.token_ne_dot]
    have hstart := (t.subject.skipWs_head hs).2
    obtain ⟨hdot, hbrace⟩ := t.object.skipWs_head ho
    rw [parseTripleBlock]
    split
    · next heq => exact absurd (by rw [heq]; rfl) hstart
    · simp only [parseTerm_skipWs, hsubject, parseVerb_keyword hp hverb, hobject, ok_bind]
      exact afterTriple_stops (t := ⟨_, _, _⟩) hdot hbrace

end Syntax

end Sparql

end AtomrOntology
