import AtomrOntology.Query.SparqlBlocks

/-!
# The parser reads queries

The clauses around the graph pattern are read as they are written, so that what the parser makes
of a printed query is decided in its graph pattern.
-/

namespace AtomrOntology

namespace Sparql

open Cypher (Ident ok_bind)

namespace Syntax

variable {text : List Char} {declared : BTreeMap String String} {bound : Nat} {ts : List Token}
  {Q : Token → List Token → List Char → Prop} {R : List Token → List Char → Prop}
  {O : Except SparqlError (List TriplePattern × List Char) → List TriplePattern → Prop}

/-- Prefix declarations are read, up to the keyword of the query. -/
theorem parsePrefixes_reads (declared : BTreeMap String String)
    (hR : lexis.Reading Plain R) {prefixes : List Prefix}
    (hbound : prefixes.length < bound) (h : R (prefixes.flatMap Prefix.tokens ++
      .keyword .select :: ts) text) :
    ∃ rest, parsePrefixes bound declared text =
      .ok (prefixes.foldl (fun m p => m.insert (.ofList (nsChars p.ns)) p.iri.text) declared,
        rest) ∧
        R (.keyword .select :: ts) rest := by
  induction prefixes generalizing bound declared text with
  | nil =>
    obtain ⟨bound, rfl⟩ : ∃ k, bound = k + 1 := ⟨bound - 1, by omega⟩
    obtain ⟨r', hnext, -⟩ := hR.next (by simp [Plain]) h
    have hnone : tryKeyword "PREFIX" (skipWs text) = none :=
      tryKeyword_other .declare (by decide) hnext
    refine ⟨skipWs text, ?_, by rw [skipWs_eq_dropWhile hnext]; exact hR.skip h⟩
    simp only [parsePrefixes, hnone]
    rfl
  | cons p prefixes ih =>
    obtain ⟨bound, rfl⟩ : ∃ k, bound = k + 1 := ⟨bound - 1, by omega⟩
    rw [List.length_cons] at hbound
    simp only [List.flatMap_cons, Prefix.tokens, List.cons_append, List.nil_append] at h
    obtain ⟨r₁, hword, h⟩ := hR.next (by simp [Plain]) h
    obtain ⟨r₂, hname, h⟩ := hR.next (by simp [Plain]) h
    obtain ⟨r₃, hiri, h⟩ := hR.next (by simp [Plain]) h
    obtain ⟨rest, hparse, hrest⟩ := @ih r₃ bound
      (declared.insert (.ofList (nsChars p.ns)) p.iri.text) (by omega) h
    have hcolon : ∀ c ∈ (':' :: r₂).head?, isIdentContinue c = false := by
      intro c hc
      obtain rfl := Option.some.inj hc
      rfl
    have hsome : tryKeyword "PREFIX" (skipWs text) = some r₁ := expectKeyword_next .declare hword
    obtain ⟨cs, hskip, hangles⟩ := parseIriInAngles_next hiri
    rw [← hskip, parseIriInAngles_skipWs] at hangles
    refine ⟨rest, ?_, hrest⟩
    simp only [parsePrefixes, hsome, skipWs_prefixName hname,
      List.dropWhile_token (nsChars_continue p.ns) hcolon,
      List.takeWhile_token (nsChars_continue p.ns) hcolon, hangles, ok_bind, hparse]
    rfl

/-- Selected variables are read, up to the keyword of the block. -/
theorem parseVars_reads (hR : lexis.Reading Plain R) {vs : List Ident} (hbound : vs.length ≤ bound)
    (h : R (vs.flatMap varToken ++ .keyword .where :: ts) text) :
    ∃ rest, parseVars bound text = .ok (vs.map Ident.text, rest) ∧
    R (.keyword .where :: ts) rest := by
  induction vs generalizing bound text with
  | nil =>
    obtain ⟨r', hnext, -⟩ := hR.next (by simp [Plain]) h
    refine ⟨skipWs text, ?_, by rw [skipWs_eq_dropWhile hnext]; exact hR.skip h⟩
    cases bound with
    | zero => rfl
    | succ bound =>
      obtain ⟨c, cs, hskip, hc⟩ := skipWs_keyword hnext
      rw [parseVars]
      split
      · next heq =>
        obtain ⟨rfl, -⟩ := List.cons.inj (hskip.symm.trans heq)
        exact absurd hc (by decide)
      · rfl
  | cons v vs ih =>
    obtain ⟨bound, rfl⟩ : ∃ k, bound = k + 1 := ⟨bound - 1, by simp at hbound; omega⟩
    rw [List.length_cons] at hbound
    simp only [List.flatMap_cons, varToken, List.cons_append, List.nil_append] at h
    obtain ⟨r', hnext, h⟩ := hR.next (by simp [Plain]) h
    obtain ⟨cs, hskip, hparse⟩ := parseVar_next hnext
    obtain ⟨rest, hvars, hrest⟩ := @ih r' bound (by omega) h
    refine ⟨rest, ?_, hrest⟩
    simp only [parseVars, hskip, hparse, ok_bind, hvars]
    rfl

/-- What is selected is read. -/
theorem parseSelect_reads (hR : lexis.Reading Plain R) {select : Select}
    (h : R (select.tokens ++ .keyword .where :: ts) text) :
    ∃ rest, parseSelect text = .ok (select.columns, rest) ∧ R (.keyword .where :: ts) rest := by
  cases select with
  | star =>
    obtain ⟨r', hnext, h, -⟩ := mark_next hR h
    refine ⟨r', ?_, h⟩
    rw [parseSelect, skipWs_mark hnext]
    rfl
  | vars v vs =>
    have hfirst := h
    simp only [Select.tokens, List.flatMap_cons, varToken, List.cons_append,
      List.nil_append] at hfirst
    obtain ⟨r', hnext, -⟩ := hR.next (by simp [Plain]) hfirst
    obtain ⟨cs, hskip, -⟩ := parseVar_next hnext
    have hskipped := hR.skip h
    rw [show text.dropWhile lexis.blank = _ from (skipWs_eq_dropWhile hnext).symm] at hskipped
    have hlength := (hR.printed hskipped).length_parts_le (f := varToken) (by simp [varToken])
    obtain ⟨rest, hvars, hrest⟩ := parseVars_reads hR hlength hskipped
    refine ⟨rest, ?_, hrest⟩
    rw [parseSelect]
    split
    · next heq => exact absurd (hskip.symm.trans heq) (by simp)
    · rw [hvars]
      rfl

/-- At the end there are no further modifiers. -/
theorem parseMods_done {n : Nat} {limit : Option UInt64} {offset : UInt64}
    (h : lexis.Printed [] text) :
    ∃ rest, parseMods n limit offset text = .ok ((limit, offset), rest) ∧ skipWs rest = [] := by
  have hskip := skipWs_done h
  cases n with
  | zero => exact ⟨text, rfl, hskip⟩
  | succ n =>
    have hnone : ∀ kw : Keyword, tryKeyword kw.text [] = none := by
      intro kw
      cases kw <;> rfl
    have hlimit : tryKeyword "LIMIT" [] = none := hnone .limit
    have hoffset : tryKeyword "OFFSET" [] = none := hnone .offset
    exact ⟨[], by simp only [parseMods, hskip, hlimit, hoffset], rfl⟩

/-- A limit is read, and then further modifiers. -/
theorem parseMods_limit {k : Nat} {n : UInt64} {limit : Option UInt64} {offset : UInt64}
    (h : lexis.Printed (.keyword .limit :: .natural n :: ts) text) :
    ∃ rest, parseMods (k + 1) limit offset text = parseMods k (some n) offset rest ∧
      lexis.Printed ts rest := by
  obtain ⟨r₁, hword, h⟩ := h.next_token
  obtain ⟨r₂, hnumber, h⟩ := h.next_token
  have hsome : tryKeyword "LIMIT" (skipWs text) = some r₁ := expectKeyword_next .limit hword
  exact ⟨r₂, by simp only [parseMods, hsome, parseUint_next hnumber, ok_bind], h⟩

/-- An offset is read, and then further modifiers. -/
theorem parseMods_offset {k : Nat} {n : UInt64} {limit : Option UInt64} {offset : UInt64}
    (h : lexis.Printed (.keyword .offset :: .natural n :: ts) text) :
    ∃ rest, parseMods (k + 1) limit offset text = parseMods k limit n rest ∧
      lexis.Printed ts rest := by
  obtain ⟨r₁, hword, h⟩ := h.next_token
  obtain ⟨r₂, hnumber, h⟩ := h.next_token
  have hnone : tryKeyword "LIMIT" (skipWs text) = none :=
    tryKeyword_other .limit (by decide) hword
  have hsome : tryKeyword "OFFSET" (skipWs text) = some r₁ := expectKeyword_next .offset hword
  exact ⟨r₂, by simp only [parseMods, hnone, hsome, parseUint_next hnumber, ok_bind], h⟩

/-- Printed modifiers are read to the end. -/
theorem parseMods_printed {m : Mods} (h : lexis.Printed m.tokens text) :
    ∃ rest, parseMods 2 none 0 text = .ok ((m.limit, m.offset.getD 0), rest) ∧
      skipWs rest = [] := by
  obtain ⟨limit, offset, offsetFirst⟩ := m
  cases limit with
  | none =>
    cases offset with
    | none =>
      have hnil : Mods.tokens ⟨none, none, offsetFirst⟩ = [] := by cases offsetFirst <;> rfl
      exact parseMods_done (hnil ▸ h)
    | some o =>
      have htokens : Mods.tokens ⟨none, some o, offsetFirst⟩ = [.keyword .offset, .natural o] := by
        cases offsetFirst <;> rfl
      obtain ⟨rest, hparse, h⟩ := parseMods_offset (htokens ▸ h)
      rw [hparse]
      exact parseMods_done h
  | some l =>
    cases offset with
    | none =>
      have htokens : Mods.tokens ⟨some l, none, offsetFirst⟩ = [.keyword .limit, .natural l] := by
        cases offsetFirst <;> rfl
      obtain ⟨rest, hparse, h⟩ := parseMods_limit (htokens ▸ h)
      rw [hparse]
      exact parseMods_done h
    | some o =>
      cases offsetFirst with
      | false =>
        obtain ⟨rest, hfirst, h⟩ := parseMods_limit h
        obtain ⟨rest, hsecond, h⟩ := parseMods_offset h
        rw [hfirst, hsecond]
        exact parseMods_done h
      | true =>
        obtain ⟨rest, hfirst, h⟩ := parseMods_offset h
        obtain ⟨rest, hsecond, h⟩ := parseMods_limit h
        rw [hfirst, hsecond]
        exact parseMods_done h

/-- The verbs of a query. -/
def Query.verbs (q : Query) : List Verb := (q.triple :: q.triples).map Triple.verb

/-- The tokens from the first triple on. -/
def Query.bodyTokens (q : Query) : List Token :=
  blockTokens q.dot q.triple q.triples ++ .mark .rightBrace :: q.mods.tokens

/-- What the parser does after the triples. -/
def afterBlock (columns : List String) (read : List TriplePattern × List Char) :
    Except SparqlError (Sparql.Query × List Char) := do
  let rest ← expectChar '\x7d' read.2
  let ((limit, offset), rest) ← parseMods 2 none 0 rest
  return (⟨columns, read.1, limit, offset⟩, rest)

/-- Every triple of a block takes a token, so the tokens are enough as fuel. -/
theorem length_blockTokens (dot : Bool) (t : Triple) (triples : List Triple) :
    triples.length + 3 ≤ (blockTokens dot t triples).length := by
  induction triples generalizing t with
  | nil => simp [blockTokens, Triple.tokens]
  | cons next triples ih =>
    have hle := ih next
    simp only [blockTokens, Triple.tokens, List.length_append, List.length_cons, List.length_nil]
    omega

/-- Modifiers hold no names that a dot could go on with. -/
theorem plain_mods (m : Mods) : ∀ e ∈ m.tokens, Plain e := by
  have hkeyword : ∀ (kw : Keyword) (n : Option UInt64), ∀ e ∈ modTokens kw n, Plain e := by
    intro kw n e he c
    cases n with
    | none => cases he
    | some n =>
      simp only [modTokens, List.mem_cons, List.not_mem_nil, or_false] at he
      rcases he with rfl | rfl <;> simp
  intro e he
  rw [Mods.tokens] at he
  split at he
  · exact (List.mem_append.mp he).elim (hkeyword _ _ e) (hkeyword _ _ e)
  · exact (List.mem_append.mp he).elim (hkeyword _ _ e) (hkeyword _ _ e)

/-- The clauses before the triples are read. -/
theorem parseQuery_front (hR : lexis.Reading Plain R) {q : Query} (h : R q.tokens text) :
    ∃ rest, parseQuery text =
      (parseTripleBlock (namespaces q.prefixes) rest.length rest >>= afterBlock q.select.columns) ∧
        R q.bodyTokens rest ∧ q.triples.length + 2 ≤ rest.length := by
  have hprefixes : q.prefixes.length < text.length := by
    have hle := (hR.printed h).length_le
    have hparts := Lexis.length_le_flatMap (f := Prefix.tokens) (by simp [Prefix.tokens]) q.prefixes
    rw [Query.tokens, List.length_append, List.length_cons] at hle
    omega
  obtain ⟨r₁, hfirst, h⟩ := parsePrefixes_reads ∅ hR hprefixes h
  obtain ⟨r₂, hselect, h⟩ := hR.next (by simp [Plain]) h
  obtain ⟨r₃, hcolumns, h⟩ := parseSelect_reads hR h
  obtain ⟨r₄, hwhere, h⟩ := hR.next (by simp [Plain]) h
  obtain ⟨r₅, hbrace, h, -⟩ := mark_next hR h
  have hbody : q.triples.length + 2 ≤ r₅.length := by
    have hle := (hR.printed h).length_le
    have hblock := length_blockTokens q.dot q.triple q.triples
    rw [List.length_append] at hle
    omega
  have hselect' : expectKeyword "SELECT" r₁ = .ok r₂ := by
    have hsome : tryKeyword "SELECT" (skipWs r₁) = some r₂ := expectKeyword_next .select hselect
    rw [expectKeyword, hsome]
  have hwhere' : expectKeyword "WHERE" r₃ = .ok r₄ := by
    have hsome : tryKeyword "WHERE" (skipWs r₃) = some r₄ := expectKeyword_next .where hwhere
    rw [expectKeyword, hsome]
  have hbrace' : expectChar '\x7b' r₄ = .ok r₅ := expectChar_next (m := .leftBrace) hbrace
  refine ⟨r₅, ?_, h, hbody⟩
  simp only [parseQuery, hfirst, hselect', hcolumns, hwhere', hbrace', ok_bind]
  rfl

/-- The clauses after the triples are read. -/
theorem afterBlock_printed {q : Query} (triples : List TriplePattern)
    (h : lexis.Printed (.mark .rightBrace :: q.mods.tokens) text) :
    ∃ rest, afterBlock q.select.columns (triples, text) = .ok ({ q.denote with triples }, rest) ∧
      skipWs rest = [] := by
  obtain ⟨r', hbrace, h, -⟩ := mark_next Lexis.reading_printed h
  obtain ⟨rest, hmods, hdone⟩ := parseMods_printed h
  have hbrace' : expectChar '\x7d' text = .ok r' := expectChar_next (m := .rightBrace) hbrace
  refine ⟨rest, ?_, hdone⟩
  simp only [afterBlock, hbrace', hmods, ok_bind]
  rfl

/-- A query is read up to the objects that take a dot with them. -/
theorem parseQuery_laid {q : Query} {S : TriplePattern → TriplePattern → Prop} (hrefl : ∀ a, S a a)
    (hQ : ∀ c ts rest, Q (.curie c) ts rest → rest.head? = some '.' →
      ts.tail.head? = some (.mark .rightBrace) ∧ ∀ a b, Alike a b → S a b)
    (hverbs : ∀ v ∈ q.verbs, ¬v.ReadAsKeyword) (h : lexis.Laid Q q.tokens text) :
    ∃ triples rest, parseQuery text = .ok ({ q.denote with triples }, rest) ∧
      List.Forall₂ S triples q.denote.triples ∧ skipWs rest = [] := by
  obtain ⟨rest, hparse, h, hbound⟩ := parseQuery_front Lexis.reading_laid h
  obtain ⟨triples, rest, hblock, hread, h⟩ := parseTripleBlock_laid
    (namespaces q.prefixes) hrefl hQ hbound (fun t ht => hverbs t.verb (List.mem_map_of_mem ht)) h
  obtain ⟨rest, hafter, hdone⟩ := afterBlock_printed triples h.printed
  exact ⟨triples, rest, by rw [hparse, hblock, ok_bind, hafter], hread, hdone⟩

/-- Any other printed query goes wrong in its triples. -/
theorem parseQuery_breaks {q : Query} (hQ : OnlyDots Q) (hstop : ∀ x ts, Stops x → O x ts)
    (hcons : ∀ x a ts, O x ts → O (x >>= fun y => pure (a :: y.1, y.2)) (a :: ts))
    (hlast : ∀ c r, ¬Q (.curie c) (.mark .dot :: .mark .rightBrace :: q.mods.tokens) r →
      r.head? = some '.' → ∀ s p rest,
        O (.ok ([⟨s, p, expand (namespaces q.prefixes) c.ns (c.name.chars ++ ['.'])⟩], rest))
          [⟨s, p, c.denote (namespaces q.prefixes)⟩])
    (h : lexis.Printed q.tokens text)
    (hbad : (∃ v ∈ q.verbs, v.ReadAsKeyword) ∨ lexis.Breaks Q q.tokens text) :
    ∃ x, parseQuery text = x >>= afterBlock q.select.columns ∧ O x q.denote.triples := by
  obtain ⟨v, hv, hverb⟩ | hbreaks := hbad
  · obtain ⟨t, ht, rfl⟩ := List.mem_map.mp hv
    obtain ⟨rest, hparse, h, hbound⟩ := parseQuery_front Lexis.reading_printed h
    exact ⟨_, hparse, parseTripleBlock_breaks hQ hstop hcons hlast (plain_mods _) (by omega) h
      (Or.inl ⟨t, ht, hverb⟩)⟩
  · obtain ⟨rest, hparse, h, hbound⟩ := parseQuery_front (reading_breaks hQ) hbreaks
    exact ⟨_, hparse, parseTripleBlock_breaks hQ hstop hcons hlast (plain_mods _) (by omega)
      h.printed (Or.inr h)⟩

/-- Without a layout that the parser takes the query is no query for it. -/
theorem parseQuery_stops {q : Query} (h : lexis.Printed q.tokens text)
    (hbad : (∃ v ∈ q.verbs, v.ReadAsKeyword) ∨ lexis.Breaks ApartInside q.tokens text) :
    Stops (parseQuery text) := by
  obtain ⟨x, hparse, hx⟩ := parseQuery_breaks (O := fun x _ => Stops x) onlyDots_apartInside
    (fun _ _ h => h) (fun _ _ _ h => h.bind _)
    (fun c r hlayout _ => absurd (fun _ _ => rfl) hlayout) h hbad
  rw [hparse]
  exact hx.bind _

/-- With a dot at its end a name is another name. -/
theorem expand_ne (ns : Option Ident) (name : List Char) :
    expand declared ns (name ++ ['.']) ≠ expand declared ns name := by
  have hlist : ∀ base : List Char, base ++ (name ++ ['.']) ≠ base ++ name := by
    intro base heq
    have hlength := congrArg List.length heq
    simp at hlength
  rw [expand, expand]
  cases declared[String.ofList (nsChars ns)]? with
  | some base =>
    intro heq
    have hchars := congrArg String.toList (Sparql.Term.iri.inj heq)
    simp only [String.toList_append, String.toList_ofList] at hchars
    exact hlist _ hchars
  | none =>
    intro heq
    have hchars := congrArg String.toList (Sparql.Term.localName.inj heq)
    simp only [String.toList_ofList] at hchars
    exact hlist [] hchars

/-- A CURIE that takes a dot with it is not read as it is. -/
theorem parseQuery_ne {q : Query} (h : lexis.Breaks Apart q.tokens text) (rest : List Char) :
    parseQuery text ≠ .ok (q.denote, rest) := by
  obtain ⟨x, hparse, hx⟩ := parseQuery_breaks (O := fun x ts => ∀ rest, x ≠ .ok (ts, rest))
    onlyDots_apart
    (fun x ts hstops rest heq => by
      obtain ⟨error, herror, -⟩ := hstops
      rw [herror] at heq
      cases heq)
    (fun x a ts hx rest heq => by
      cases x with
      | error e => cases heq
      | ok y =>
        obtain ⟨hts, -⟩ := Prod.mk.inj (Except.ok.inj heq)
        exact hx y.2 (by rw [← (List.cons.inj hts).2]))
    (fun c r _ _ s p rest rest' heq => by
      have hobject := (List.cons.inj (Prod.mk.inj (Except.ok.inj heq)).1).1
      exact expand_ne _ _ (TriplePattern.mk.inj hobject).2.2)
    h.printed (Or.inr h)
  rw [hparse]
  intro heq
  cases x with
  | error e => cases heq
  | ok y =>
    obtain ⟨triples, rest'⟩ := y
    have htriples : triples = q.denote.triples := by
      rw [ok_bind, afterBlock] at heq
      cases hclose : expectChar '\x7d' rest' with
      | error e => rw [hclose] at heq; cases heq
      | ok r₁ =>
        rw [hclose, ok_bind] at heq
        cases hmods : parseMods 2 none 0 r₁ with
        | error e => rw [hmods] at heq; cases heq
        | ok m =>
          rw [hmods] at heq
          exact congrArg Sparql.Query.triples (Prod.mk.inj (Except.ok.inj heq)).1
    exact hx rest' (by rw [htriples])

end Syntax

end Sparql

end AtomrOntology
