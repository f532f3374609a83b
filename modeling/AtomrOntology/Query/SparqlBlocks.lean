import AtomrOntology.Query.SparqlTriples

/-!
# The parser reads graph patterns

A graph pattern is read as it is written if no CURIE is followed directly by a dot. Before
another triple the parser misses the dot that it took for a part of a name; before the closing
brace it does not need one.
-/

namespace AtomrOntology

namespace Sparql

open Cypher (Ident ok_bind)

namespace Syntax

variable {text r r' : List Char} {declared : BTreeMap String String} {bound : Nat} {t : Triple}
  {ts us : List Token}

/-- No CURIE is followed directly by a dot. -/
def Apart (e : Token) (_ : List Token) (rest : List Char) : Prop :=
  (∃ c, e = .curie c) → rest.head? ≠ some '.'

/-- No CURIE is followed directly by a dot, unless it is the dot before the closing brace. -/
def ApartInside (e : Token) (ts : List Token) (rest : List Char) : Prop :=
  (∃ c, e = .curie c) → rest.head? = some '.' → ts.tail.head? = some (.mark .rightBrace)

variable {Q : Token → List Token → List Char → Prop}

/-- A condition on dots that follow directly. -/
def OnlyDots (Q : Token → List Token → List Char → Prop) : Prop :=
  ∀ e ts rest, ((∃ c, e = .curie c) → rest.head? ≠ some '.') → Q e ts rest

theorem onlyDots_apart : OnlyDots Apart := fun _ _ _ h => h

theorem onlyDots_apartInside : OnlyDots ApartInside :=
  fun _ _ _ h hc hdot => absurd hdot (h hc)

/-- The first triple of a laid out block is found, and followed as the condition says. -/
theorem Triple.at_of_laid (h : lexis.Laid Q (t.tokens ++ ts) text) :
    ∃ r, t.At text r ∧ Q t.object.token ts r ∧ lexis.Laid Q ts r := by
  obtain ⟨r₁, hs, -, h⟩ := h.next
  obtain ⟨r₂, hp, -, h⟩ := h.next
  obtain ⟨r, ho, hlayout, h⟩ := h.next
  exact ⟨r, ⟨r₁, r₂, hs, hp, ho⟩, hlayout, h⟩

/-- The first triple of a printed block is found. -/
theorem Triple.at_of_printed (h : lexis.Printed (t.tokens ++ ts) text) :
    ∃ r, t.At text r ∧ lexis.Printed ts r := by
  obtain ⟨r₁, hs, h⟩ := h.next_token
  obtain ⟨r₂, hp, h⟩ := h.next_token
  obtain ⟨r, ho, h⟩ := h.next_token
  exact ⟨r, ⟨r₁, r₂, hs, hp, ho⟩, h⟩

/-- A condition on dots fails at the object of a triple or later. -/
theorem Triple.at_of_breaks (hQ : OnlyDots Q) (h : lexis.Breaks Q (t.tokens ++ ts) text) :
    ∃ r, t.At text r ∧ lexis.Printed ts r ∧ (¬Q t.object.token ts r ∨ lexis.Breaks Q ts r) := by
  obtain ⟨r₁, hs, ⟨hlayout, h⟩ | ⟨-, h⟩⟩ := h.next
  · obtain ⟨r₂, hp, -⟩ := h.next_token
    exact absurd (hQ _ _ _ fun _ => head_ne_dot hp t.verb.token_ne_dot) hlayout
  obtain ⟨r₂, hp, ⟨hlayout, h⟩ | ⟨-, h⟩⟩ := h.next
  · obtain ⟨r, ho, -⟩ := h.next_token
    exact absurd (hQ _ _ _ fun _ => head_ne_dot ho t.object.token_ne_dot) hlayout
  obtain ⟨r, ho, ⟨hlayout, h⟩ | ⟨-, h⟩⟩ := h.next
  · exact ⟨r, ⟨r₁, r₂, hs, hp, ho⟩, h, Or.inl hlayout⟩
  · exact ⟨r, ⟨r₁, r₂, hs, hp, ho⟩, h.printed, Or.inr h⟩

/-- Without CURIEs there is nothing to break. -/
theorem not_breaks_of_plain (hQ : OnlyDots Q) (hplain : ∀ e ∈ ts, ∀ c, e ≠ .curie c) :
    ¬lexis.Breaks Q ts text := by
  intro h
  induction h with
  | here hgap hs hends hlayout hrest =>
    exact hlayout (hQ _ _ _ fun ⟨c, hc⟩ => absurd hc (hplain _ List.mem_cons_self c))
  | there hgap hs hends hlayout hrest ih =>
    exact ih fun e he => hplain e (List.mem_cons_of_mem _ he)

/-- A token that is no CURIE. -/
def Plain (e : Token) : Prop := ∀ c, e ≠ .curie c

/-- Whatever the condition on dots, other tokens are read one by one. -/
theorem reading_breaks (hQ : OnlyDots Q) : lexis.Reading Plain (lexis.Breaks Q) :=
  Lexis.reading_breaks fun _ _ _ he => hQ _ _ _ fun ⟨c, hc⟩ => absurd hc (he c)

variable {R : List Token → List Char → Prop}

/-- What starts with a mark still does after the blanks before it. -/
theorem mark_next {m : Mark} (hR : lexis.Reading Plain R) (h : R (.mark m :: us) text) :
    ∃ r', lexis.Next (.mark m) text r' ∧ R us r' ∧ R (.mark m :: us) (m.char :: r') := by
  obtain ⟨r', hnext, hrest⟩ := hR.next (by simp [Plain]) h
  have hskip := hR.skip h
  obtain ⟨s, hdrop, hs, hends⟩ := hnext
  rw [hdrop] at hskip
  cases hs
  exact ⟨r', ⟨[m.char], hdrop, .mark m, hends⟩, hrest, hskip⟩

/-- A dot that follows directly. -/
theorem eq_dot_of_head (h : lexis.Next (.mark .dot) r r') (hdot : r.head? = some '.') :
    r = '.' :: r' := by
  obtain ⟨s, hdrop, hs, -⟩ := h
  cases hs
  obtain ⟨cs, rfl⟩ : ∃ cs, r = '.' :: cs := by
    cases r with
    | nil => cases hdot
    | cons c cs => exact ⟨cs, by rw [Option.some.inj hdot]⟩
  exact congrArg ('.' :: ·) (List.cons.inj hdrop).2

/-- No name goes on before a closing brace. -/
theorem not_local_before_brace (h : lexis.Next (.mark .rightBrace) r r') :
    ∀ c ∈ r.head?, isLocalChar c = false := by
  obtain ⟨s, hdrop, hs, -⟩ := h
  cases hs
  intro c hc
  cases r with
  | nil => cases hc
  | cons d ds =>
    obtain rfl := Option.some.inj hc
    by_cases hblank : isAsciiWhitespace d = true
    · have hink : ¬IsInk d := fun hink => by simp [hink.not_blank] at hblank
      have hcont : isIdentContinue d = false := by
        by_contra hc
        exact hink (isInk_of_isIdentContinue (by simpa using hc))
      have hdot : d ≠ '.' := by
        rintro rfl
        exact absurd hblank (by decide)
      have hdash : d ≠ '-' := by
        rintro rfl
        exact absurd hblank (by decide)
      simp [isLocalChar, hcont, hdot, hdash]
    · rw [show lexis.blank = isAsciiWhitespace from rfl, List.dropWhile_cons,
        if_neg hblank] at hdrop
      obtain ⟨rfl, -⟩ := List.cons.inj hdrop
      decide

/-- The dot before the closing brace is taken alone. -/
theorem tight_last {r'' : List Char} (hnext : lexis.Next (.mark .dot) r r')
    (hdot : r.head? = some '.')
    (hbrace : lexis.Next (.mark .rightBrace) r' r'') :
    r.takeWhile isLocalChar = ['.'] ∧ r.dropWhile isLocalChar = r' := by
  have hlocal := not_local_before_brace hbrace
  rw [eq_dot_of_head hnext hdot, List.takeWhile_cons, List.dropWhile_cons, if_pos (by decide),
    if_pos (by decide)]
  exact ⟨congrArg ('.' :: ·) (List.takeWhile_of_head hlocal),
    List.dropWhile_of_head hlocal⟩

/-- The same triple up to the text of a constant object. -/
structure Alike (a b : TriplePattern) : Prop where
  subject : a.subject = b.subject
  verb : a.verb = b.verb
  var : a.object.asVar = b.object.asVar
  constant : a.object.label.isSome = b.object.label.isSome

/-- A triple is like itself. -/
theorem Alike.refl (a : TriplePattern) : Alike a a := ⟨rfl, rfl, rfl, rfl⟩

/-- A name is no variable, and it has a label. -/
theorem expand_label (ns : Option Ident) (name : List Char) :
    (expand declared ns name).asVar = none ∧ (expand declared ns name).label.isSome = true := by
  rw [expand]
  cases declared[String.ofList (nsChars ns)]? <;> exact ⟨rfl, rfl⟩

/-- Triples are read as they are, or up to the last object if a dot may follow it directly. -/
theorem parseTripleBlock_laid (declared : BTreeMap String String)
    {S : TriplePattern → TriplePattern → Prop} (hrefl : ∀ a, S a a)
    (hQ : ∀ c ts rest, Q (.curie c) ts rest → rest.head? = some '.' →
      ts.tail.head? = some (.mark .rightBrace) ∧ ∀ a b, Alike a b → S a b)
    {dot : Bool} {t : Triple} {triples : List Triple} (hbound : triples.length + 2 ≤ bound)
    (hverbs : ∀ t' ∈ t :: triples, ¬t'.verb.ReadAsKeyword)
    (h : lexis.Laid Q (blockTokens dot t triples ++ .mark .rightBrace :: us) text) :
    ∃ read rest, parseTripleBlock declared bound text = .ok (read, rest) ∧
      List.Forall₂ S read ((t :: triples).map (Triple.denote declared)) ∧
        lexis.Laid Q (.mark .rightBrace :: us) rest := by
  induction triples generalizing t text bound with
  | nil =>
    obtain ⟨bound, rfl⟩ : ∃ k, bound = k + 2 := ⟨bound - 2, by simp at hbound; omega⟩
    rw [blockTokens, List.append_assoc] at h
    obtain ⟨r, hat, hlayout, h⟩ := Triple.at_of_laid h
    rw [parseTripleBlock_at hat (hverbs t List.mem_cons_self)]
    obtain ⟨r₁, r₂, -, -, ho⟩ := hat
    cases dot with
    | false =>
      obtain ⟨r', hnext, -, hrest⟩ := mark_next Lexis.reading_laid h
      rw [t.object.not_local ho hnext fun _ _ => head_ne_dot hnext (by simp),
        afterTriple_brace hnext]
      exact ⟨_, _, rfl, .cons (hrefl _) .nil, hrest⟩
    | true =>
      obtain ⟨r', hnext, h, -⟩ := mark_next Lexis.reading_laid h
      obtain ⟨r'', hbrace, -, hrest⟩ := mark_next Lexis.reading_laid h
      by_cases htight : (∃ c, t.object = .curie c) ∧ r.head? = some '.'
      · obtain ⟨⟨c, hobject⟩, hdot⟩ := htight
        rw [hobject] at hlayout
        have hS := (hQ c _ _ hlayout hdot).2
        rw [hobject, Term.read, (tight_last hnext hdot hbrace).2, afterTriple_brace hbrace]
        refine ⟨_, _, rfl, .cons (hS _ _ ⟨rfl, rfl, ?_, ?_⟩) .nil, hrest⟩
        · rw [Triple.denote, hobject, Term.denote, Curie.denote_eq, (expand_label _ _).1,
            (expand_label _ _).1]
        · rw [Triple.denote, hobject, Term.denote, Curie.denote_eq, (expand_label _ _).2,
            (expand_label _ _).2]
      · rw [t.object.not_local ho hnext fun c hc hdot => htight ⟨⟨c, hc⟩, hdot⟩,
          afterTriple_dot hnext,
          parseTripleBlock, skipWs_mark hbrace]
        exact ⟨_, _, rfl, .cons (hrefl _) .nil, hrest⟩
  | cons next triples ih =>
    obtain ⟨bound, rfl⟩ : ∃ k, bound = k + 1 := ⟨bound - 1, by omega⟩
    rw [List.length_cons] at hbound
    rw [blockTokens, List.append_assoc, List.cons_append] at h
    obtain ⟨r, hat, hlayout, h⟩ := Triple.at_of_laid h
    rw [parseTripleBlock_at hat (hverbs t List.mem_cons_self)]
    obtain ⟨r₁, r₂, -, -, ho⟩ := hat
    obtain ⟨r', hnext, h, -⟩ := mark_next Lexis.reading_laid h
    have hloose : ∀ c, t.object = .curie c → r.head? ≠ some '.' := by
      intro c hobject hdot
      rw [hobject] at hlayout
      have hhead := (hQ c _ _ hlayout hdot).1
      cases triples with
      | nil => exact absurd (Option.some.inj hhead) (by cases next.subject <;> simp [Term.token])
      | cons _ _ =>
        exact absurd (Option.some.inj hhead) (by cases next.subject <;> simp [Term.token])
    obtain ⟨read, rest, hparse, hread, hrest⟩ := @ih _ bound _ (by omega)
      (fun t' ht' => hverbs t' (List.mem_cons_of_mem t ht')) h
    rw [t.object.not_local ho hnext hloose, afterTriple_dot hnext, hparse]
    exact ⟨_, rest, rfl, .cons (hrefl _) hread, hrest⟩

/-- After a dot that was taken for a part of a name there is no end of a triple. -/
theorem afterTriple_tight {t : TriplePattern} {u : Term} (hnext : lexis.Next (.mark .dot) r r')
    (hdot : r.head? = some '.') (hu : lexis.Next u.token r' rest) :
    Stops (afterTriple declared bound t (r.dropWhile isLocalChar)) := by
  rw [eq_dot_of_head hnext hdot, List.dropWhile_cons, if_pos (by decide)]
  obtain ⟨hnodot, hnobrace⟩ := u.skipWs_head hu
  have hstays : (∀ c ∈ r'.head?, isLocalChar c = false) →
      Stops (afterTriple declared bound t (r'.dropWhile isLocalChar)) := by
    intro hlocal
    have hdrop : r'.dropWhile isLocalChar = r' :=
      List.dropWhile_of_head hlocal
    rw [hdrop]
    exact afterTriple_stops hnodot hnobrace
  cases hr : r' with
  | nil => exact hr ▸ hstays (by simp [hr])
  | cons d ds =>
    rw [← hr]
    by_cases hlocal : isLocalChar d = true
    · -- the term is a CURIE with a prefix, which is taken as well
      have hblank : isAsciiWhitespace d = false := by
        by_contra hc
        rw [Bool.not_eq_false] at hc
        simp only [isAsciiWhitespace, Bool.or_eq_true, beq_iff_eq] at hc
        rcases hc with (((rfl | rfl) | rfl) | rfl) | rfl <;> revert hlocal <;> decide
      obtain ⟨s, hdrop, hs, -⟩ := hu
      rw [hr, show lexis.blank = isAsciiWhitespace from rfl, List.dropWhile_cons,
        if_neg (by simp [hblank])] at hdrop
      cases u with
      | var v =>
        cases hs
        obtain ⟨rfl, -⟩ := List.cons.inj hdrop
        exact absurd hlocal (by decide)
      | iri i =>
        cases hs
        obtain ⟨rfl, -⟩ := List.cons.inj hdrop
        exact absurd hlocal (by decide)
      | curie c =>
        cases hs
        rw [List.append_assoc, List.cons_append] at hdrop
        have hall : ∀ e ∈ nsChars c.ns, isLocalChar e = true := by
          intro e he
          simp [isLocalChar, nsChars_continue c.ns e he]
        have hcolon : ∀ e ∈ (':' :: (c.name.chars ++ rest)).head?, isLocalChar e = false := by
          intro e he
          obtain rfl := Option.some.inj he
          decide
        rw [hr, hdrop, List.dropWhile_token hall hcolon]
        have hskip : skipWs (':' :: (c.name.chars ++ rest)) = ':' :: (c.name.chars ++ rest) := rfl
        exact afterTriple_stops (by rw [hskip]; simp) (by rw [hskip]; simp)
    · exact hstays (by simpa [hr] using hlocal)

variable {O : Except SparqlError (List TriplePattern × List Char) → List TriplePattern → Prop}

/-- How reading a block goes wrong: at a verb that is read as the keyword, or at a CURIE that
takes a dot with it, before another triple or at the end. -/
theorem parseTripleBlock_breaks (hQ : OnlyDots Q) (hstop : ∀ x ts, Stops x → O x ts)
    (hcons : ∀ x a ts, O x ts → O (x >>= fun y => pure (a :: y.1, y.2)) (a :: ts))
    (hlast : ∀ c r, ¬Q (.curie c) (.mark .dot :: .mark .rightBrace :: us) r → r.head? = some '.' →
      ∀ s p rest, O (.ok ([⟨s, p, expand declared c.ns (c.name.chars ++ ['.'])⟩], rest))
        [⟨s, p, c.denote declared⟩])
    (hplain : ∀ e ∈ us, Plain e) {dot : Bool} {t : Triple} {triples : List Triple}
    (hbound : triples.length < bound)
    (h : lexis.Printed (blockTokens dot t triples ++ .mark .rightBrace :: us) text)
    (hbad : (∃ t' ∈ t :: triples, t'.verb.ReadAsKeyword) ∨
      lexis.Breaks Q (blockTokens dot t triples ++ .mark .rightBrace :: us) text) :
    O (parseTripleBlock declared bound text) ((t :: triples).map (Triple.denote declared)) := by
  induction triples generalizing t text bound with
  | nil =>
    obtain ⟨bound, rfl⟩ : ∃ k, bound = k + 1 := ⟨bound - 1, by omega⟩
    rw [blockTokens, List.append_assoc] at h hbad
    by_cases hverb : t.verb.ReadAsKeyword
    · obtain ⟨r, hat, -⟩ := Triple.at_of_printed h
      exact hstop _ _ (parseTripleBlock_keyword hat hverb)
    obtain ⟨t', ht', hbad⟩ | hbreaks := hbad
    · exact absurd (List.mem_singleton.mp ht' ▸ hbad) hverb
    obtain ⟨r, hat, h, hlayout | hbreaks⟩ := Triple.at_of_breaks hQ hbreaks
    · have htight : (∃ c, t.object = .curie c) ∧ r.head? = some '.' := by
        by_contra hloose
        exact hlayout (hQ _ _ _ fun hc hdot => hloose ⟨hc.imp fun c => Term.eq_curie, hdot⟩)
      obtain ⟨⟨c, hobject⟩, hdot⟩ := htight
      cases dot with
      | false =>
        obtain ⟨r', hnext, -⟩ := mark_next Lexis.reading_printed h
        exact absurd hdot (head_ne_dot hnext (by simp))
      | true =>
        obtain ⟨r', hnext, h, -⟩ := mark_next Lexis.reading_printed h
        obtain ⟨r'', hbrace, -⟩ := mark_next Lexis.reading_printed h
        obtain ⟨htake, hdrop⟩ := tight_last hnext hdot hbrace
        rw [hobject] at hlayout
        rw [parseTripleBlock_at hat hverb, hobject, Term.read, htake, hdrop,
          afterTriple_brace hbrace,
          List.map_singleton, Triple.denote, hobject]
        exact hlast c r hlayout hdot _ _ _
    · refine absurd hbreaks (not_breaks_of_plain hQ fun e he => ?_)
      cases dot with
      | true =>
        simp only [if_true, List.singleton_append, List.mem_cons] at he
        obtain rfl | rfl | he := he
        · simp
        · simp
        · exact hplain e he
      | false =>
        simp only [Bool.false_eq_true, if_false, List.nil_append, List.mem_cons] at he
        obtain rfl | he := he
        · simp
        · exact hplain e he
  | cons next triples ih =>
    obtain ⟨bound, rfl⟩ : ∃ k, bound = k + 1 := ⟨bound - 1, by omega⟩
    rw [List.length_cons] at hbound
    rw [blockTokens, List.append_assoc, List.cons_append] at h hbad
    by_cases hverb : t.verb.ReadAsKeyword
    · obtain ⟨r, hat, -⟩ := Triple.at_of_printed h
      exact hstop _ _ (parseTripleBlock_keyword hat hverb)
    -- a dot that is taken with the object is missed before the next triple
    have hstep : ∀ {r r'}, t.At text r → lexis.Next (.mark .dot) r r' →
        lexis.Printed (blockTokens dot next triples ++ .mark .rightBrace :: us) r' →
        (¬((∃ c, t.object = .curie c) ∧ r.head? = some '.') →
          O (parseTripleBlock declared bound r') ((next :: triples).map (Triple.denote declared))) →
        O (parseTripleBlock declared (bound + 1) text)
          ((t :: next :: triples).map (Triple.denote declared)) := by
      intro r r' hat hnext h hlater
      rw [parseTripleBlock_at hat hverb]
      obtain ⟨r₁, r₂, -, -, ho⟩ := hat
      by_cases htight : (∃ c, t.object = .curie c) ∧ r.head? = some '.'
      · obtain ⟨⟨c, hobject⟩, hdot⟩ := htight
        obtain ⟨r'', hu⟩ : ∃ r'', lexis.Next next.subject.token r' r'' := by
          cases triples with
          | nil =>
            obtain ⟨r'', hu, -⟩ := h.next_token
            exact ⟨r'', hu⟩
          | cons _ _ =>
            obtain ⟨r'', hu, -⟩ := h.next_token
            exact ⟨r'', hu⟩
        rw [hobject]
        exact hstop _ _ (afterTriple_tight hnext hdot hu)
      · rw [t.object.not_local ho hnext fun c hc hdot => htight ⟨⟨c, hc⟩, hdot⟩,
          afterTriple_dot hnext]
        exact hcons _ _ _ (hlater htight)
    obtain ⟨t', ht', hbad⟩ | hbreaks := hbad
    · obtain rfl | ht' := List.mem_cons.mp ht'
      · exact absurd hbad hverb
      · obtain ⟨r, hat, h⟩ := Triple.at_of_printed h
        obtain ⟨r', hnext, h, -⟩ := mark_next Lexis.reading_printed h
        exact hstep hat hnext h fun _ => ih (by omega) h (Or.inl ⟨t', ht', hbad⟩)
    · obtain ⟨r, hat, h, hlayout | hbreaks⟩ := Triple.at_of_breaks hQ hbreaks
      · obtain ⟨r', hnext, h, -⟩ := mark_next Lexis.reading_printed h
        refine hstep hat hnext h fun hloose => absurd (hQ _ _ _ fun hc hdot => ?_) hlayout
        exact absurd ⟨hc.imp fun c => Term.eq_curie, hdot⟩ hloose
      · obtain ⟨r', hnext, h, -⟩ := mark_next (reading_breaks hQ) hbreaks
        exact hstep hat hnext h.printed fun _ => ih (by omega) h.printed (Or.inr h)

end Syntax

end Sparql

end AtomrOntology
