import AtomrOntology.Rdf.Lines
import AtomrOntology.Rdf.TurtleWriter

/-!
# Which projections survive Turtle?

The writer leaves IRIs as they are, in angle brackets or under a prefix, and the reader
makes a character of every byte of a literal. A term that is not read as itself is read as
another term, so a document comes back exactly if each of its terms does.
-/

namespace AtomrOntology

/-- Subjects are told apart as objects. -/
theorem Subject.toObject_injective : Function.Injective Subject.toObject := by
  intro s s' h
  cases s <;> cases s' <;> cases h <;> rfl

namespace Turtle

section

variable (cs rest : List Char)

/-- A name ends before a blank. -/
theorem takeWhile_space :
    (cs ++ ' ' :: rest).takeWhile (!endsToken ·) = cs.takeWhile (!endsToken ·) := by
  induction cs with
  | nil => rfl
  | cons c cs ih => rw [List.cons_append, List.takeWhile_cons, List.takeWhile_cons, ih]

theorem dropWhile_space :
    (cs ++ ' ' :: rest).dropWhile (!endsToken ·) = cs.dropWhile (!endsToken ·) ++ ' ' :: rest := by
  induction cs with
  | nil => rfl
  | cons c cs ih =>
    rw [List.cons_append, List.dropWhile_cons, List.dropWhile_cons, ih]
    split <;> rfl

end

/-- A parser reads a text as its value if a condition holds. Otherwise whatever it reads is
another value. -/
structure ReadsIff {α : Type} (p : List Char → Except ParseError (α × List Char))
    (text : List Char) (value : α) (good : Prop) : Prop where
  starts : ∃ c ∈ text.head?, isWhitespace c = false ∧ c ≠ '#'
  reads : good → ∀ rest, p (text ++ ' ' :: rest) = .ok (value, ' ' :: rest)
  only : ∀ rest after, p (text ++ ' ' :: rest) = .ok (value, after) → good

namespace ReadsIff

variable {α : Type} {p : List Char → Except ParseError (α × List Char)} {text : List Char}
  {value : α} {good : Prop}

theorem toReads (h : ReadsIff p text value good) (hgood : good) : Reads p text value :=
  ⟨h.starts, h.reads hgood⟩

/-- A value that is read leaves what follows its text. -/
theorem rest_eq (h : ReadsIff p text value good) {rest after : List Char}
    (hread : p (text ++ ' ' :: rest) = .ok (value, after)) : good ∧ after = ' ' :: rest := by
  have hgood := h.only rest after hread
  have hwhole := h.reads hgood rest
  rw [hread] at hwhole
  exact ⟨hgood, congrArg Prod.snd (Except.ok.inj hwhole)⟩

end ReadsIff

section

variable (vocab : Vocabulary)

/-- The local name of an IRI under the first namespace that fits. -/
def localOf (iri : Iri) : Option (List Char) := vocab.iter.findSome? fun ns => localUnder ns.2 iri

/-- An IRI whose text ends where the reader takes it to end: its local name has no mark, or
without a namespace there is no bracket in it. -/
def Spelled (iri : Iri) : Prop :=
  match localOf vocab iri with
  | some loc => ∀ c ∈ loc, endsToken c = false
  | none => '>' ∉ iri.value.toList

instance : DecidablePred (Spelled vocab) := fun iri =>
  match hlocal : localOf vocab iri with
  | some loc => decidable_of_iff (loc.all fun c => !endsToken c) (by simp [Spelled, hlocal])
  | none => decidable_of_iff ('>' ∉ iri.value.toList) (by simp [Spelled, hlocal])

/-- A label whose text ends where the reader takes it to end. -/
def Unmarked (label : String) : Prop := ∀ c ∈ label.toList, endsToken c = false

def SpelledSubject : Subject → Prop
  | .iri iri => Spelled vocab iri
  | .blank label => Unmarked label

/-- An object whose text is read as itself. The datatype of a plain string is not written,
and the reader gives every literal with a language the same one. -/
def SpelledObject : Object → Prop
  | .iri iri => Spelled vocab iri
  | .blank label => Unmarked label
  | .literal lexical datatype language =>
    (∀ c ∈ lexical.toList, c.toNat < 128) ∧
      match language with
      | some lang => datatype = langString ∧ Unmarked lang
      | none => datatype = xsdString ∨ Spelled vocab datatype

/-- A triple whose text is read as itself. -/
structure SpelledTriple (t : Triple) : Prop where
  subject : SpelledSubject vocab t.subject
  predicate : Spelled vocab t.predicate
  object : SpelledObject vocab t.object

end

section

variable {vocab : Vocabulary}

/-- The first prefix that fits is bound. -/
theorem FirstFit.bound {iri : Iri} {pre : String} {base : Iri} {loc : List Char}
    (h : FirstFit vocab iri pre base loc) : vocab.namespaces[pre]? = some base :=
  Std.ExtTreeMap.mem_toList_iff_getElem?_eq_some.mp h.mem_iter

/-- A local name is what is left after the first base that fits. -/
theorem localOf_eq_some {iri : Iri} {pre : String} {base : Iri} {loc : List Char}
    (h : FirstFit vocab iri pre base loc) : localOf vocab iri = some loc := by
  obtain ⟨before, after, hiter, hbefore⟩ := h.first
  refine List.findSome?_eq_some_iff.mpr ⟨before, (pre, base), after, hiter, ?_, ?_⟩
  · exact localUnder_eq_some.mpr ⟨h.splits, h.plain⟩
  · intro ns hns
    exact localUnder_eq_none.mpr (hbefore ns hns)

/-- Without a base that fits there is none. -/
theorem localOf_eq_none {iri : Iri} (h : ∀ pre base loc, ¬FirstFit vocab iri pre base loc) :
    localOf vocab iri = none := by
  cases hlocal : localOf vocab iri with
  | none => rfl
  | some loc =>
    obtain ⟨before, ns, after, hiter, hns, hbefore⟩ := List.findSome?_eq_some_iff.mp hlocal
    obtain ⟨hsplits, hplain⟩ := localUnder_eq_some.mp hns
    refine absurd ⟨hsplits, hplain, before, after, hiter, ?_⟩ (h ns.1 ns.2 loc)
    intro ns' hns'
    exact localUnder_eq_none.mp (hbefore ns' hns')

/-- The first two characters of an IRI's text. A lone `a` is not among them. -/
theorem pushIri_head (hnames : LetterPrefixes vocab) (iri : Iri) : ∃ c d cs,
    pushIri vocab iri = c :: d :: cs ∧ (c = '<' ∨ c.isAlpha ∧ isWhitespace d = false) := by
  rcases pushIri_cases vocab iri with ⟨-, htext⟩ | ⟨pre, base, loc, hfit⟩
  · cases hiri : iri.value.toList with
    | nil => exact ⟨'<', '>', [], by rw [htext, hiri]; rfl, Or.inl rfl⟩
    | cons d cs => exact ⟨'<', d, cs ++ ['>'], by rw [htext, hiri]; rfl, Or.inl rfl⟩
  · obtain ⟨hne, hletters⟩ := hnames _ hfit.mem_iter
    rw [hfit.pushIri]
    simp only at hne hletters
    cases hpre : pre.toList with
    | nil => exact absurd (String.toList_eq_nil_iff.mp hpre) hne
    | cons c pre' =>
      rw [hpre] at hletters
      have hc := hletters c List.mem_cons_self
      cases pre' with
      | nil => exact ⟨c, ':', loc, rfl, Or.inr ⟨hc, by decide⟩⟩
      | cons d pre' =>
        have hd := hletters d (List.mem_cons_of_mem c List.mem_cons_self)
        exact ⟨c, d, pre' ++ ':' :: loc, rfl, Or.inr ⟨hc, isWhitespace_of_isAlpha hd⟩⟩

/-- A written IRI starts with ink. -/
theorem pushIri_starts (hnames : LetterPrefixes vocab) (iri : Iri) :
    ∃ c ∈ (pushIri vocab iri).head?, isWhitespace c = false ∧ c ≠ '#' := by
  obtain ⟨c, d, cs, htext, hc⟩ := pushIri_head hnames iri
  refine ⟨c, by rw [htext]; rfl, ?_⟩
  rcases hc with rfl | ⟨halpha, -⟩
  · exact ⟨by decide, by decide⟩
  · exact ⟨isWhitespace_of_isAlpha halpha, (ne_of_isAlpha halpha).2.2.2⟩

/-- A prefixed name is taken up to its first mark. -/
theorem parseTerm_cut {pre : String} {base : Iri} {loc : List Char} (rest : List Char)
    (hne : pre ≠ "") (hletters : ∀ c ∈ pre.toList, c.isAlpha)
    (hbound : vocab.namespaces[pre]? = some base) :
    parseIriOrCurieOrBlank vocab (pre.toList ++ (':' :: loc ++ ' ' :: rest)) =
      .ok (.iri ⟨base.value ++ .ofList (loc.takeWhile (!endsToken ·))⟩,
        loc.dropWhile (!endsToken ·) ++ ' ' :: rest) := by
  have hink : ∀ c ∈ pre.toList ++ [':'], (!endsToken c) = true := by
    intro c hc
    rw [Bool.not_eq_true']
    rcases List.mem_append.mp hc with hc | hc
    · exact endsToken_of_isAlpha (hletters c hc)
    · rw [List.mem_singleton.mp hc]
      decide
  have hcolon : ':' ∉ pre.toList := fun hmem => (ne_of_isAlpha (hletters _ hmem)).1 rfl
  have htext : pre.toList ++ (':' :: loc ++ ' ' :: rest) =
      (pre.toList ++ [':']) ++ (loc ++ ' ' :: rest) := by
    simp
  have htake : (pre.toList ++ (':' :: loc ++ ' ' :: rest)).takeWhile (!endsToken ·) =
      pre.toList ++ ':' :: loc.takeWhile (!endsToken ·) := by
    rw [htext, List.takeWhile_append_of_pos hink, takeWhile_space]
    simp
  have hdrop : (pre.toList ++ (':' :: loc ++ ' ' :: rest)).dropWhile (!endsToken ·) =
      loc.dropWhile (!endsToken ·) ++ ' ' :: rest := by
    rw [htext, List.dropWhile_append_of_pos hink, dropWhile_space]
  rw [parseTerm_letters _ hne hletters, htake, hdrop, splitOnce_append _ hcolon]
  simp only [String.ofList_toList, hbound]

/-- The text of an IRI is read as that IRI exactly if it is spelled. -/
theorem readsIff_pushIri (hnames : LetterPrefixes vocab) (iri : Iri) :
    ReadsIff (parseIriOrCurieOrBlank vocab) (pushIri vocab iri) (.iri iri) (Spelled vocab iri) := by
  refine ⟨pushIri_starts hnames iri, ?_, ?_⟩
  · intro hspelled rest
    rcases pushIri_cases vocab iri with ⟨hnone, htext⟩ | ⟨pre, base, loc, hfit⟩
    · rw [Spelled, localOf_eq_none hnone] at hspelled
      have hangle := (@reads_angle vocab _ hspelled).reads rest
      rw [String.ofList_toList] at hangle
      rw [htext]
      exact hangle
    · obtain ⟨hne, hletters⟩ := hnames _ hfit.mem_iter
      rw [Spelled, localOf_eq_some hfit] at hspelled
      rw [hfit.pushIri, List.append_assoc]
      exact (parseTerm_prefixed_iff rest hne hletters hfit.splits).mpr ⟨hfit.bound, hspelled⟩
  · intro rest after hread
    rcases pushIri_cases vocab iri with ⟨hnone, htext⟩ | ⟨pre, base, loc, hfit⟩
    · rw [Spelled, localOf_eq_none hnone]
      have hsplit : splitOnce '>' (iri.value.toList ++ ['>'] ++ ' ' :: rest) =
          some (iri.value.toList, after) := by
        have hopen : stripPrefix ['<'] ('<' :: iri.value.toList ++ ['>'] ++ ' ' :: rest) =
            some (iri.value.toList ++ ['>'] ++ ' ' :: rest) := stripPrefix_append ['<'] _
        rw [htext, parseIriOrCurieOrBlank, hopen] at hread
        simp only at hread
        split at hread
        · next body rest' hsplit =>
          cases hread
          rw [hsplit, String.toList_ofList]
        · cases hread
      exact (splitOnce_some hsplit).1
    · obtain ⟨hne, hletters⟩ := hnames _ hfit.mem_iter
      rw [Spelled, localOf_eq_some hfit]
      rw [hfit.pushIri, List.append_assoc, parseTerm_cut rest hne hletters hfit.bound] at hread
      have hvalue := congrArg (fun r => r.1) (Except.ok.inj hread)
      have hiri := congrArg Iri.value (Subject.iri.inj hvalue)
      have htake : loc.takeWhile (!endsToken ·) = loc := by
        have hlist := String.toList_inj.mpr hiri
        rw [String.toList_append, String.toList_ofList, hfit.splits] at hlist
        exact List.append_cancel_left hlist
      intro c hc
      have hmark := List.takeWhile_eq_self_iff.mp htake c hc
      simpa using hmark

/-- A blank node is read back unless its label holds a mark. -/
theorem readsIff_blank {label : String} :
    ReadsIff (parseIriOrCurieOrBlank vocab) ('_' :: ':' :: label.toList) (.blank label)
      (Unmarked label) := by
  refine ⟨⟨'_', rfl, by decide, by decide⟩, ?_, ?_⟩
  · intro hlabel rest
    have hread := (@reads_blank vocab _ hlabel).reads rest
    rw [String.ofList_toList] at hread
    exact hread
  · intro rest after hread
    have hangle : stripPrefix ['<'] ('_' :: ':' :: label.toList ++ ' ' :: rest) = none := by
      simp [stripPrefix]
    have hblank : stripPrefix ['_', ':'] ('_' :: ':' :: label.toList ++ ' ' :: rest) =
        some (label.toList ++ ' ' :: rest) := stripPrefix_append ['_', ':'] _
    rw [parseIriOrCurieOrBlank, hangle, hblank] at hread
    simp only [takeWhile_space] at hread
    have hvalue := congrArg (fun r => r.1) (Except.ok.inj hread)
    have htake : label.toList.takeWhile (!endsToken ·) = label.toList := by
      have hlabel := String.toList_inj.mpr (Subject.blank.inj hvalue)
      rwa [String.toList_ofList] at hlabel
    intro c hc
    have hmark := List.takeWhile_eq_self_iff.mp htake c hc
    simpa using hmark

/-- A written subject is read back exactly if it is spelled out. -/
theorem readsIff_pushSubject (hnames : LetterPrefixes vocab) (s : Subject) :
    ReadsIff (parseIriOrCurieOrBlank vocab) (pushSubject vocab s) s (SpelledSubject vocab s) := by
  cases s with
  | iri iri => exact readsIff_pushIri hnames iri
  | blank label => exact readsIff_blank

/-- A predicate is never taken for the short form of `rdf:type`. -/
theorem readsIff_predicate (hnames : LetterPrefixes vocab) (iri : Iri) :
    ReadsIff (parsePredicate vocab) (pushIri vocab iri) iri (Spelled vocab iri) := by
  have hterm := readsIff_pushIri hnames iri
  have hlong : ∀ rest after, stripPrefix ['a'] (pushIri vocab iri ++ ' ' :: rest) = some after →
      ¬after.head?.any isWhitespace = true := by
    intro rest after hafter
    obtain ⟨c, d, cs, htext, hc⟩ := pushIri_head hnames iri
    rw [htext, stripPrefix_eq_some] at hafter
    obtain ⟨rfl, hrest⟩ := List.cons.inj hafter
    rcases hc with hangle | ⟨-, hd⟩
    · cases hangle
    · have hhead : after = d :: (cs ++ ' ' :: rest) := hrest.symm
      simp [hhead, hd]
  refine ⟨hterm.starts, ?_, ?_⟩
  · intro hspelled rest
    rw [parsePredicate]
    split
    · next after hafter =>
      rw [if_neg (hlong rest after hafter), hterm.reads hspelled]
      rfl
    · rw [hterm.reads hspelled]
      rfl
  · intro rest after hread
    rcases parsePredicate_cases hread with ⟨ha, hws, -⟩ | ⟨hread, -⟩
    · exact absurd hws (hlong rest after ha)
    · exact hterm.only rest after hread

/-- An escaped character comes back. -/
theorem escape_cases (c : Char) : (NTriples.escape c = [c] ∧ c ≠ '\\' ∧ c ≠ '"') ∨
    ∃ e, NTriples.escape c = ['\\', e] ∧ escaped e = bytesAsChars c := by
  unfold NTriples.escape
  split
  case h_6 hback hquote _ _ _ => exact Or.inl ⟨rfl, hback, hquote⟩
  all_goals
    refine Or.inr ⟨_, rfl, ?_⟩
    rw [bytesAsChars_of_ascii (by decide)]
    simp [escaped, bytesAsChars_of_ascii]

/-- The lexical form of a written literal comes back as its bytes. -/
theorem literalBody_escaped (lexical rest : List Char) :
    literalBody (lexical.flatMap NTriples.escape ++ '"' :: rest) =
      .ok (lexical.flatMap bytesAsChars, rest) := by
  induction lexical with
  | nil =>
    rw [List.flatMap_nil, List.nil_append, literalBody.eq_def]
    rfl
  | cons c lexical ih =>
    rw [List.flatMap_cons, List.append_assoc]
    rcases escape_cases c with ⟨hc, hback, hquote⟩ | ⟨e, hc, hescaped⟩
    · rw [hc, List.singleton_append, literalBody.eq_def]
      simp only [hback, hquote, ↓reduceIte, ih]
      rfl
    · rw [hc, List.cons_append, List.singleton_append, literalBody.eq_def]
      simp only [↓reduceIte, ih, hescaped]
      rfl

/-- The datatype that a term after `^^` gives to a literal. -/
def datatypeOf : Subject → Iri
  | .iri datatype => datatype
  | .blank _ => xsdString

section

variable (vocab) (lexical : String) (rest : List Char)

/-- A literal with a language is read byte by byte, and its language is lost to its type. -/
theorem parseObject_language (datatype : Iri) (lang : String) :
    parseObject vocab (pushObject vocab (.literal lexical datatype (some lang)) ++ ' ' :: rest) =
      .ok (.literal (.ofList (lexical.toList.flatMap bytesAsChars)) langString
        (some (.ofList (lang.toList.takeWhile (!endsToken ·)))),
          lang.toList.dropWhile (!endsToken ·) ++ ' ' :: rest) := by
  have htext : pushObject vocab (.literal lexical datatype (some lang)) ++ ' ' :: rest =
      ['"'] ++ (lexical.toList.flatMap NTriples.escape ++ '"' ::
        (['@'] ++ (lang.toList ++ ' ' :: rest))) := by
    simp [pushObject]
  rw [parseObject, htext, stripPrefix_append]
  simp only
  rw [parseLiteral, literalBody_escaped]
  simp only [bind, Except.bind]
  rw [stripPrefix_append]
  simp only [takeWhile_space, dropWhile_space]
  rfl

/-- A plain literal is read byte by byte. -/
theorem parseObject_string :
    parseObject vocab (pushObject vocab (.literal lexical xsdString none) ++ ' ' :: rest) =
      .ok (.literal (.ofList (lexical.toList.flatMap bytesAsChars)) xsdString none,
        ' ' :: rest) := by
  have htext : pushObject vocab (.literal lexical xsdString none) ++ ' ' :: rest =
      ['"'] ++ (lexical.toList.flatMap NTriples.escape ++ '"' :: ' ' :: rest) := by
    simp [pushObject]
  have hlang : stripPrefix ['@'] (' ' :: rest) = none := by simp [stripPrefix]
  have htyped : stripPrefix ['^', '^'] (' ' :: rest) = none := by simp [stripPrefix]
  rw [parseObject, htext, stripPrefix_append]
  simp only
  rw [parseLiteral, literalBody_escaped]
  simp only [bind, Except.bind, hlang, htyped]
  rfl

/-- A typed literal is read byte by byte, with the IRI of its type. -/
theorem parseObject_typed {datatype : Iri} (hne : datatype ≠ xsdString) :
    parseObject vocab (pushObject vocab (.literal lexical datatype none) ++ ' ' :: rest) =
      (parseIriOrCurieOrBlank vocab (pushIri vocab datatype ++ ' ' :: rest)).map fun r =>
        (.literal (.ofList (lexical.toList.flatMap bytesAsChars)) (datatypeOf r.1) none, r.2) := by
  have htext : pushObject vocab (.literal lexical datatype none) ++ ' ' :: rest =
      ['"'] ++ (lexical.toList.flatMap NTriples.escape ++ '"' ::
        (['^', '^'] ++ (pushIri vocab datatype ++ ' ' :: rest))) := by
    simp [pushObject, hne]
  have hlang : ∀ text, stripPrefix ['@'] (['^', '^'] ++ text) = none := by
    intro text
    simp [stripPrefix]
  rw [parseObject, htext, stripPrefix_append]
  simp only
  rw [parseLiteral, literalBody_escaped]
  simp only [bind, Except.bind, hlang, stripPrefix_append]
  cases parseIriOrCurieOrBlank vocab (pushIri vocab datatype ++ ' ' :: rest) with
  | error e => rfl
  | ok r =>
    obtain ⟨term, after⟩ := r
    cases term <;> rfl

end

/-- The bytes of a text are the text exactly if it is ASCII. -/
theorem ofList_bytesAsChars_iff {lexical : String} :
    String.ofList (lexical.toList.flatMap bytesAsChars) = lexical ↔
      ∀ c ∈ lexical.toList, c.toNat < 128 := by
  rw [← flatMap_bytesAsChars_iff, ← String.toList_inj, String.toList_ofList]

theorem readsIff_literal (hnames : LetterPrefixes vocab) (lexical : String) (datatype : Iri)
    (language : Option String) :
    ReadsIff (parseObject vocab) (pushObject vocab (.literal lexical datatype language))
      (.literal lexical datatype language)
      (SpelledObject vocab (.literal lexical datatype language)) := by
  refine ⟨⟨'"', rfl, by decide, by decide⟩, ?_, ?_⟩
  · rintro ⟨hascii, hkind⟩ rest
    have hlexical := ofList_bytesAsChars_iff.mpr hascii
    cases language with
    | some lang =>
      obtain ⟨rfl, hlang⟩ := hkind
      have hpos : ∀ c ∈ lang.toList, (!endsToken c) = true := by
        intro c hc
        rw [hlang c hc]
        rfl
      rw [parseObject_language, hlexical, List.takeWhile_eq_self_iff.mpr hpos,
        List.dropWhile_eq_nil_iff.mpr hpos, String.ofList_toList]
      rfl
    | none =>
      by_cases hstring : datatype = xsdString
      · rw [hstring, parseObject_string, hlexical]
      · have hread := (readsIff_pushIri hnames datatype).reads (hkind.resolve_left hstring) rest
        rw [parseObject_typed vocab lexical rest hstring, hread, hlexical]
        rfl
  · intro rest after hread
    cases language with
    | some lang =>
      rw [parseObject_language] at hread
      obtain ⟨hobject, -⟩ := Prod.mk.inj (Except.ok.inj hread)
      obtain ⟨hlexical, hdatatype, hlang⟩ := Object.literal.inj hobject
      refine ⟨ofList_bytesAsChars_iff.mp hlexical, hdatatype.symm, ?_⟩
      intro c hc
      have hlist := String.toList_inj.mpr (Option.some.inj hlang)
      rw [String.toList_ofList] at hlist
      simpa using List.takeWhile_eq_self_iff.mp hlist c hc
    | none =>
      by_cases hstring : datatype = xsdString
      · rw [hstring, parseObject_string] at hread
        obtain ⟨hobject, -⟩ := Prod.mk.inj (Except.ok.inj hread)
        exact ⟨ofList_bytesAsChars_iff.mp (Object.literal.inj hobject).1, Or.inl hstring⟩
      · rw [parseObject_typed vocab lexical rest hstring] at hread
        cases hterm : parseIriOrCurieOrBlank vocab (pushIri vocab datatype ++ ' ' :: rest) with
        | error e =>
          rw [hterm] at hread
          cases hread
        | ok r =>
          rw [hterm] at hread
          obtain ⟨hobject, -⟩ := Prod.mk.inj (Except.ok.inj hread)
          obtain ⟨hlexical, hdatatype, -⟩ := Object.literal.inj hobject
          refine ⟨ofList_bytesAsChars_iff.mp hlexical, Or.inr ?_⟩
          obtain ⟨term, after'⟩ := r
          cases term with
          | iri iri =>
            obtain rfl : iri = datatype := hdatatype
            exact (readsIff_pushIri hnames iri).only rest after' hterm
          | blank label => exact absurd hdatatype.symm hstring

theorem readsIff_object {text : List Char} {term : Subject} {good : Prop}
    (h : ReadsIff (parseIriOrCurieOrBlank vocab) text term good) (hquote : text.head? ≠ some '"') :
    ReadsIff (parseObject vocab) text term.toObject good := by
  refine ⟨h.starts, fun hgood => ((h.toReads hgood).object hquote).reads, ?_⟩
  intro rest after hread
  have hnone : stripPrefix ['"'] (text ++ ' ' :: rest) = none := by
    obtain ⟨c, hc, -, -⟩ := h.starts
    cases text with
    | nil => cases hc
    | cons d text => simpa [stripPrefix, eq_comm] using hquote
  rw [parseObject, hnone] at hread
  obtain ⟨⟨term', rest'⟩, hterm, hpure⟩ := bind_eq_ok.mp hread
  obtain ⟨hobject, rfl⟩ := Prod.mk.inj (Except.ok.inj hpure)
  rw [Subject.toObject_injective hobject] at hterm
  exact h.only rest rest' hterm

/-- A written object is read back exactly if it is spelled out. -/
theorem readsIff_pushObject (hnames : LetterPrefixes vocab) (o : Object) :
    ReadsIff (parseObject vocab) (pushObject vocab o) o (SpelledObject vocab o) := by
  cases o with
  | iri iri =>
    refine readsIff_object (readsIff_pushIri hnames iri) ?_
    obtain ⟨c, d, cs, htext, hc⟩ := pushIri_head hnames iri
    rw [htext]
    rcases hc with rfl | ⟨halpha, -⟩
    · simp
    · rintro heq
      cases heq
      revert halpha
      decide
  | blank label => exact readsIff_object readsIff_blank (by simp)
  | literal lexical datatype language => exact readsIff_literal hnames lexical datatype language

/-- The line of a triple. -/
def tripleLine (vocab : Vocabulary) (t : Triple) : List Char :=
  pushTriple vocab t ++ " .\n".toList

/-- The first triple of a statement is made of the first terms that are read. -/
theorem parsePredicates_head {subject : Subject} {cs rest : List Char} {triples : List Triple}
    (h : parsePredicates vocab subject cs = .ok (triples, rest)) :
    ∃ predicate object after after' others,
      parsePredicate vocab (skipWs cs) = .ok (predicate, after) ∧
      parseObject vocab (skipWs after) = .ok (object, after') ∧
      triples = ⟨subject, predicate, object⟩ :: others := by
  rw [parsePredicates_eq] at h
  obtain ⟨⟨predicate, after⟩, hpredicate, h⟩ := bind_eq_ok.mp h
  obtain ⟨⟨objects, after''⟩, hobjects, h⟩ := bind_eq_ok.mp h
  rw [parseObjects_eq] at hobjects
  obtain ⟨⟨object, after'⟩, hobject, hobjects⟩ := bind_eq_ok.mp hobjects
  obtain ⟨others, rfl⟩ : ∃ others, objects = object :: others := by
    simp only at hobjects
    split at hobjects
    · obtain ⟨⟨others, _⟩, -, hpure⟩ := bind_eq_ok.mp hobjects
      cases hpure
      exact ⟨others, rfl⟩
    · cases hobjects
      exact ⟨[], rfl⟩
  simp only at h
  split at h
  · obtain ⟨⟨more, _⟩, -, hpure⟩ := bind_eq_ok.mp h
    cases hpure
    exact ⟨predicate, object, after, after', _, hpredicate, hobject, rfl⟩
  · split at h
    · cases h
      exact ⟨predicate, object, after, after', _, hpredicate, hobject, rfl⟩
    · cases h

/-- A line has the subject, the predicate and the object of a triple. -/
theorem tripleLine_eq (t : Triple) : tripleLine vocab t = pushSubject vocab t.subject ++
    ' ' :: (pushIri vocab t.predicate ++ ' ' :: (pushObject vocab t.object ++ " .\n".toList)) := by
  simp [tripleLine, pushTriple]

/-- The line of a triple that is spelled adds the triple. -/
theorem states_tripleLine (hnames : LetterPrefixes vocab) {t : Triple}
    (h : SpelledTriple vocab t) : States vocab (tripleLine vocab t) [t] := by
  have hsubject := (readsIff_pushSubject hnames t.subject).toReads h.subject
  let clause : Clause vocab := ⟨pushIri vocab t.predicate, pushObject vocab t.object, t.predicate,
    t.object, (readsIff_predicate hnames t.predicate).toReads h.predicate,
    (readsIff_pushObject hnames t.object).toReads h.object⟩
  have hstatement := States.statement hsubject clause Continues.nil
  have htext : pushSubject vocab t.subject ++ ' ' :: clause.text ++ [] ++ " .\n".toList =
      tripleLine vocab t := by
    simp [tripleLine, pushTriple, Clause.text, clause]
  rw [htext] at hstatement
  exact hstatement

/-- A line that is read as its triple first is spelled. -/
theorem spelled_of_head (hnames : LetterPrefixes vocab) {t : Triple} {rest : List Char}
    {others : List Triple}
    (h : parseStatements vocab (tripleLine vocab t ++ rest) = .ok (t :: others)) :
    SpelledTriple vocab t := by
  have hsubject := readsIff_pushSubject hnames t.subject
  have hpredicate := readsIff_predicate hnames t.predicate
  have hobject := readsIff_pushObject hnames t.object
  have htext : tripleLine vocab t ++ rest = pushSubject vocab t.subject ++
      ' ' :: (pushIri vocab t.predicate ++
        ' ' :: (pushObject vocab t.object ++ ' ' :: '.' :: '\n' :: rest)) := by
    simp [tripleLine_eq]
  rw [htext, parseStatements_eq, skipWs_append _ hsubject.starts] at h
  split at h
  · cases h
  · obtain ⟨⟨triples, _⟩, htriples, h⟩ := bind_eq_ok.mp h
    obtain ⟨more, -, hpure⟩ := bind_eq_ok.mp h
    obtain ⟨⟨subject, after⟩, hread, htriples⟩ := bind_eq_ok.mp htriples
    obtain ⟨predicate, object, afterPredicate, afterObject, others', hreadPredicate, hreadObject,
      rfl⟩ := parsePredicates_head htriples
    obtain ⟨rfl, -⟩ := List.cons.inj (Except.ok.inj hpure)
    obtain ⟨hgood, rfl⟩ := hsubject.rest_eq hread
    rw [skipWs_space, skipWs_append _ hpredicate.starts] at hreadPredicate
    obtain ⟨hgood', rfl⟩ := hpredicate.rest_eq hreadPredicate
    rw [skipWs_space, skipWs_append _ hobject.starts] at hreadObject
    exact ⟨hgood, hgood', hobject.only _ _ hreadObject⟩

/-- The lines of triples are read as these triples exactly if each of them is spelled. -/
theorem parseStatements_tripleLines_iff (hnames : LetterPrefixes vocab) {ts : List Triple} :
    parseStatements vocab (ts.flatMap (tripleLine vocab)) = .ok ts ↔
      ∀ t ∈ ts, SpelledTriple vocab t := by
  induction ts with
  | nil => simp [parseStatements_eq, skipWs]
  | cons t ts ih =>
    rw [List.flatMap_cons, List.forall_mem_cons, ← ih]
    have hstates : SpelledTriple vocab t →
        parseStatements vocab (tripleLine vocab t ++ ts.flatMap (tripleLine vocab)) =
          (parseStatements vocab (ts.flatMap (tripleLine vocab))).map ([t] ++ ·) :=
      fun h => states_tripleLine hnames h _
    constructor
    · intro h
      have hspelled := spelled_of_head hnames h
      refine ⟨hspelled, ?_⟩
      rw [hstates hspelled] at h
      cases hrest : parseStatements vocab (ts.flatMap (tripleLine vocab)) with
      | error e =>
        rw [hrest] at h
        cases h
      | ok read =>
        rw [hrest] at h
        exact congrArg Except.ok (List.cons.inj (Except.ok.inj h)).2
    · rintro ⟨hspelled, hrest⟩
      rw [hstates hspelled, hrest]
      rfl

/-- Lines of triples start with a subject, not with a directive. -/
theorem stripPrefix_tripleLines (hnames : LetterPrefixes vocab) (ts : List Triple) :
    stripPrefix "@prefix".toList (skipWs (ts.flatMap (tripleLine vocab))) = none := by
  cases ts with
  | nil => simp [skipWs, stripPrefix]
  | cons t ts =>
    have hhead : ∃ c cs, pushSubject vocab t.subject = c :: cs ∧ c ≠ '@' := by
      cases t.subject with
      | blank label => exact ⟨'_', ':' :: label.toList, rfl, by decide⟩
      | iri iri =>
        obtain ⟨c, d, cs, htext, hc⟩ := pushIri_head hnames iri
        refine ⟨c, d :: cs, htext, ?_⟩
        rintro rfl
        rcases hc with hc | ⟨hc, -⟩
        · cases hc
        · revert hc
          decide
    obtain ⟨c, cs, hsubject, hc⟩ := hhead
    have hstarts := (readsIff_pushSubject hnames t.subject).starts
    rw [List.flatMap_cons, tripleLine_eq, List.append_assoc, skipWs_append _ hstarts, hsubject]
    simp [stripPrefix, Ne.symm hc]

/-- The document of triples is read as these triples exactly if each of them is spelled. -/
theorem parse_document_iff (hnames : LetterPrefixes vocab)
    (hbases : ∀ ns ∈ vocab.iter, '>' ∉ ns.2.value.toList) {gap : List Char} {ts : List Triple}
    (hgap : gap = [] ∨ gap = ['\n']) :
    parse (prefixLines vocab ++ gap ++ ts.flatMap (tripleLine vocab)) = .ok ts ↔
      ∀ t ∈ ts, SpelledTriple vocab t := by
  have hskip : skipWs (gap ++ ts.flatMap (tripleLine vocab)) =
      skipWs (ts.flatMap (tripleLine vocab)) := by
    rcases hgap with rfl | rfl
    · rfl
    · exact skipWs_newline _
  have hbody : stripPrefix "@prefix".toList (skipWs (gap ++ ts.flatMap (tripleLine vocab))) =
      none := by
    rw [hskip]
    exact stripPrefix_tripleLines hnames ts
  have hstatements : parseStatements vocab (skipWs (ts.flatMap (tripleLine vocab))) =
      parseStatements vocab (ts.flatMap (tripleLine vocab)) := by
    rw [parseStatements_eq, skipWs_skipWs, ← parseStatements_eq]
  rw [← parseStatements_tripleLines_iff hnames, ← hstatements, parse, List.append_assoc,
    parseDirectives_prefixLines_append hnames hbases, parseDirectives_body _ hbody, hskip]
  rfl

/-- The name of the string datatype is spelled under every vocabulary: a local name has no
slash, so it is a part of the last segment. -/
theorem spelled_xsdString : Spelled vocab xsdString := by
  rw [Spelled]
  split
  · next loc hloc =>
    obtain ⟨ns, hns, hunder⟩ := List.exists_of_findSome?_eq_some hloc
    obtain ⟨hsplits, -, hslash⟩ := localUnder_eq_some.mp hunder
    have hpath : xsdString.value.toList =
        "http://www.w3.org/2001".toList ++ '/' :: "XMLSchema#string".toList := by
      simp [xsdString]
    rw [hpath] at hsplits
    intro c hc
    have hmem : c ∈ "XMLSchema#string".toList := by
      rcases List.append_eq_append_iff.mp hsplits with ⟨more, -, hmore⟩ | ⟨more, -, hmore⟩
      · cases more with
        | nil =>
          rw [List.nil_append] at hmore
          exact absurd (hmore ▸ List.mem_cons_self) hslash
        | cons d more =>
          have htail := (List.cons.inj hmore).2
          rw [htail]
          exact List.mem_append_right more hc
      · exact absurd (hmore ▸ List.mem_append_right more List.mem_cons_self) hslash
    have hall : ∀ c ∈ "XMLSchema#string".toList, endsToken c = false := by
      simp [endsToken, isWhitespace]
    exact hall c hmem
  · simp [xsdString]

theorem endsToken_digit : ∀ n < 16, endsToken (Hex.digit n) = false := by
  intro n hn
  interval_cases n <;> simp [Hex.digit, endsToken, isWhitespace]

/-- An id is a label without marks. -/
theorem unmarked_toHex {kind : IdKind} (id : Id kind) : Unmarked id.toHex := by
  intro c hc
  rw [Id.toHex, Hex.encode, String.toList_ofList, List.mem_flatMap] at hc
  obtain ⟨b, -, hc⟩ := hc
  have hb := b.toNat_lt
  rcases List.mem_cons.mp hc with rfl | hc
  · exact endsToken_digit _ (by omega)
  · rw [List.mem_singleton.mp hc]
    exact endsToken_digit _ (by omega)

variable [SerdeJson] [RdfText]

/-- A projected triple is spelled if its IRIs are and its literal is ASCII. -/
theorem spelledTriple_iff {o : Ontology} {t : Triple} (h : t ∈ toRdf o) :
    SpelledTriple vocab t ↔
      (∀ iri ∈ NTriples.irisOf t, Spelled vocab iri) ∧ ∀ c ∈ NTriples.literalOf t,
      c.toNat < 128 := by
  have hprojected := NTriples.projected_of_mem_toRdf h
  have hlabel : ∀ label, t.subject = .blank label → Unmarked label := by
    intro label hlabel
    obtain ⟨e, he, rfl⟩ := List.mem_map.mp h
    rcases (NTriples.terms_of_mem_emitted he).1 with ⟨i, hi⟩ | ⟨node, hnode⟩
    · rw [hi] at hlabel
      cases hlabel
    · rw [hnode, nodeSubject] at hlabel
      split at hlabel
      · cases hlabel
      · cases hlabel
        exact unmarked_toHex node.id
  obtain ⟨subject, predicate, object⟩ := t
  have hsubject : SpelledSubject vocab subject ↔
      ∀ iri, subject = .iri iri → Spelled vocab iri := by
    cases subject with
    | iri iri => simp [SpelledSubject]
    | blank label => simpa [SpelledSubject] using hlabel label rfl
  have hobject : SpelledObject vocab object ↔
      (∀ iri, object = .iri iri → Spelled vocab iri) ∧
        ∀ lexical datatype language, object = .literal lexical datatype language →
          Spelled vocab datatype ∧ ∀ c ∈ lexical.toList, c.toNat < 128 := by
    cases object with
    | iri iri => simp [SpelledObject]
    | blank label => exact absurd rfl (hprojected.object label)
    | literal lexical datatype language =>
      cases hprojected.language _ _ _ rfl
      have hstring : datatype = xsdString ∨ Spelled vocab datatype ↔ Spelled vocab datatype :=
        or_iff_right_of_imp fun heq => heq ▸ spelled_xsdString
      simp [SpelledObject, hstring, and_comm]
  have hparts : SpelledTriple vocab ⟨subject, predicate, object⟩ ↔
      SpelledSubject vocab subject ∧ Spelled vocab predicate ∧ SpelledObject vocab object :=
    ⟨fun h => ⟨h.subject, h.predicate, h.object⟩, fun h => ⟨h.1, h.2.1, h.2.2⟩⟩
  rw [hparts, hsubject, hobject]
  cases subject <;> cases object <;> simp [NTriples.irisOf, NTriples.literalOf] <;> tauto

/-- An ontology is read back as its projection exactly if every IRI of the projection is spelled
and every literal is ASCII. -/
theorem parse_write_iff (o : Ontology) (hnames : LetterPrefixes o.projectionVocabulary)
    (hbases : ∀ ns ∈ o.projectionVocabulary.iter, '>' ∉ ns.2.value.toList) :
    parse (write o).toList = .ok (toRdf o) ↔ ∀ t ∈ toRdf o,
      (∀ iri ∈ NTriples.irisOf t, Spelled o.projectionVocabulary iri) ∧
        ∀ c ∈ NTriples.literalOf t, c.toNat < 128 := by
  have hgap : (if prefixLines o.projectionVocabulary = [] then [] else ['\n']) = ([] : List Char) ∨
      (if prefixLines o.projectionVocabulary = [] then [] else ['\n']) = ['\n'] := by
    split
    · exact Or.inl rfl
    · exact Or.inr rfl
  have htext : (write o).toList = prefixLines o.projectionVocabulary ++
      (if prefixLines o.projectionVocabulary = [] then [] else ['\n']) ++
        (toRdf o).flatMap (tripleLine o.projectionVocabulary) := by
    rw [write, String.toList_ofList]
    rfl
  rw [htext, parse_document_iff hnames hbases hgap]
  exact forall₂_congr fun t ht => spelledTriple_iff ht

end

/-- A node with a name that has to be escaped. -/
private def acme : Ontology :=
  Ontology.empty.upsertNode ⟨.filled 1, some ⟨"https://example.org/Acme"⟩, ["org:Organization"],
    (∅ : BTreeMap String PropertyValue).insert "rdfs:label" (.string "The \"Acme\"\tInc.")⟩

/-- It is read back, although it has dots outside of its names. -/
theorem parse_write_acme :
    let _ := SerdeJson.plain
    let _ := RdfText.plain
    parse (write acme).toList = .ok (toRdf acme) := by
  intro _ _
  have hnames : acme.projectionVocabulary.iter.all fun ns =>
      ns.1 ≠ "" && ns.1.toList.all Char.isAlpha := by decide +kernel
  have hspelled : (toRdf acme).all fun t =>
      (NTriples.irisOf t).all (Spelled acme.projectionVocabulary ·) &&
        (NTriples.literalOf t).all (·.toNat < 128) := by decide +kernel
  refine (parse_write_iff acme ?_ (by decide +kernel)).mpr ?_
  · simpa [LetterPrefixes] using hnames
  · simpa using hspelled

end Turtle

end AtomrOntology
