import AtomrOntology.Logic.Printing
import AtomrOntology.Rdf.Turtle

/-!
# Texts that the Turtle parser reads back

A term that is followed by a blank is read whole, whatever comes after it. Clauses made of
such terms are put together to statements, and statements to documents, without looking
into the parser again.
-/

namespace AtomrOntology

/-- An ASCII character is one byte. -/
theorem bytesAsChars_of_ascii {c : Char} (h : c.toNat < 128) : bytesAsChars c = [c] := by
  have hsize : c.utf8Size = 1 := by
    rw [Char.utf8Size_eq_one_iff, UInt32.le_iff_toNat_le]
    exact Nat.le_of_lt_succ h
  have henc : utf8 (.singleton c) = String.utf8EncodeChar c := by
    simp [utf8, List.utf8Encode]
  have hbyte : c.val.toUInt8.toNat = c.toNat := by
    rw [UInt32.toNat_toUInt8]
    exact Nat.mod_eq_of_lt (h.trans (by decide))
  rw [bytesAsChars, henc, String.utf8EncodeChar_eq_singleton hsize, List.map_singleton, hbyte,
    Char.ofNat_toNat]

namespace Turtle

/-- A parser takes a text for a value if a blank follows, and leaves the rest. -/
structure Reads {α : Type} (p : List Char → Except ParseError (α × List Char))
    (text : List Char) (value : α) : Prop where
  starts : ∃ c ∈ text.head?, isWhitespace c = false ∧ c ≠ '#'
  reads : ∀ rest, p (text ++ ' ' :: rest) = .ok (value, ' ' :: rest)

/-- Nothing is skipped before ink. -/
theorem skipWs_append {text : List Char} (rest : List Char)
    (h : ∃ c ∈ text.head?, isWhitespace c = false ∧ c ≠ '#') :
    skipWs (text ++ rest) = text ++ rest := by
  obtain ⟨c, hc, hws, hne⟩ := h
  cases text with
  | nil => cases hc
  | cons d text =>
    cases Option.mem_some_iff.mp hc
    simp [skipWs, hws, hne]

/-- Skipping blanks twice is skipping them once. -/
@[simp] theorem skipWs_skipWs (cs : List Char) : skipWs (skipWs cs) = skipWs cs :=
  List.dropWhile_idempotent _ cs

@[simp] theorem skipWs_space (cs : List Char) : skipWs (' ' :: cs) = skipWs cs := rfl

@[simp] theorem skipWs_newline (cs : List Char) : skipWs ('\n' :: cs) = skipWs cs := rfl

section

variable (pre base : String) (rest : List Char)

/-- The text of a directive after its keyword. -/
theorem parsePrefix_line (hpre : ':' ∉ pre.toList)
    (hstarts : ∃ c ∈ pre.toList.head?, isWhitespace c = false ∧ c ≠ '#')
    (htrim : trimChars pre.toList = pre.toList) (hbase : '>' ∉ base.toList) :
    parsePrefix (' ' :: pre.toList ++ ": <".toList ++ base.toList ++ "> .\n".toList ++ rest) =
      .ok ((pre, ⟨base⟩), '\n' :: rest) := by
  have htext : ' ' :: pre.toList ++ ": <".toList ++ base.toList ++ "> .\n".toList ++ rest =
      ' ' :: (pre.toList ++ ':' :: ' ' ::
        (['<'] ++ (base.toList ++ '>' :: ' ' :: (['.'] ++ '\n' :: rest)))) := by
    simp
  have hopen : ∀ r, skipWs (' ' :: (['<'] ++ r)) = ['<'] ++ r := by
    intro r
    have hstarts : ∃ c ∈ ['<'].head?, isWhitespace c = false ∧ c ≠ '#' :=
      ⟨'<', rfl, by simp [isWhitespace], by decide⟩
    exact skipWs_append r hstarts
  have hdot : ∀ r, skipWs (' ' :: (['.'] ++ r)) = ['.'] ++ r := by
    intro r
    have hstarts : ∃ c ∈ ['.'].head?, isWhitespace c = false ∧ c ≠ '#' :=
      ⟨'.', rfl, by simp [isWhitespace], by decide⟩
    exact skipWs_append r hstarts
  rw [htext, parsePrefix, skipWs_space, skipWs_append _ hstarts, splitOnce_append _ hpre]
  simp only [hopen, stripPrefix_append, splitOnce_append _ hbase, hdot, htrim,
    String.ofList_toList]

theorem keyword_line :
    "@prefix ".toList ++ pre.toList ++ ": <".toList ++ base.toList ++ "> .\n".toList ++ rest =
      "@prefix".toList ++
        (' ' :: pre.toList ++ ": <".toList ++ base.toList ++ "> .\n".toList ++ rest) := by
  have hkeyword : "@prefix ".toList = "@prefix".toList ++ [' '] := by
    simp only [String.reduceToList, List.cons_append, List.nil_append]
  rw [hkeyword]
  -- the literal texts are not to be computed
  generalize "@prefix".toList = keyword
  generalize ": <".toList = open'
  generalize "> .\n".toList = close
  simp only [List.append_assoc, List.cons_append, List.nil_append]

variable (vocab : Vocabulary)

/-- An empty line before directives does not matter. -/
theorem parseDirectives_newline :
    parseDirectives vocab ('\n' :: rest) = parseDirectives vocab rest := by
  rw [parseDirectives_eq, parseDirectives_eq, skipWs_newline]

/-- The line of a directive binds a prefix. -/
theorem parseDirectives_line (hpre : ':' ∉ pre.toList)
    (hstarts : ∃ c ∈ pre.toList.head?, isWhitespace c = false ∧ c ≠ '#')
    (htrim : trimChars pre.toList = pre.toList) (hbase : '>' ∉ base.toList) :
    parseDirectives vocab ("@prefix ".toList ++ pre.toList ++ ": <".toList ++ base.toList ++
      "> .\n".toList ++ rest) = parseDirectives (vocab.bind pre ⟨base⟩) rest := by
  have hat : ∃ c ∈ "@prefix".toList.head?, isWhitespace c = false ∧ c ≠ '#' :=
    ⟨'@', by simp, by simp [isWhitespace], by decide⟩
  rw [keyword_line, parseDirectives_eq, skipWs_append _ hat, stripPrefix_append]
  simp only [parsePrefix_line pre base rest hpre hstarts htrim hbase]
  exact parseDirectives_newline rest _

/-- What does not start with a directive is left to the statements. -/
theorem parseDirectives_body {body : List Char}
    (h : stripPrefix "@prefix".toList (skipWs body) = none) :
    parseDirectives vocab body = .ok (vocab, skipWs body) := by
  rw [parseDirectives_eq, h]

end

section

variable {vocab : Vocabulary}

/-- An IRI in angle brackets ends with its bracket. -/
theorem parseTerm_angle {iri : List Char} (rest : List Char) (h : '>' ∉ iri) :
    parseIriOrCurieOrBlank vocab ('<' :: (iri ++ '>' :: rest)) =
      .ok (.iri ⟨.ofList iri⟩, rest) := by
  have hopen : stripPrefix ['<'] ('<' :: (iri ++ '>' :: rest)) = some (iri ++ '>' :: rest) :=
    stripPrefix_append ['<'] _
  rw [parseIriOrCurieOrBlank, hopen]
  simp only [splitOnce_append _ h]

/-- An IRI in angle brackets. -/
theorem reads_angle {iri : List Char} (h : '>' ∉ iri) :
    Reads (parseIriOrCurieOrBlank vocab) ('<' :: iri ++ ['>']) (.iri ⟨.ofList iri⟩) := by
  refine ⟨⟨'<', rfl, by decide, by decide⟩, ?_⟩
  intro rest
  have htext : '<' :: iri ++ ['>'] ++ ' ' :: rest = '<' :: (iri ++ '>' :: ' ' :: rest) := by
    simp
  rw [htext]
  exact parseTerm_angle _ h

theorem endsToken_head_space (rest : List Char) :
    ∀ c ∈ (' ' :: rest).head?, (!endsToken c) = false := by
  intro c hc
  obtain rfl := Option.some.inj hc
  rfl

/-- A token is taken up to the blank after it. -/
theorem takeWhile_token {token rest : List Char} (h : ∀ c ∈ token, endsToken c = false) :
    (token ++ ' ' :: rest).takeWhile (!endsToken ·) = token :=
  List.takeWhile_token (fun c hc => by rw [h c hc]; rfl) (endsToken_head_space rest)

/-- What is left is the blank and what follows. -/
theorem dropWhile_token {token rest : List Char} (h : ∀ c ∈ token, endsToken c = false) :
    (token ++ ' ' :: rest).dropWhile (!endsToken ·) = ' ' :: rest :=
  List.dropWhile_token (fun c hc => by rw [h c hc]; rfl) (endsToken_head_space rest)

/-- A blank node. -/
theorem reads_blank {label : List Char} (h : ∀ c ∈ label, endsToken c = false) :
    Reads (parseIriOrCurieOrBlank vocab) ('_' :: ':' :: label) (.blank (.ofList label)) := by
  refine ⟨⟨'_', rfl, by decide, by decide⟩, ?_⟩
  intro rest
  have hangle : stripPrefix ['<'] ('_' :: ':' :: label ++ ' ' :: rest) = none := by
    simp [stripPrefix]
  have hblank : stripPrefix ['_', ':'] ('_' :: ':' :: label ++ ' ' :: rest) =
      some (label ++ ' ' :: rest) := stripPrefix_append ['_', ':'] _
  rw [parseIriOrCurieOrBlank, hangle, hblank]
  simp only [takeWhile_token h, dropWhile_token h]

/-- A prefixed name of a bound prefix ends where its token does. -/
theorem parseTerm_curie (first : Char) (pre : List Char) {loc : List Char} {base : Iri}
    (hfirst : first ≠ '<' ∧ first ≠ '_')
    (hcolon : ':' ∉ first :: pre) (hpre : ∀ c ∈ first :: pre, endsToken c = false)
    (hbase : vocab.namespaces[String.ofList (first :: pre)]? = some base)
    (hloc : ∀ c ∈ loc, endsToken c = false) {rest : List Char}
    (hrest : ∀ c ∈ rest.head?, (!endsToken c) = false) :
    parseIriOrCurieOrBlank vocab (first :: pre ++ ':' :: loc ++ rest) =
      .ok (.iri ⟨base.value ++ .ofList loc⟩, rest) := by
  have htoken : ∀ c ∈ first :: pre ++ ':' :: loc, (!endsToken c) = true := by
    intro c hc
    rw [Bool.not_eq_true']
    rcases List.mem_append.mp hc with hc | hc
    · exact hpre c hc
    · rcases List.mem_cons.mp hc with rfl | hc
      · decide
      · exact hloc c hc
  have hangle : stripPrefix ['<'] (first :: pre ++ ':' :: loc ++ rest) = none := by
    simp [stripPrefix, Ne.symm hfirst.1]
  have hblank : stripPrefix ['_', ':'] (first :: pre ++ ':' :: loc ++ rest) = none := by
    simp [stripPrefix, Ne.symm hfirst.2]
  rw [parseIriOrCurieOrBlank, hangle, hblank]
  simp only [List.takeWhile_token htoken hrest, List.dropWhile_token htoken hrest,
    splitOnce_append _ hcolon, hbase]

/-- A prefixed name of a bound prefix. -/
theorem reads_curie (first : Char) (pre : List Char) {loc : List Char} {base : Iri}
    (hfirst : first ≠ '<' ∧ first ≠ '_' ∧ first ≠ '#')
    (hcolon : ':' ∉ first :: pre) (hpre : ∀ c ∈ first :: pre, endsToken c = false)
    (hbase : vocab.namespaces[String.ofList (first :: pre)]? = some base)
    (hloc : ∀ c ∈ loc, endsToken c = false) :
    Reads (parseIriOrCurieOrBlank vocab) (first :: pre ++ ':' :: loc)
      (.iri ⟨base.value ++ .ofList loc⟩) := by
  have hws : isWhitespace first = false := by
    have hends := hpre first List.mem_cons_self
    simp only [endsToken, Bool.or_eq_false_iff] at hends
    exact hends.1.1.1
  refine ⟨⟨first, rfl, hws, hfirst.2.2⟩, ?_⟩
  intro rest
  exact parseTerm_curie first pre ⟨hfirst.1, hfirst.2.1⟩ hcolon hpre hbase hloc
    (endsToken_head_space rest)

/-- A term that does not start with a quote is read as an object. -/
theorem Reads.object {text : List Char} {term : Subject}
    (h : Reads (parseIriOrCurieOrBlank vocab) text term) (hquote : text.head? ≠ some '"') :
    Reads (parseObject vocab) text term.toObject := by
  refine ⟨h.starts, ?_⟩
  intro rest
  have hnone : stripPrefix ['"'] (text ++ ' ' :: rest) = none := by
    obtain ⟨c, hc, -, -⟩ := h.starts
    cases text with
    | nil => cases hc
    | cons d text => simpa [stripPrefix, eq_comm] using hquote
  rw [parseObject, hnone, h.reads]
  rfl

/-- An IRI that does not start with an `a` is read as a predicate. -/
theorem Reads.predicate {text : List Char} {iri : Iri}
    (h : Reads (parseIriOrCurieOrBlank vocab) text (.iri iri)) (ha : text.head? ≠ some 'a') :
    Reads (parsePredicate vocab) text iri := by
  refine ⟨h.starts, ?_⟩
  intro rest
  have hnone : stripPrefix ['a'] (text ++ ' ' :: rest) = none := by
    obtain ⟨c, hc, -, -⟩ := h.starts
    cases text with
    | nil => cases hc
    | cons d text => simpa [stripPrefix, eq_comm] using ha
  rw [parsePredicate, hnone, h.reads]
  rfl

/-- `a` is `rdf:type`. -/
theorem reads_a : Reads (parsePredicate vocab) ['a'] rdfType := by
  refine ⟨⟨'a', rfl, by decide, by decide⟩, ?_⟩
  intro rest
  rw [parsePredicate, stripPrefix_append]
  rfl

/-- A text of ASCII characters without quotes and backslashes is its own escaped form. -/
theorem literalBody_plain {lexical : List Char} (rest : List Char)
    (h : ∀ c ∈ lexical, c.toNat < 128 ∧ c ≠ '\\' ∧ c ≠ '"') :
    literalBody (lexical ++ '"' :: rest) = .ok (lexical, rest) := by
  induction lexical with
  | nil =>
    rw [List.nil_append, literalBody.eq_def]
    rfl
  | cons c lexical ih =>
    obtain ⟨hascii, hback, hquote⟩ := h c List.mem_cons_self
    rw [List.cons_append, literalBody.eq_def]
    simp only [hback, hquote, ↓reduceIte]
    rw [ih fun d hd => h d (List.mem_cons_of_mem c hd), bytesAsChars_of_ascii hascii]
    rfl

/-- A literal with a datatype. -/
theorem reads_typedLiteral {lexical dt : List Char} {datatype : Iri}
    (h : ∀ c ∈ lexical, c.toNat < 128 ∧ c ≠ '\\' ∧ c ≠ '"')
    (hdt : Reads (parseIriOrCurieOrBlank vocab) dt (.iri datatype)) :
    Reads (parseObject vocab) ('"' :: lexical ++ '"' :: '^' :: '^' :: dt)
      (.literal (.ofList lexical) datatype none) := by
  refine ⟨⟨'"', rfl, by decide, by decide⟩, ?_⟩
  intro rest
  have htext : '"' :: lexical ++ '"' :: '^' :: '^' :: dt ++ ' ' :: rest =
      ['"'] ++ (lexical ++ '"' :: (['^', '^'] ++ (dt ++ ' ' :: rest))) := by
    simp
  have hlang : stripPrefix ['@'] (['^', '^'] ++ (dt ++ ' ' :: rest)) = none := by
    simp [stripPrefix]
  rw [parseObject, htext, stripPrefix_append]
  simp only
  rw [parseLiteral, literalBody_plain _ h]
  simp only [bind, Except.bind]
  rw [hlang, stripPrefix_append]
  simp only [hdt.reads]
  rfl

/-- A predicate and an object with the texts they are read from. -/
structure Clause (vocab : Vocabulary) where
  predicateText : List Char
  objectText : List Char
  predicate : Iri
  object : Object
  readsPredicate : Reads (parsePredicate vocab) predicateText predicate
  readsObject : Reads (parseObject vocab) objectText object

namespace Clause

/-- The text of a clause. -/
def text (c : Clause vocab) : List Char := c.predicateText ++ ' ' :: c.objectText

/-- The triple that a clause states of a subject. -/
def triple (subject : Subject) (c : Clause vocab) : Triple := ⟨subject, c.predicate, c.object⟩

/-- The text of a clause that continues a statement. -/
def continued (c : Clause vocab) : List Char := " ;\n  ".toList ++ c.text

/-- The object of a clause is the only one of its predicate. -/
theorem parseObjects_objectText (c : Clause vocab) (mark : Char) (rest : List Char)
    (hmark : isWhitespace mark = false ∧ mark ≠ '#' ∧ mark ≠ ',') :
    parseObjects vocab (' ' :: c.objectText ++ ' ' :: mark :: rest) =
      .ok ([c.object], mark :: rest) := by
  have hskip : skipWs (' ' :: c.objectText ++ ' ' :: mark :: rest) =
      c.objectText ++ ' ' :: mark :: rest := by
    rw [List.cons_append, skipWs_space, skipWs_append _ c.readsObject.starts]
  have hrest : skipWs (' ' :: mark :: rest) = mark :: rest := by
    rw [skipWs_space]
    have hstarts : ∃ c ∈ [mark].head?, isWhitespace c = false ∧ c ≠ '#' :=
      ⟨mark, rfl, hmark.1, hmark.2.1⟩
    exact skipWs_append rest hstarts
  have hcomma : stripPrefix [','] (mark :: rest) = none := by
    simp [stripPrefix, Ne.symm hmark.2.2]
  rw [parseObjects_eq, hskip, c.readsObject.reads]
  simp only [bind, Except.bind, hrest, hcomma]
  rfl

/-- The predicate of a clause is read back. -/
theorem parsePredicate_text (c : Clause vocab) (before rest : List Char)
    (hbefore : ∀ d ∈ before, isWhitespace d) :
    parsePredicate vocab (skipWs (before ++ (c.text ++ rest))) =
      .ok (c.predicate, ' ' :: c.objectText ++ rest) := by
  have hskip : skipWs (before ++ (c.text ++ rest)) =
      c.predicateText ++ ' ' :: (c.objectText ++ rest) := by
    have htext : c.text ++ rest = c.predicateText ++ ' ' :: (c.objectText ++ rest) := by
      simp [text]
    rw [skipWs, List.dropWhile_append_of_pos, htext]
    · exact skipWs_append _ c.readsPredicate.starts
    · intro d hd
      rw [hbefore d hd]
      rfl
  rw [hskip, c.readsPredicate.reads]
  rfl

/-- Clauses that follow each other are read up to the final dot. -/
theorem parsePredicates_text (subject : Subject) (c : Clause vocab) (cs : List (Clause vocab))
    (before rest : List Char) (hbefore : ∀ d ∈ before, isWhitespace d) :
    parsePredicates vocab subject
        (before ++ (c.text ++ (cs.flatMap continued ++ (" .\n".toList ++ rest)))) =
      .ok (c.triple subject :: cs.map (triple subject), '\n' :: rest) := by
  induction cs generalizing c before with
  | nil =>
    rw [parsePredicates_eq, parsePredicate_text c _ _ hbefore]
    have hobjects := c.parseObjects_objectText '.' ('\n' :: rest) (by decide)
    have hdot : stripPrefix ['.'] ('.' :: '\n' :: rest) = some ('\n' :: rest) :=
      stripPrefix_append ['.'] _
    have hsemicolon : stripPrefix [';'] ('.' :: '\n' :: rest) = none := by
      simp [stripPrefix]
    have htext : ([] : List (Clause vocab)).flatMap continued ++ (" .\n".toList ++ rest) =
        ' ' :: '.' :: '\n' :: rest := rfl
    rw [htext]
    simp only [bind, Except.bind, hobjects, hsemicolon, hdot]
    rfl
  | cons d cs ih =>
    rw [parsePredicates_eq, parsePredicate_text c _ _ hbefore]
    have hobjects := c.parseObjects_objectText ';'
      (['\n', ' ', ' '] ++ (d.text ++ (cs.flatMap continued ++ (" .\n".toList ++ rest))))
        (by decide)
    have hmore := ih d ['\n', ' ', ' '] (by simp [isWhitespace])
    have hsemicolon : ∀ r, stripPrefix [';'] (';' :: r) = some r := stripPrefix_append [';']
    have htext : (d :: cs).flatMap continued ++ (" .\n".toList ++ rest) = ' ' :: ';' ::
        (['\n', ' ', ' '] ++ (d.text ++ (cs.flatMap continued ++ (" .\n".toList ++ rest)))) := by
      simp [continued]
    rw [htext]
    simp only [bind, Except.bind, hobjects, hsemicolon, hmore]
    rfl

end Clause

/-- A text continues a statement with predicates and their objects. -/
def Continues (vocab : Vocabulary) (text : List Char) (clauses : List (Iri × Object)) : Prop :=
  ∃ cs : List (Clause vocab), text = cs.flatMap Clause.continued ∧
    clauses = cs.map fun c => (c.predicate, c.object)

namespace Continues

theorem nil : Continues vocab [] [] := ⟨[], rfl, rfl⟩

theorem singleton (c : Clause vocab) :
    Continues vocab c.continued [(c.predicate, c.object)] :=
  ⟨[c], (List.flatMap_singleton _ c).symm, rfl⟩

/-- Clauses go on one after another. -/
theorem append {t₁ t₂ : List Char} {ps₁ ps₂ : List (Iri × Object)} (h₁ : Continues vocab t₁ ps₁)
    (h₂ : Continues vocab t₂ ps₂) : Continues vocab (t₁ ++ t₂) (ps₁ ++ ps₂) := by
  obtain ⟨cs₁, rfl, rfl⟩ := h₁
  obtain ⟨cs₂, rfl, rfl⟩ := h₂
  exact ⟨cs₁ ++ cs₂, List.flatMap_append.symm, List.map_append.symm⟩

/-- So do many of them. -/
theorem flatMap {ι : Type} {xs : List ι} {text : ι → List Char} {clause : ι → Iri × Object}
    (h : ∀ x ∈ xs, Continues vocab (text x) [clause x]) :
    Continues vocab (xs.flatMap text) (xs.map clause) := by
  induction xs with
  | nil => exact nil
  | cons x xs ih =>
    rw [List.flatMap_cons, List.map_cons]
    exact (h x List.mem_cons_self).append (ih fun y hy => h y (List.mem_cons_of_mem x hy))

end Continues

/-- A text adds triples to a document, whatever comes after it. -/
def States (vocab : Vocabulary) (text : List Char) (triples : List Triple) : Prop :=
  ∀ rest, parseStatements vocab (text ++ rest) =
    (parseStatements vocab rest).map (triples ++ ·)

namespace States

theorem nil : States vocab [] [] := by
  intro rest
  rw [List.nil_append]
  cases parseStatements vocab rest <;> rfl

theorem append {t₁ t₂ : List Char} {ts₁ ts₂ : List Triple} (h₁ : States vocab t₁ ts₁)
    (h₂ : States vocab t₂ ts₂) : States vocab (t₁ ++ t₂) (ts₁ ++ ts₂) := by
  intro rest
  rw [List.append_assoc, h₁, h₂]
  cases parseStatements vocab rest with
  | error e => rfl
  | ok ts => simp [Except.map]

theorem flatMap {ι : Type} {xs : List ι} {text : ι → List Char} {triples : ι → List Triple}
    (h : ∀ x ∈ xs, States vocab (text x) (triples x)) :
    States vocab (xs.flatMap text) (xs.flatMap triples) := by
  induction xs with
  | nil => exact nil
  | cons x xs ih =>
    rw [List.flatMap_cons, List.flatMap_cons]
    exact (h x List.mem_cons_self).append (ih fun y hy => h y (List.mem_cons_of_mem x hy))

/-- An empty line states nothing. -/
theorem newline : States vocab ['\n'] [] := by
  intro rest
  have hskip : skipWs (['\n'] ++ rest) = skipWs rest := rfl
  rw [parseStatements_eq, hskip, ← parseStatements_eq]
  cases parseStatements vocab rest <;> rfl

/-- A subject and its clauses. -/
theorem statement {subjectText text : List Char} {subject : Subject}
    {clauses : List (Iri × Object)}
    (hsubject : Reads (parseIriOrCurieOrBlank vocab) subjectText subject) (c : Clause vocab)
    (h : Continues vocab text clauses) :
    States vocab (subjectText ++ ' ' :: c.text ++ text ++ " .\n".toList)
      (((c.predicate, c.object) :: clauses).map fun p => ⟨subject, p.1, p.2⟩) := by
  obtain ⟨cs, rfl, rfl⟩ := h
  intro rest
  have htext : subjectText ++ ' ' :: c.text ++ cs.flatMap Clause.continued ++ " .\n".toList ++
      rest = subjectText ++ ' ' ::
        (c.text ++ (cs.flatMap Clause.continued ++ (" .\n".toList ++ rest))) := by
    simp
  have hne : subjectText ++ ' ' ::
      (c.text ++ (cs.flatMap Clause.continued ++ (" .\n".toList ++ rest))) ≠ [] := by
    simp
  have hclauses := c.parsePredicates_text subject cs [' '] rest (by simp [isWhitespace])
  have hline : parseStatements vocab ('\n' :: rest) = _ := newline rest
  rw [List.singleton_append] at hclauses
  rw [htext, parseStatements_eq, skipWs_append _ hsubject.starts, if_neg hne, parseTriples,
    hsubject.reads]
  simp only [bind, Except.bind, hclauses, hline]
  have htriples : (fun c : Clause vocab => c.triple subject) =
      (fun p => ⟨subject, p.1, p.2⟩) ∘ fun c : Clause vocab => (c.predicate, c.object) := rfl
  rw [List.map_cons, List.map_map, ← htriples]
  cases parseStatements vocab rest <;> rfl

end States

end

end Turtle

end AtomrOntology
