import AtomrOntology.Rdf.ReadsBack

/-!
# The Turtle parser, token by token

The parser skips blanks before each token. Between two tokens it is in a state that says
what it has read and what may come next; what it returns from there depends on the state
and on the text that is left.
-/

namespace AtomrOntology

namespace Turtle

/-- Where the parser stands before it skips blanks and reads a token. -/
inductive State where
  /-- before a directive or the first statement -/
  | directives (vocab : Vocabulary)
  /-- after `@prefix` -/
  | prefixName (vocab : Vocabulary)
  /-- after the name of a prefix and its colon -/
  | prefixBase (vocab : Vocabulary) (pre : String)
  /-- after the base of a prefix -/
  | prefixDot (vocab : Vocabulary) (pre : String) (base : Iri)
  /-- after a statement -/
  | statements (vocab : Vocabulary)
  | predicate (vocab : Vocabulary) (subject : Subject)
  | object (vocab : Vocabulary) (subject : Subject) (predicate : Iri)
  /-- after an object -/
  | listEnd (vocab : Vocabulary) (subject : Subject) (predicate : Iri)

/-- An IRI in angle brackets ends with its bracket; other terms go on to a blank, a dot, a
semicolon or a comma. -/
def closesTerm (cs : List Char) : Bool := cs.head? == some '<'

/-- A literal without a language ends with its quote, or as its datatype does. -/
def closesObject (cs : List Char) : Bool :=
  match stripPrefix ['"'] cs with
  | none => closesTerm cs
  | some body =>
    match literalBody body with
    | .error _ => false
    | .ok (_, rest) =>
      match stripPrefix ['@'] rest with
      | some _ => false
      | none => ((stripPrefix ['^', '^'] rest).map closesTerm).getD true

/-- The parser reads a token of a text without blanks before it. The triples are those it
adds, the flag says whether the token shows where it ends. -/
inductive Moves : State → List Char → List Triple → State → Bool → List Char → Prop
  | keyword {vocab : Vocabulary} {cs rest : List Char}
      (h : stripPrefix "@prefix".toList cs = some rest) :
      Moves (.directives vocab) cs [] (.prefixName vocab) true rest
  | name {vocab : Vocabulary} {cs pre rest : List Char} (h : splitOnce ':' cs = some (pre, rest)) :
      Moves (.prefixName vocab) cs [] (.prefixBase vocab (.ofList (trimChars pre))) true rest
  | base {vocab : Vocabulary} {pre : String} {cs body base rest : List Char}
      (hopen : stripPrefix ['<'] cs = some body) (hclose : splitOnce '>' body = some (base, rest)) :
      Moves (.prefixBase vocab pre) cs [] (.prefixDot vocab pre ⟨.ofList base⟩) true rest
  | bound {vocab : Vocabulary} {pre : String} {base : Iri} {cs rest : List Char}
      (h : stripPrefix ['.'] cs = some rest) :
      Moves (.prefixDot vocab pre base) cs [] (.directives (vocab.bind pre base)) true rest
  | firstSubject {vocab : Vocabulary} {cs rest : List Char} {subject : Subject}
      (hno : stripPrefix "@prefix".toList cs = none)
      (h : parseIriOrCurieOrBlank vocab cs = .ok (subject, rest)) :
      Moves (.directives vocab) cs [] (.predicate vocab subject) (closesTerm cs) rest
  | subject {vocab : Vocabulary} {cs rest : List Char} {subject : Subject}
      (h : parseIriOrCurieOrBlank vocab cs = .ok (subject, rest)) :
      Moves (.statements vocab) cs [] (.predicate vocab subject) (closesTerm cs) rest
  | predicate {vocab : Vocabulary} {subject : Subject} {cs rest : List Char} {predicate : Iri}
      (h : parsePredicate vocab cs = .ok (predicate, rest)) :
      Moves (.predicate vocab subject) cs [] (.object vocab subject predicate) (closesTerm cs) rest
  | object {vocab : Vocabulary} {subject : Subject} {predicate : Iri} {cs rest : List Char}
      {object : Object} (h : parseObject vocab cs = .ok (object, rest)) :
      Moves (.object vocab subject predicate) cs [⟨subject, predicate, object⟩]
        (.listEnd vocab subject predicate) (closesObject cs) rest
  | comma {vocab : Vocabulary} {subject : Subject} {predicate : Iri} {cs rest : List Char}
      (h : stripPrefix [','] cs = some rest) :
      Moves (.listEnd vocab subject predicate) cs [] (.object vocab subject predicate) true rest
  | semicolon {vocab : Vocabulary} {subject : Subject} {predicate : Iri} {cs rest : List Char}
      (h : stripPrefix [';'] cs = some rest) :
      Moves (.listEnd vocab subject predicate) cs [] (.predicate vocab subject) true rest
  | dot {vocab : Vocabulary} {subject : Subject} {predicate : Iri} {cs rest : List Char}
      (h : stripPrefix ['.'] cs = some rest) :
      Moves (.listEnd vocab subject predicate) cs [] (.statements vocab) true rest

/-- The parser of a document has added some triples and comes to a state with some text
left; the flag says whether the last token shows where it ends. -/
inductive At (document : List Char) : List Triple → State → Bool → List Char → Prop
  | start : At document [] (.directives .empty) true document
  | move {out triples : List Triple} {st st' : State} {closed closed' : Bool}
      {cs rest : List Char} (h : At document out st closed cs)
      (hmove : Moves st (skipWs cs) triples st' closed' rest) :
      At document (out ++ triples) st' closed' rest

section

variable (vocab : Vocabulary)

/-- From before a directive. -/
def documentFrom (cs : List Char) : Except ParseError (List Triple) := do
  let (vocab, rest) ← parseDirectives vocab cs
  parseStatements vocab rest

/-- From the dot of a directive. -/
def dotFrom (pre : String) (base : Iri) (cs : List Char) : Except ParseError (List Triple) :=
  match stripPrefix ['.'] (skipWs cs) with
  | none => .error .expectedDotAfterPrefix
  | some rest => documentFrom (vocab.bind pre base) rest

/-- From the base of a directive. -/
def baseFrom (pre : String) (cs : List Char) : Except ParseError (List Triple) :=
  match stripPrefix ['<'] (skipWs cs) with
  | none => .error .expectedIriAfterPrefix
  | some body =>
    match splitOnce '>' body with
    | none => .error .unterminatedPrefixIri
    | some (base, rest) => dotFrom vocab pre ⟨.ofList base⟩ rest

/-- From the name of a directive. -/
def nameFrom (cs : List Char) : Except ParseError (List Triple) :=
  match splitOnce ':' (skipWs cs) with
  | none => .error .missingColonInPrefix
  | some (pre, rest) => baseFrom vocab (.ofList (trimChars pre)) rest

/-- From a predicate. -/
def predicatesFrom (subject : Subject) (cs : List Char) : Except ParseError (List Triple) := do
  let (triples, rest) ← parsePredicates vocab subject cs
  (parseStatements vocab rest).map (triples ++ ·)

/-- From behind the objects of a predicate. -/
def endFrom (subject : Subject) (cs : List Char) : Except ParseError (List Triple) :=
  match stripPrefix [';'] cs with
  | some more => predicatesFrom vocab subject more
  | none =>
    match stripPrefix ['.'] cs with
    | some rest => parseStatements vocab rest
    | none => .error (.expectedSemicolonOrDot (.ofList (cs.take 40)))

/-- From an object. -/
def objectsFrom (subject : Subject) (predicate : Iri) (cs : List Char) :
    Except ParseError (List Triple) := do
  let (objects, rest) ← parseObjects vocab cs
  (endFrom vocab subject rest).map ((objects.map fun object => ⟨subject, predicate, object⟩) ++ ·)

/-- From behind an object. -/
def listEndFrom (subject : Subject) (predicate : Iri) (cs : List Char) :
    Except ParseError (List Triple) :=
  match stripPrefix [','] (skipWs cs) with
  | some more => objectsFrom vocab subject predicate more
  | none => endFrom vocab subject (skipWs cs)

end

/-- What the parser returns from a state, apart from the triples it has added before. -/
def State.resume : State → List Char → Except ParseError (List Triple)
  | .directives vocab => documentFrom vocab
  | .prefixName vocab => nameFrom vocab
  | .prefixBase vocab pre => baseFrom vocab pre
  | .prefixDot vocab pre base => dotFrom vocab pre base
  | .statements vocab => parseStatements vocab
  | .predicate vocab subject => predicatesFrom vocab subject
  | .object vocab subject pred => objectsFrom vocab subject pred
  | .listEnd vocab subject pred => listEndFrom vocab subject pred

/-- Parsing resumes from the directives. -/
theorem parse_eq_resume (document : List Char) :
    parse document = (State.directives .empty).resume document := rfl

/-- Blanks before a token are skipped. -/
theorem resume_skipWs (st : State) (cs : List Char) : st.resume (skipWs cs) = st.resume cs := by
  cases st with
  | directives vocab =>
    have heq : parseDirectives vocab (skipWs cs) = parseDirectives vocab cs := by
      rw [parseDirectives_eq, parseDirectives_eq, skipWs_skipWs]
    simp only [State.resume, documentFrom, heq]
  | prefixName vocab => simp only [State.resume, nameFrom, skipWs_skipWs]
  | prefixBase vocab pre => simp only [State.resume, baseFrom, skipWs_skipWs]
  | prefixDot vocab pre base => simp only [State.resume, dotFrom, skipWs_skipWs]
  | statements vocab =>
    simp only [State.resume]
    rw [parseStatements_eq, parseStatements_eq, skipWs_skipWs]
  | predicate vocab subject =>
    have heq : parsePredicates vocab subject (skipWs cs) = parsePredicates vocab subject cs := by
      rw [parsePredicates_eq, parsePredicates_eq, skipWs_skipWs]
    simp only [State.resume, predicatesFrom, heq]
  | object vocab subject predicate =>
    have heq : parseObjects vocab (skipWs cs) = parseObjects vocab cs := by
      rw [parseObjects_eq, parseObjects_eq, skipWs_skipWs]
    simp only [State.resume, objectsFrom, heq]
  | listEnd vocab subject predicate => simp only [State.resume, listEndFrom, skipWs_skipWs]

/-- No triples before others are no triples. -/
theorem map_nil_append (r : Except ParseError (List Triple)) : r.map ([] ++ ·) = r := by
  cases r <;> rfl

/-- Triples before others can be put there in two parts. -/
theorem map_append_map (xs ys : List Triple) (r : Except ParseError (List Triple)) :
    (r.map (ys ++ ·)).map (xs ++ ·) = r.map (xs ++ ys ++ ·) := by
  cases r with
  | error e => rfl
  | ok ts => simp [Except.map]

/-- Two different marks do not start the same text. -/
theorem stripPrefix_mark_ne {mark other : Char} {cs rest : List Char} (hne : mark ≠ other)
    (h : stripPrefix [mark] cs = some rest) : stripPrefix [other] cs = none := by
  rw [stripPrefix_eq_some.mp h]
  simp [stripPrefix, Ne.symm hne]

section

variable {vocab : Vocabulary}

/-- After the keyword a prefix is bound, and the document goes on. -/
theorem nameFrom_eq (cs : List Char) : nameFrom vocab cs = (do
    let (binding, rest) ← parsePrefix cs
    documentFrom (vocab.bind binding.1 binding.2) rest) := by
  unfold nameFrom parsePrefix
  cases splitOnce ':' (skipWs cs) with
  | none => rfl
  | some name =>
    simp only [baseFrom]
    cases stripPrefix ['<'] (skipWs name.2) with
    | none => rfl
    | some body =>
      simp only
      cases splitOnce '>' body with
      | none => rfl
      | some base =>
        simp only [dotFrom]
        cases stripPrefix ['.'] (skipWs base.2) <;> rfl

/-- A keyword in front starts a prefix declaration. -/
theorem documentFrom_keyword {cs rest : List Char} (hskip : skipWs cs = cs)
    (h : stripPrefix "@prefix".toList cs = some rest) :
    documentFrom vocab cs = nameFrom vocab rest := by
  rw [nameFrom_eq, documentFrom, parseDirectives_eq, hskip, h]
  simp only
  cases parsePrefix rest <;> rfl

/-- Without one the statements start. -/
theorem documentFrom_statements {cs : List Char} (hskip : skipWs cs = cs)
    (h : stripPrefix "@prefix".toList cs = none) :
    documentFrom vocab cs = parseStatements vocab cs := by
  rw [documentFrom, parseDirectives_eq, hskip, h]
  rfl

/-- A statement starts with its subject. -/
theorem parseStatements_subject {cs rest : List Char} {subject : Subject} (hskip : skipWs cs = cs)
    (h : parseIriOrCurieOrBlank vocab cs = .ok (subject, rest)) :
    parseStatements vocab cs = predicatesFrom vocab subject rest := by
  have hne : cs ≠ [] := by
    rintro rfl
    have := length_of_parseTerm h
    simp at this
  rw [parseStatements_eq, hskip, if_neg hne, parseTriples, h, predicatesFrom]
  simp only [bind, Except.bind]
  cases parsePredicates vocab subject rest with
  | error e => rfl
  | ok r =>
    simp only
    cases parseStatements vocab r.2 <;> rfl

/-- What follows the objects of a predicate. -/
theorem parsePredicates_objects (subject : Subject) (predicate : Iri) (cs : List Char) :
    objectsFrom vocab subject predicate cs = (do
      let (objects, rest) ← parseObjects vocab cs
      let triples := objects.map fun object => (⟨subject, predicate, object⟩ : Triple)
      match stripPrefix [';'] rest with
      | some more =>
        let (others, rest) ← parsePredicates vocab subject more
        (parseStatements vocab rest).map (triples ++ others ++ ·)
      | none =>
        match stripPrefix ['.'] rest with
        | some rest => (parseStatements vocab rest).map (triples ++ ·)
        | none => .error (.expectedSemicolonOrDot (.ofList (rest.take 40)))) := by
  unfold objectsFrom
  cases parseObjects vocab cs with
  | error e => rfl
  | ok r =>
    simp only [bind, Except.bind, endFrom]
    cases stripPrefix [';'] r.2 with
    | some more =>
      simp only [predicatesFrom, bind, Except.bind]
      cases parsePredicates vocab subject more with
      | error e => rfl
      | ok r' => exact map_append_map _ _ _
    | none =>
      simp only
      cases stripPrefix ['.'] r.2 <;> rfl

/-- A predicate is followed by its objects. -/
theorem predicatesFrom_predicate {subject : Subject} {cs rest : List Char} {predicate : Iri}
    (hskip : skipWs cs = cs) (h : parsePredicate vocab cs = .ok (predicate, rest)) :
    predicatesFrom vocab subject cs = objectsFrom vocab subject predicate rest := by
  rw [parsePredicates_objects, predicatesFrom, parsePredicates_eq, hskip, h]
  simp only [bind, Except.bind]
  cases parseObjects vocab rest with
  | error e => rfl
  | ok r =>
    simp only
    cases stripPrefix [';'] r.2 with
    | some more =>
      simp only
      cases parsePredicates vocab subject more <;> rfl
    | none =>
      simp only
      cases stripPrefix ['.'] r.2 <;> rfl

/-- An object is followed by more of them, or by the end of the list. -/
theorem objectsFrom_object {subject : Subject} {predicate : Iri} {cs rest : List Char}
    {object : Object} (hskip : skipWs cs = cs) (h : parseObject vocab cs = .ok (object, rest)) :
    objectsFrom vocab subject predicate cs =
      (listEndFrom vocab subject predicate rest).map ([⟨subject, predicate, object⟩] ++ ·) := by
  rw [objectsFrom, parseObjects_eq, hskip, h, listEndFrom]
  simp only [bind, Except.bind]
  cases stripPrefix [','] (skipWs rest) with
  | none => rfl
  | some more =>
    simp only [objectsFrom, bind, Except.bind]
    cases parseObjects vocab more with
    | error e => rfl
    | ok r =>
      simp only [pure, Except.pure, List.map_cons]
      cases endFrom vocab subject r.2 <;> rfl

end

/-- A token is read, and the parser goes on from the next state. -/
theorem Moves.resume {st st' : State} {triples : List Triple} {closed : Bool}
    {cs rest : List Char} (h : Moves st (skipWs cs) triples st' closed rest) :
    st.resume cs = (st'.resume rest).map (triples ++ ·) := by
  rw [← resume_skipWs]
  have hskip := skipWs_skipWs cs
  generalize skipWs cs = cs at h hskip
  cases h with
  | keyword h => rw [map_nil_append]; exact documentFrom_keyword hskip h
  | name h => rw [map_nil_append]; simp only [State.resume, nameFrom, hskip, h]
  | base hopen hclose =>
    rw [map_nil_append]
    simp only [State.resume, baseFrom, hskip, hopen, hclose]
  | bound h => rw [map_nil_append]; simp only [State.resume, dotFrom, hskip, h]
  | firstSubject hno h =>
    rw [map_nil_append]
    exact (documentFrom_statements hskip hno).trans (parseStatements_subject hskip h)
  | subject h => rw [map_nil_append]; exact parseStatements_subject hskip h
  | predicate h => rw [map_nil_append]; exact predicatesFrom_predicate hskip h
  | object h => exact objectsFrom_object hskip h
  | comma h => rw [map_nil_append]; simp only [State.resume, listEndFrom, hskip, h]
  | semicolon h =>
    have hcomma := stripPrefix_mark_ne (by decide : ';' ≠ ',') h
    rw [map_nil_append]
    simp only [State.resume, listEndFrom, hskip, hcomma, endFrom, h]
  | dot h =>
    have hcomma := stripPrefix_mark_ne (by decide : '.' ≠ ',') h
    have hsemicolon := stripPrefix_mark_ne (by decide : '.' ≠ ';') h
    rw [map_nil_append]
    simp only [State.resume, listEndFrom, hskip, hcomma, endFrom, hsemicolon, h]

/-- The result of a document is what has been added and what comes from the state. -/
theorem At.parse {document : List Char} {out : List Triple} {st : State} {closed : Bool}
    {rest : List Char} (h : At document out st closed rest) :
    parse document = (st.resume rest).map (out ++ ·) := by
  induction h with
  | start => rw [map_nil_append, parse_eq_resume]
  | move _ hmove ih => rw [ih, hmove.resume, map_append_map]

end Turtle

end AtomrOntology
