import AtomrOntology.Rdf.Triple

/-!
# Reading Turtle

The parser for the Turtle subset of the repository: prefix directives, then statements
with predicate and object lists. It works on the characters that are left; literals are
read byte by byte, and each byte becomes a character.
-/

namespace AtomrOntology

/-- Each byte of the encoding of a character, taken as a character. -/
def bytesAsChars (c : Char) : List Char := (utf8 (.singleton c)).map fun b => Char.ofNat b.toNat

namespace Turtle

/-- Why a document is rejected. -/
inductive ParseError where
  | missingColonInPrefix
  | expectedIriAfterPrefix
  | unterminatedPrefixIri
  | expectedDotAfterPrefix
  | expectedSemicolonOrDot (snippet : String)
  | predicateMustBeIri
  | unterminatedIri
  | unrecognizedToken (token : String)
  | unknownPrefix (pre : String)
  | danglingEscape
  | unterminatedLiteral
deriving DecidableEq, Repr

/-- `skip_ws`. From a `#` the scan goes on with the character after it, so the text of a
comment is not skipped. -/
def skipWs (cs : List Char) : List Char := cs.dropWhile fun c => isWhitespace c || c == '#'

/-- The end of a token that is not in angle brackets. -/
def endsToken (c : Char) : Bool := isWhitespace c || c == '.' || c == ';' || c == ','

section

variable (vocab : Vocabulary)

/-- `parse_iri_or_curie_or_blank`. -/
def parseIriOrCurieOrBlank (cs : List Char) : Except ParseError (Subject × List Char) :=
  match stripPrefix ['<'] cs with
  | some body =>
    match splitOnce '>' body with
    | some (iri, rest) => .ok (.iri ⟨.ofList iri⟩, rest)
    | none => .error .unterminatedIri
  | none =>
    match stripPrefix ['_', ':'] cs with
    | some after =>
      .ok (.blank (.ofList (after.takeWhile (!endsToken ·))), after.dropWhile (!endsToken ·))
    | none =>
      let token := cs.takeWhile (!endsToken ·)
      match splitOnce ':' token with
      | none => .error (.unrecognizedToken (.ofList token))
      | some (pre, loc) =>
        match vocab.namespaces[String.ofList pre]? with
        | some base => .ok (.iri ⟨base.value ++ .ofList loc⟩, cs.dropWhile (!endsToken ·))
        | none => .error (.unknownPrefix (.ofList pre))

/-- What an escaped character stands for. -/
def escaped : Char → List Char
  | 'n' => ['\n']
  | 'r' => ['\r']
  | 't' => ['\t']
  | c => bytesAsChars c

/-- The lexical form of a literal after its opening quote, and what follows the closing
one. -/
def literalBody : List Char → Except ParseError (List Char × List Char)
  | [] => .error .unterminatedLiteral
  | c :: rest =>
    if c = '\\' then
      match rest with
      | [] => .error .danglingEscape
      | e :: rest => do
        let (lexical, rest) ← literalBody rest
        return (escaped e ++ lexical, rest)
    else if c = '"' then .ok ([], rest)
    else do
      let (lexical, rest) ← literalBody rest
      return (bytesAsChars c ++ lexical, rest)

/-- The IRI of language-tagged strings. -/
def langString : Iri := ⟨"http://www.w3.org/1999/02/22-rdf-syntax-ns#langString"⟩

/-- A literal after its opening quote. -/
def parseLiteral (cs : List Char) : Except ParseError (Object × List Char) := do
  let (lexical, rest) ← literalBody cs
  match stripPrefix ['@'] rest with
  | some lang =>
    return (.literal (.ofList lexical) langString
      (some (.ofList (lang.takeWhile (!endsToken ·)))), lang.dropWhile (!endsToken ·))
  | none =>
    match stripPrefix ['^', '^'] rest with
    | some dt =>
      let (term, rest) ← parseIriOrCurieOrBlank vocab dt
      match term with
      | .iri datatype => return (.literal (.ofList lexical) datatype none, rest)
      | .blank _ => return (.literal (.ofList lexical) xsdString none, rest)
    | none => return (.literal (.ofList lexical) xsdString none, rest)

def parsePredicate (cs : List Char) : Except ParseError (Iri × List Char) :=
  let token : Except ParseError (Iri × List Char) := do
    match ← parseIriOrCurieOrBlank vocab cs with
    | (.iri iri, rest) => return (iri, rest)
    | (.blank _, _) => .error .predicateMustBeIri
  match stripPrefix ['a'] cs with
  | some after => if after.head?.any isWhitespace then .ok (rdfType, after) else token
  | none => token

def parseObject (cs : List Char) : Except ParseError (Object × List Char) :=
  match stripPrefix ['"'] cs with
  | some body => parseLiteral vocab body
  | none => do
    let (term, rest) ← parseIriOrCurieOrBlank vocab cs
    return (term.toObject, rest)

/-- Skipping blanks adds nothing. -/
theorem length_skipWs_le (cs : List Char) : (skipWs cs).length ≤ cs.length :=
  (List.dropWhile_sublist _).length_le

/-- What is left after a prefix is shorter by the prefix. -/
theorem length_of_stripPrefix {pre cs rest : List Char} (h : stripPrefix pre cs = some rest) :
    rest.length + pre.length = cs.length := by
  unfold stripPrefix at h
  split at h
  · next hpre =>
    cases h
    have := hpre.length_le
    rw [List.length_drop]
    omega
  · cases h

/-- The two parts are shorter by the separator. -/
theorem length_of_splitOnce {sep : Char} {cs : List Char} {parts : List Char × List Char}
    (h : splitOnce sep cs = some parts) : parts.1.length + parts.2.length + 1 = cs.length := by
  induction cs generalizing parts with
  | nil => cases h
  | cons c cs ih =>
    rw [splitOnce] at h
    by_cases hc : c = sep
    · rw [if_pos hc] at h
      cases h
      simp
    · rw [if_neg hc] at h
      obtain ⟨parts', hparts, rfl⟩ := Option.map_eq_some_iff.mp h
      have := ih hparts
      simp only [List.length_cons]
      omega

variable {vocab}

/-- A term takes at least one character. -/
theorem length_of_parseTerm {cs : List Char} {r : Subject × List Char}
    (h : parseIriOrCurieOrBlank vocab cs = .ok r) : r.2.length < cs.length := by
  unfold parseIriOrCurieOrBlank at h
  split at h
  · next body hbody =>
    have hlen := length_of_stripPrefix hbody
    split at h
    · next parts iri rest hsplit =>
      cases h
      have := length_of_splitOnce hsplit
      simp only [List.length_cons, List.length_nil] at hlen this ⊢
      omega
    · cases h
  · split at h
    · next after hafter =>
      cases h
      have hlen := length_of_stripPrefix hafter
      have := (List.dropWhile_sublist (l := after) (!endsToken ·)).length_le
      simp only [List.length_cons, List.length_nil] at hlen ⊢
      omega
    · simp only at h
      split at h
      · cases h
      · next pre loc hsplit =>
        split at h
        · cases h
          have htoken := length_of_splitOnce hsplit
          have hlen := congrArg List.length
            (List.takeWhile_append_dropWhile (p := (!endsToken ·)) (l := cs))
          rw [List.length_append] at hlen
          simp only at htoken ⊢
          omega
        · cases h

/-- A literal takes at least its closing quote. -/
theorem length_of_literalBody {cs : List Char} {r : List Char × List Char}
    (h : literalBody cs = .ok r) : r.2.length < cs.length := by
  induction cs using literalBody.induct generalizing r with
  | case1 => cases h
  | case2 => cases h
  | case3 e rest ih =>
    rw [literalBody, if_pos rfl] at h
    obtain ⟨⟨lexical, rest'⟩, hbody, hpure⟩ := bind_eq_ok.mp h
    cases hpure
    have := ih hbody
    simp only [List.length_cons] at this ⊢
    omega
  | case4 rest hne =>
    rw [literalBody.eq_def] at h
    simp only [hne, ↓reduceIte] at h
    cases h
    simp
  | case5 c rest hne hquote ih =>
    rw [literalBody.eq_def] at h
    simp only [hne, hquote, ↓reduceIte] at h
    obtain ⟨⟨lexical, rest'⟩, hbody, hpure⟩ := bind_eq_ok.mp h
    cases hpure
    have := ih hbody
    simp only [List.length_cons] at this ⊢
    omega

/-- An object takes at least one character. -/
theorem length_of_parseObject {cs : List Char} {r : Object × List Char}
    (h : parseObject vocab cs = .ok r) : r.2.length < cs.length := by
  unfold parseObject at h
  split at h
  · next body hbody =>
    have hlen := length_of_stripPrefix hbody
    unfold parseLiteral at h
    obtain ⟨⟨lexical, rest⟩, hlit, h⟩ := bind_eq_ok.mp h
    have hrest := length_of_literalBody hlit
    simp only at h hrest
    split at h
    · next lang hlang =>
      cases h
      have := length_of_stripPrefix hlang
      have := (List.dropWhile_sublist (l := lang) (!endsToken ·)).length_le
      simp only [List.length_cons, List.length_nil] at *
      omega
    · split at h
      · next dt hdt =>
        obtain ⟨⟨term, rest'⟩, hterm, h⟩ := bind_eq_ok.mp h
        have hlt := length_of_parseTerm hterm
        have := length_of_stripPrefix hdt
        have hout : r.2 = rest' := by
          cases term <;> cases h <;> rfl
        rw [hout]
        simp only [List.length_cons, List.length_nil] at *
        omega
      · cases h
        simp only [List.length_cons, List.length_nil] at *
        omega
  · obtain ⟨⟨term, rest⟩, hterm, hpure⟩ := bind_eq_ok.mp h
    cases hpure
    exact length_of_parseTerm hterm

/-- A predicate is an `a` that stands alone, or else an IRI. -/
theorem parsePredicate_cases {cs rest : List Char} {predicate : Iri}
    (h : parsePredicate vocab cs = .ok (predicate, rest)) :
    (stripPrefix ['a'] cs = some rest ∧ rest.head?.any isWhitespace = true ∧
        predicate = rdfType) ∨
      (parseIriOrCurieOrBlank vocab cs = .ok (.iri predicate, rest) ∧
        ∀ after, stripPrefix ['a'] cs = some after → ¬after.head?.any isWhitespace = true) := by
  unfold parsePredicate at h
  dsimp only at h
  cases ha : stripPrefix ['a'] cs with
  | none =>
    rw [ha] at h
    obtain ⟨⟨term, rest'⟩, hterm, hpure⟩ := bind_eq_ok.mp h
    cases term with
    | iri iri =>
      cases hpure
      exact Or.inr ⟨hterm, by simp⟩
    | blank label => cases hpure
  | some after =>
    rw [ha] at h
    dsimp only at h
    by_cases hws : after.head?.any isWhitespace = true
    · rw [if_pos hws] at h
      cases h
      exact Or.inl ⟨rfl, hws, rfl⟩
    · rw [if_neg hws] at h
      obtain ⟨⟨term, rest'⟩, hterm, hpure⟩ := bind_eq_ok.mp h
      cases term with
      | iri iri =>
        cases hpure
        refine Or.inr ⟨hterm, ?_⟩
        intro after' hafter'
        rwa [← Option.some.inj hafter']
      | blank label => cases hpure

/-- A predicate takes at least one character. -/
theorem length_of_parsePredicate {cs : List Char} {r : Iri × List Char}
    (h : parsePredicate vocab cs = .ok r) : r.2.length < cs.length := by
  obtain ⟨predicate, rest⟩ := r
  obtain ⟨ha, -, -⟩ | ⟨hterm, -⟩ := parsePredicate_cases h
  · have := length_of_stripPrefix ha
    simp only [List.length_cons, List.length_nil] at *
    omega
  · exact length_of_parseTerm hterm

end

section

variable (vocab : Vocabulary)

/-- The objects of a predicate, separated by commas. -/
def parseObjects (cs : List Char) : Except ParseError (List Object × List Char) :=
  match _hobject : parseObject vocab (skipWs cs) with
  | .error e => .error e
  | .ok (object, rest) =>
    match _hcomma : stripPrefix [','] (skipWs rest) with
    | some more => do
      let (objects, rest) ← parseObjects more
      return (object :: objects, rest)
    | none => .ok ([object], skipWs rest)
termination_by cs.length
decreasing_by
  have hlt := length_of_parseObject _hobject
  have hmore := length_of_stripPrefix _hcomma
  have hrest := length_skipWs_le rest
  have hcs := length_skipWs_le cs
  simp only at hlt
  omega

/-- An object, and more of them after a comma. -/
theorem parseObjects_eq (cs : List Char) : parseObjects vocab cs = (do
    let (object, rest) ← parseObject vocab (skipWs cs)
    match stripPrefix [','] (skipWs rest) with
    | some more =>
      let (objects, rest) ← parseObjects vocab more
      return (object :: objects, rest)
    | none => return ([object], skipWs rest)) := by
  rw [parseObjects]
  split
  · next e he => rw [he]; rfl
  · next object rest ho =>
    rw [ho]
    split
    · next more hm => simp only [bind, Except.bind, hm]
    · next hm => simp only [bind, Except.bind, hm]; rfl

variable {vocab} in
/-- Objects take at least one character. -/
theorem length_of_parseObjects {cs : List Char} {r : List Object × List Char}
    (h : parseObjects vocab cs = .ok r) : r.2.length < cs.length := by
  induction cs using parseObjects.induct vocab generalizing r with
  | case1 cs e he =>
    rw [parseObjects_eq, he] at h
    cases h
  | case2 cs object rest ho more hm ih =>
    rw [parseObjects_eq, ho] at h
    simp only [bind, Except.bind, hm] at h
    split at h
    · cases h
    · next r' hr =>
      cases h
      have hlt := ih hr
      have hobject := length_of_parseObject ho
      have hmore := length_of_stripPrefix hm
      have hrest := length_skipWs_le rest
      have hcs := length_skipWs_le cs
      simp only at hobject ⊢
      omega
  | case3 cs object rest ho hm =>
    rw [parseObjects_eq, ho] at h
    simp only [bind, Except.bind, hm] at h
    cases h
    have hobject := length_of_parseObject ho
    have hrest := length_skipWs_le rest
    have hcs := length_skipWs_le cs
    simp only at hobject ⊢
    omega

/-- The predicates of a subject with their objects, up to the final dot. -/
def parsePredicates (subject : Subject) (cs : List Char) :
    Except ParseError (List Triple × List Char) :=
  match _hpredicate : parsePredicate vocab (skipWs cs) with
  | .error e => .error e
  | .ok (predicate, rest) =>
    match _hobjects : parseObjects vocab rest with
    | .error e => .error e
    | .ok (objects, rest) =>
      let triples := objects.map fun object => ⟨subject, predicate, object⟩
      match _hsemicolon : stripPrefix [';'] rest with
      | some more => do
        let (others, rest) ← parsePredicates subject more
        return (triples ++ others, rest)
      | none =>
        match stripPrefix ['.'] rest with
        | some rest => .ok (triples, rest)
        | none => .error (.expectedSemicolonOrDot (.ofList (rest.take 40)))
termination_by cs.length
decreasing_by
  have hlt := length_of_parsePredicate _hpredicate
  have hlt' := length_of_parseObjects _hobjects
  have hmore := length_of_stripPrefix _hsemicolon
  have hcs := length_skipWs_le cs
  simp only at hlt hlt'
  omega

/-- A predicate with its objects, and more of them after a semicolon. -/
theorem parsePredicates_eq (subject : Subject) (cs : List Char) :
    parsePredicates vocab subject cs = (do
      let (predicate, rest) ← parsePredicate vocab (skipWs cs)
      let (objects, rest) ← parseObjects vocab rest
      let triples := objects.map fun object => ⟨subject, predicate, object⟩
      match stripPrefix [';'] rest with
      | some more =>
        let (others, rest) ← parsePredicates vocab subject more
        return (triples ++ others, rest)
      | none =>
        match stripPrefix ['.'] rest with
        | some rest => return (triples, rest)
        | none => .error (.expectedSemicolonOrDot (.ofList (rest.take 40)))) := by
  rw [parsePredicates]
  split
  · next e he => rw [he]; rfl
  · next predicate rest hp =>
    rw [hp]
    simp only [bind, Except.bind]
    split
    · next e he => rw [he]
    · next objects rest ho =>
      rw [ho]
      simp only
      split
      · next more hm => simp only [hm]
      · next hm => simp only [hm]; rfl

variable {vocab} in
/-- Predicates take at least one character. -/
theorem length_of_parsePredicates {subject : Subject} {cs : List Char}
    {r : List Triple × List Char} (h : parsePredicates vocab subject cs = .ok r) :
    r.2.length < cs.length := by
  induction hn : cs.length using Nat.strong_induction_on generalizing cs r with
  | h n ih =>
    rw [parsePredicates_eq] at h
    obtain ⟨⟨predicate, rest⟩, hpredicate, h⟩ := bind_eq_ok.mp h
    obtain ⟨⟨objects, rest'⟩, hobjects, h⟩ := bind_eq_ok.mp h
    have hlt := length_of_parsePredicate hpredicate
    have hlt' := length_of_parseObjects hobjects
    have hcs := length_skipWs_le cs
    simp only at hlt hlt' h
    split at h
    · next more hm =>
      obtain ⟨⟨others, rest''⟩, hothers, h⟩ := bind_eq_ok.mp h
      cases h
      have hmore := length_of_stripPrefix hm
      have := ih more.length (by omega) hothers rfl
      simp only at this ⊢
      omega
    · split at h
      · next more hm =>
        cases h
        have hmore := length_of_stripPrefix hm
        simp only
        omega
      · cases h

/-- A statement: a subject and its predicates. -/
def parseTriples (cs : List Char) : Except ParseError (List Triple × List Char) := do
  let (subject, rest) ← parseIriOrCurieOrBlank vocab cs
  parsePredicates vocab subject rest

variable {vocab} in
/-- The triples of a subject take at least one character. -/
theorem length_of_parseTriples {cs : List Char} {r : List Triple × List Char}
    (h : parseTriples vocab cs = .ok r) : r.2.length < cs.length := by
  obtain ⟨⟨subject, rest⟩, hsubject, h⟩ := bind_eq_ok.mp h
  have hlt := length_of_parseTerm hsubject
  have hlt' := length_of_parsePredicates h
  simp only at hlt
  omega

/-- The statements up to the end of the document. -/
def parseStatements (cs : List Char) : Except ParseError (List Triple) :=
  if skipWs cs = [] then .ok []
  else
    match _htriples : parseTriples vocab (skipWs cs) with
    | .error e => .error e
    | .ok (triples, rest) => do
      let others ← parseStatements rest
      return triples ++ others
termination_by cs.length
decreasing_by
  have hlt := length_of_parseTriples _htriples
  have hcs := length_skipWs_le cs
  simp only at hlt
  omega

/-- The triples of a subject, and those of more subjects up to the end. -/
theorem parseStatements_eq (cs : List Char) : parseStatements vocab cs =
    if skipWs cs = [] then .ok [] else (do
      let (triples, rest) ← parseTriples vocab (skipWs cs)
      let others ← parseStatements vocab rest
      return triples ++ others) := by
  rw [parseStatements]
  split
  · rfl
  · split
    · next e he => rw [he]; rfl
    · next triples rest ht => rw [ht]; rfl

end

/-- One directive after its keyword: the prefix, its base and what follows the dot. -/
def parsePrefix (cs : List Char) : Except ParseError ((String × Iri) × List Char) :=
  match splitOnce ':' (skipWs cs) with
  | none => .error .missingColonInPrefix
  | some (pre, rest) =>
    match stripPrefix ['<'] (skipWs rest) with
    | none => .error .expectedIriAfterPrefix
    | some body =>
      match splitOnce '>' body with
      | none => .error .unterminatedPrefixIri
      | some (base, rest) =>
        match stripPrefix ['.'] (skipWs rest) with
        | none => .error .expectedDotAfterPrefix
        | some rest => .ok ((.ofList (trimChars pre), ⟨.ofList base⟩), rest)

/-- A prefix declaration takes at least one character. -/
theorem length_of_parsePrefix {cs : List Char} {r : (String × Iri) × List Char}
    (h : parsePrefix cs = .ok r) : r.2.length < cs.length := by
  unfold parsePrefix at h
  split at h
  · cases h
  · next pre rest hcolon =>
    split at h
    · cases h
    · next body hopen =>
      split at h
      · cases h
      · next base rest' hclose =>
        split at h
        · cases h
        · next rest'' hdot =>
          cases h
          have hcolon := length_of_splitOnce hcolon
          have hopen := length_of_stripPrefix hopen
          have hclose := length_of_splitOnce hclose
          have hdot := length_of_stripPrefix hdot
          have hcs := length_skipWs_le cs
          have hrest := length_skipWs_le rest
          have hrest' := length_skipWs_le rest'
          simp only [List.length_cons, List.length_nil] at *
          omega

/-- The prefix directives at the start of a document. -/
def parseDirectives (vocab : Vocabulary) (cs : List Char) :
    Except ParseError (Vocabulary × List Char) :=
  match _hdirective : stripPrefix "@prefix".toList (skipWs cs) with
  | none => .ok (vocab, skipWs cs)
  | some rest =>
    match _hparsed : parsePrefix rest with
    | .error e => .error e
    | .ok ((pre, base), rest) => parseDirectives (vocab.bind pre base) rest
termination_by cs.length
decreasing_by
  have hdirective := length_of_stripPrefix _hdirective
  have hprefix := length_of_parsePrefix _hparsed
  have hcs := length_skipWs_le cs
  simp only at hprefix
  omega

/-- Prefix declarations are bound one after another. -/
theorem parseDirectives_eq (vocab : Vocabulary) (cs : List Char) : parseDirectives vocab cs =
    match stripPrefix "@prefix".toList (skipWs cs) with
    | none => .ok (vocab, skipWs cs)
    | some rest => (do
      let (binding, rest) ← parsePrefix rest
      parseDirectives (vocab.bind binding.1 binding.2) rest) := by
  rw [parseDirectives]
  split
  · next hd => rw [hd]
  · next rest hd =>
    simp only [hd]
    split
    · next e he => rw [he]; rfl
    · next pre base rest' hp => rw [hp]; rfl

/-- `turtle::parse`. -/
def parse (input : List Char) : Except ParseError (List Triple) := do
  let (vocab, rest) ← parseDirectives .empty input
  parseStatements vocab rest

end Turtle

end AtomrOntology
