import AtomrOntology.Core.Slices
import AtomrOntology.Rdf.Adapter
import AtomrOntology.Rdf.Turtle

/-!
# N-Triples

The writer puts one triple on a line and escapes five characters of a literal. The parser
takes the lines apart again; it reads a literal byte by byte, and each byte becomes a
character.
-/

namespace AtomrOntology

namespace NTriples

/-- A character of a literal. -/
def escape : Char → List Char
  | '\\' => ['\\', '\\']
  | '"' => ['\\', '"']
  | '\n' => ['\\', 'n']
  | '\r' => ['\\', 'r']
  | '\t' => ['\\', 't']
  | c => [c]

def pushIri (iri : Iri) : List Char := '<' :: iri.value.toList ++ ['>']

def pushSubject : Subject → List Char
  | .iri iri => pushIri iri
  | .blank label => '_' :: ':' :: label.toList

def pushObject : Object → List Char
  | .iri iri => pushIri iri
  | .blank label => '_' :: ':' :: label.toList
  | .literal lexical datatype language =>
    '"' :: lexical.toList.flatMap escape ++ '"' ::
      match language with
      | some lang => '@' :: lang.toList
      | none => '^' :: '^' :: pushIri datatype

def pushTriple (t : Triple) : List Char :=
  pushSubject t.subject ++ ' ' ::
    (pushIri t.predicate ++ ' ' :: (pushObject t.object ++ [' ', '.']))

/-- The document of a list of triples. -/
def document (triples : List Triple) : List Char := triples.flatMap fun t => pushTriple t ++ ['\n']

/-- Serialize an ontology. -/
def write [SerdeJson] [RdfText] (o : Ontology) : String := .ofList (document (toRdf o))

/-- `trim_start`. -/
def trimStart (cs : List Char) : List Char := cs.dropWhile isWhitespace

/-- `trim_end`. -/
def trimEnd (cs : List Char) : List Char := (cs.reverse.dropWhile isWhitespace).reverse

/-- A line without the carriage return before its end. -/
def stripCr (cs : List Char) : List Char := if cs.getLast? = some '\r' then cs.dropLast else cs

/-- `str::lines`, after the start of a line. -/
def linesFrom (start : List Char) : List Char → List (List Char)
  | [] => if start = [] then [] else [start]
  | c :: cs => if c = '\n' then stripCr start :: linesFrom [] cs else linesFrom (start ++ [c]) cs

/-- `str::lines`. -/
def lines (cs : List Char) : List (List Char) := linesFrom [] cs

/-- Why a line is not a triple. -/
inductive LineError where
  | missingDot
  | predicateNotIri
  | trailingData (rest : String)
  | subjectIsLiteral
  | noTerm
  | unterminatedIri
  | unexpectedStart (c : Char)
  | danglingEscape
  | shortEscape (marker : Char)
  | notHexadecimal (digits : String)
  | insideCharacter
  | unknownEscape
  | expectedDatatype
  | unterminatedDatatype
  | unterminatedLiteral
deriving DecidableEq, Repr

inductive Term where
  | iri (i : Iri)
  | blank (label : String)
  | literal (lexical : String) (datatype : Iri) (language : Option String)
deriving DecidableEq, Repr

/-- The end of a blank node label or a language tag. -/
def endsName (c : Char) : Bool := isWhitespace c || c == '.'

/-- The first bytes of a text, if a character ends there. -/
def takeBytes : Nat → List Char → Option (List Char × List Char)
  | 0, cs => some ([], cs)
  | _ + 1, [] => none
  | n + 1, c :: cs =>
    if c.utf8Size ≤ n + 1 then
      (takeBytes (n + 1 - c.utf8Size) cs).map fun parts => (c :: parts.1, parts.2)
    else none

/-- The value of hexadecimal digits after an optional plus sign. -/
def hexNumber (cs : List Char) : Option Nat :=
  let digits := if cs.head? = some '+' then cs.tail else cs
  if digits.isEmpty then none
  else digits.foldl (fun n c => n.bind fun n => (Hex.value c).map (16 * n + ·)) (some 0)

/-- `char::from_u32`; what is no character is left out. -/
def ofCodePoint (n : Nat) : List Char := if n.isValidChar then [Char.ofNat n] else []

/-- A character escaped by its number. -/
def readCodePoint (marker : Char) (digits : Nat) (cs : List Char) :
    Except LineError (List Char × List Char) :=
  if (utf8 (.ofList cs)).length < digits then .error (.shortEscape marker)
  else
    match takeBytes digits cs with
    | none => .error .insideCharacter
    | some (hex, rest) =>
      match hexNumber hex with
      | none => .error (.notHexadecimal (.ofList hex))
      | some n => .ok (ofCodePoint n, rest)

/-- What an escape stands for, after the backslash, and what follows it. -/
def readEscape : List Char → Except LineError (List Char × List Char)
  | [] => .error .danglingEscape
  | 'n' :: rest => .ok (['\n'], rest)
  | 'r' :: rest => .ok (['\r'], rest)
  | 't' :: rest => .ok (['\t'], rest)
  | '"' :: rest => .ok (['"'], rest)
  | '\\' :: rest => .ok (['\\'], rest)
  | 'u' :: rest => readCodePoint 'u' 4 rest
  | 'U' :: rest => readCodePoint 'U' 8 rest
  | _ :: _ => .error .unknownEscape

/-- The first bytes of a text and what follows them. -/
theorem takeBytes_eq (n : Nat) (cs : List Char) :
    takeBytes n cs = (sliceTo n cs).bind fun front => (sliceFrom n cs).map (front, ·) := by
  induction cs generalizing n with
  | nil => cases n <;> rfl
  | cons c cs ih =>
    cases n with
    | zero => rfl
    | succ n =>
      rw [takeBytes, sliceTo, sliceFrom]
      by_cases hle : c.utf8Size ≤ n + 1
      · simp only [if_pos hle, ih]
        cases sliceTo (n + 1 - c.utf8Size) cs with
        | none => rfl
        | some front => cases sliceFrom (n + 1 - c.utf8Size) cs <;> rfl
      · simp only [if_neg hle]
        rfl

/-- Bytes can be taken if they make up whole characters. -/
theorem takeBytes_eq_some_iff {n : Nat} {cs front back : List Char} :
    takeBytes n cs = some (front, back) ↔ cs = front ++ back ∧ byteLength front = n := by
  rw [takeBytes_eq]
  constructor
  · intro h
    obtain ⟨front', hfront, h⟩ := Option.bind_eq_some_iff.mp h
    obtain ⟨back', hback, h⟩ := Option.map_eq_some_iff.mp h
    cases h
    obtain ⟨⟨rest, rfl⟩, hlen⟩ := sliceTo_eq_some_iff.mp hfront
    rw [← hlen, sliceFrom_append] at hback
    exact ⟨by rw [Option.some.inj hback], hlen⟩
  · rintro ⟨rfl, rfl⟩
    rw [sliceTo_append, sliceFrom_append]
    rfl

/-- What is left after a code point is the rest of the text. -/
theorem suffix_of_readCodePoint {marker : Char} {digits : Nat} {cs : List Char}
    {r : List Char × List Char} (h : readCodePoint marker digits cs = .ok r) : r.2 <:+ cs := by
  unfold readCodePoint at h
  split at h
  · cases h
  · split at h
    · cases h
    · next hex rest hbytes =>
      split at h
      · cases h
      · cases h
        exact ⟨hex, (takeBytes_eq_some_iff.mp hbytes).1.symm⟩

/-- An escape takes at least one character. -/
theorem suffix_of_readEscape {cs : List Char} {r : List Char × List Char}
    (h : readEscape cs = .ok r) : r.2 <:+ cs.tail := by
  unfold readEscape at h
  split at h
  · cases h
  case h_7 | h_8 => exact suffix_of_readCodePoint h
  case h_9 => cases h
  all_goals
    cases h
    exact List.suffix_refl _

/-- Reading an escape adds nothing to the text. -/
theorem length_of_readEscape {cs : List Char} {r : List Char × List Char}
    (h : readEscape cs = .ok r) : r.2.length ≤ cs.length := by
  have hsuffix := (suffix_of_readEscape h).length_le
  rw [List.length_tail] at hsuffix
  exact hsuffix.trans (Nat.sub_le _ _)

/-- The lexical form of a literal after its opening quote, and what follows the closing
one. -/
def literalBody (cs : List Char) : Except LineError (List Char × List Char) :=
  match cs with
  | [] => .error .unterminatedLiteral
  | c :: rest =>
    if c = '\\' then
      match _hescape : readEscape rest with
      | .error e => .error e
      | .ok (chars, rest) => do
        let (lexical, rest) ← literalBody rest
        return (chars ++ lexical, rest)
    else if c = '"' then .ok ([], rest)
    else do
      let (lexical, rest) ← literalBody rest
      return (bytesAsChars c ++ lexical, rest)
termination_by cs.length
decreasing_by
  · exact Nat.lt_succ_of_le (length_of_readEscape _hescape)
  · exact Nat.lt_succ_self _

/-- A literal after its opening quote. -/
def parseLiteral (cs : List Char) : Except LineError (Term × List Char) := do
  let (lexical, rest) ← literalBody cs
  match stripPrefix ['@'] rest with
  | some lang =>
    return (.literal (.ofList lexical) Turtle.langString
      (some (.ofList (lang.takeWhile (!endsName ·)))), lang.dropWhile (!endsName ·))
  | none =>
    match stripPrefix ['^', '^'] rest with
    | some datatype =>
      match stripPrefix ['<'] (trimStart datatype) with
      | none => .error .expectedDatatype
      | some body =>
        match splitOnce '>' body with
        | none => .error .unterminatedDatatype
        | some (iri, rest) => return (.literal (.ofList lexical) ⟨.ofList iri⟩ none, rest)
    | none => return (.literal (.ofList lexical) xsdString none, rest)

def parseTerm : List Char → Except LineError (Term × List Char)
  | [] => .error .noTerm
  | '<' :: rest =>
    match splitOnce '>' rest with
    | none => .error .unterminatedIri
    | some (iri, rest) => .ok (.iri ⟨.ofList iri⟩, rest)
  | '_' :: ':' :: rest =>
    .ok (.blank (.ofList (rest.takeWhile (!endsName ·))), rest.dropWhile (!endsName ·))
  | '"' :: rest => parseLiteral rest
  | c :: _ => .error (.unexpectedStart c)

def Term.toSubject : Term → Except LineError Subject
  | .iri i => .ok (.iri i)
  | .blank label => .ok (.blank label)
  | .literal .. => .error .subjectIsLiteral

def Term.toPredicate : Term → Except LineError Iri
  | .iri i => .ok i
  | _ => .error .predicateNotIri

def Term.toObject : Term → Object
  | .iri i => .iri i
  | .blank label => .blank label
  | .literal lexical datatype language => .literal lexical datatype language

/-- The three terms of a line without its dot. -/
def parseTerms (line : List Char) : Except LineError Triple := do
  let (subject, rest) ← parseTerm line
  let (predicate, rest) ← parseTerm (trimStart rest)
  let predicate ← predicate.toPredicate
  let (object, rest) ← parseTerm (trimStart rest)
  if trimChars rest = [] then
    let subject ← subject.toSubject
    return ⟨subject, predicate, object.toObject⟩
  else .error (.trailingData (.ofList rest))

def parseTriple (line : List Char) : Except LineError Triple :=
  if (trimEnd line).getLast? = some '.' then parseTerms (trimChars (trimEnd line).dropLast)
  else .error .missingDot

/-- The triples of numbered lines. Empty lines and comments are skipped. -/
def parseLines (lineno : Nat) : List (List Char) → Except (Nat × LineError) (List Triple)
  | [] => .ok []
  | raw :: rest =>
    if trimChars raw = [] ∨ (trimChars raw).head? = some '#' then parseLines (lineno + 1) rest
    else
      match parseTriple (trimChars raw) with
      | .error e => .error (lineno, e)
      | .ok t => (parseLines (lineno + 1) rest).map (t :: ·)

/-- Parse a document into its triples. -/
def parse (input : String) : Except (Nat × LineError) (List Triple) :=
  parseLines 1 (lines input.toList)

end NTriples

end AtomrOntology
