import AtomrOntology.Core.Cursor
import AtomrOntology.Rdf.Turtle

/-!
# Turtle by byte offsets

The parser as it is written: a position in the source text, slices at offsets that loops and
searches have computed, and loops of which each has as many rounds as the source has bytes.
-/

namespace AtomrOntology

namespace Turtle.Parser

/-- The scan of `skip_ws`: the offset of each character, and how much is consumed so far. From a
comment it goes on with the character after the `#`. -/
def scan (rest : List Char) : Nat → Nat → List Char → Option Nat
  | _, consumed, [] => some consumed
  | i, _, c :: cs =>
    if isWhitespace c then scan rest (i + c.utf8Size) (i + c.utf8Size) cs
    else if c = '#' then do
      let comment ← sliceFrom i rest
      let nl := ((findChar (· == '\n') comment).map (i + · + 1)).getD (byteLength rest)
      scan rest (i + c.utf8Size) nl cs
    else some i

/-- The loop of `skip_ws`. -/
def skipLoop (src : List Char) : Nat → Nat → Option Nat
  | 0, _ => none
  | rounds + 1, pos => do
    let rest ← sliceFrom pos src
    let consumed ← scan rest 0 0 rest
    let pos := pos + consumed
    match ← sliceFrom pos src with
    | [] => some pos
    | first :: _ =>
      if !isWhitespace first && first != '#' then some pos else skipLoop src rounds pos

/-- How often a loop may run. -/
def rounds (src : List Char) : Nat := byteLength src + 1

/-- `skip_ws`. -/
def skipWs (src : List Char) (pos : Nat) : Option Nat := skipLoop src (rounds src) pos

/-- `peek_snippet`: up to the end of the last of forty characters. -/
def peekSnippet (rest : List Char) : Option (List Char) :=
  sliceTo (byteLength (rest.take 40)) rest

section

variable (vocab : Vocabulary) (src : List Char)

/-- `parse_iri_or_curie_or_blank`. -/
def parseIriOrCurieOrBlank (pos : Nat) : Checked ParseError (Subject × Nat) := do
  let rest ← sliceFrom pos src
  match stripPrefix ['<'] rest with
  | some _ =>
    match findChar (· == '>') rest with
    | none => throw .unterminatedIri
    | some close =>
      let iri ← slice 1 close rest
      return (.iri ⟨.ofList iri⟩, pos + (close + 1))
  | none =>
    match stripPrefix ['_', ':'] rest with
    | some after =>
      let stop := (findChar endsToken after).getD (byteLength after)
      let label ← sliceTo stop after
      return (.blank (.ofList label), pos + (2 + stop))
    | none =>
      let stop := (findChar endsToken rest).getD (byteLength rest)
      let token ← sliceTo stop rest
      match findChar (· == ':') token with
      | none => throw (.unrecognizedToken (.ofList token))
      | some colon =>
        let pre ← sliceTo colon token
        let loc ← sliceFrom (colon + 1) token
        match vocab.namespaces[String.ofList pre]? with
        | some base => return (.iri ⟨base.value ++ .ofList loc⟩, pos + stop)
        | none => throw (.unknownPrefix (.ofList pre))

/-- What the byte after a backslash stands for. -/
def escapedByte (b : UInt8) : Char :=
  if b = 'n'.toUInt8 then '\n'
  else if b = 'r'.toUInt8 then '\r'
  else if b = 't'.toUInt8 then '\t'
  else byteAsChar b

/-- The loop of `parse_literal`: the lexical form and the offset after the closing quote. -/
def literalLoop (bytes : List UInt8) (i : Nat) (lexical : List Char) :
    Checked ParseError (List Char × Nat) :=
  if h : i < bytes.length then
    if bytes[i] = '\\'.toUInt8 then
      if h' : i + 1 < bytes.length then
        literalLoop bytes (i + 2) (lexical ++ [escapedByte bytes[i + 1]])
      else throw .danglingEscape
    else if bytes[i] = '"'.toUInt8 then return (lexical, i + 1)
    else literalLoop bytes (i + 1) (lexical ++ [byteAsChar bytes[i]])
  else throw .unterminatedLiteral
termination_by bytes.length - i

/-- `parse_literal`. -/
def parseLiteral (pos : Nat) : Checked ParseError (Object × Nat) := do
  let rest ← sliceFrom pos src
  let (lexical, i) ← literalLoop (utf8 (.ofList rest)) 1 []
  let pos := pos + i
  let rest ← sliceFrom pos src
  match stripPrefix ['@'] rest with
  | some _ =>
    let pos := pos + 1
    let rest ← sliceFrom pos src
    let langEnd := (findChar endsToken rest).getD (byteLength rest)
    let lang ← sliceTo langEnd rest
    return (.literal (.ofList lexical) langString (some (.ofList lang)), pos + langEnd)
  | none =>
    match stripPrefix ['^', '^'] rest with
    | some _ =>
      let (term, pos) ← parseIriOrCurieOrBlank vocab src (pos + 2)
      match term with
      | .iri datatype => return (.literal (.ofList lexical) datatype none, pos)
      | .blank _ => return (.literal (.ofList lexical) xsdString none, pos)
    | none => return (.literal (.ofList lexical) xsdString none, pos)

/-- `parse_predicate`. -/
def parsePredicate (pos : Nat) : Checked ParseError (Iri × Nat) := do
  let token : Checked ParseError (Iri × Nat) := do
    match ← parseIriOrCurieOrBlank vocab src pos with
    | (.iri iri, pos) => return (iri, pos)
    | (.blank _, _) => throw .predicateMustBeIri
  let rest ← sliceFrom pos src
  match stripPrefix ['a'] rest with
  | some _ =>
    let after ← sliceFrom 1 rest
    if after.head?.any isWhitespace then return (rdfType, pos + 1) else token
  | none => token

/-- `parse_object`. -/
def parseObject (pos : Nat) : Checked ParseError (Object × Nat) := do
  let rest ← sliceFrom pos src
  match stripPrefix ['"'] rest with
  | some _ => parseLiteral vocab src pos
  | none => do
    let (term, pos) ← parseIriOrCurieOrBlank vocab src pos
    return (term.toObject, pos)

/-- The inner loop of `parse_triples`, over the objects of a predicate. -/
def parseObjects (subject : Subject) (predicate : Iri) :
    Nat → Nat → List Triple → Checked ParseError (List Triple × Nat)
  | 0, _, _ => ExceptT.mk none
  | rounds + 1, pos, out => do
    let pos ← skipWs src pos
    let (object, pos) ← parseObject vocab src pos
    let out := out ++ [⟨subject, predicate, object⟩]
    let pos ← skipWs src pos
    let rest ← sliceFrom pos src
    match stripPrefix [','] rest with
    | some _ => parseObjects subject predicate rounds (pos + 1) out
    | none => return (out, pos)

/-- The outer loop of `parse_triples`, over the predicates of a subject. -/
def parsePredicates (subject : Subject) :
    Nat → Nat → List Triple → Checked ParseError (List Triple × Nat)
  | 0, _, _ => ExceptT.mk none
  | more + 1, pos, out => do
    let pos ← skipWs src pos
    let (predicate, pos) ← parsePredicate vocab src pos
    let (out, pos) ← parseObjects vocab src subject predicate (rounds src) pos out
    let pos ← skipWs src pos
    let rest ← sliceFrom pos src
    match stripPrefix [';'] rest with
    | some _ => parsePredicates subject more (pos + 1) out
    | none =>
      match stripPrefix ['.'] rest with
      | some _ => return (out, pos + 1)
      | none =>
        let snippet ← peekSnippet rest
        throw (.expectedSemicolonOrDot (.ofList snippet))

/-- `parse_triples`. -/
def parseTriples (pos : Nat) (out : List Triple) : Checked ParseError (List Triple × Nat) := do
  let (subject, pos) ← parseIriOrCurieOrBlank vocab src pos
  parsePredicates vocab src subject (rounds src) pos out

/-- The loop of `parse`. -/
def parseStatements : Nat → Nat → List Triple → Checked ParseError (List Triple)
  | 0, _, _ => ExceptT.mk none
  | more + 1, pos, out =>
    if byteLength src ≤ pos then return out
    else do
      let pos ← skipWs src pos
      if byteLength src ≤ pos then return out
      else do
        let (out, pos) ← parseTriples vocab src pos out
        parseStatements more pos out

end

/-- One round of `parse_directives` after its keyword: the prefix and its base. -/
def parsePrefix (src : List Char) (pos : Nat) : Checked ParseError ((String × Iri) × Nat) := do
  let pos ← skipWs src pos
  let rest ← sliceFrom pos src
  match findChar (· == ':') rest with
  | none => throw .missingColonInPrefix
  | some prefixEnd =>
    let pre ← sliceTo prefixEnd rest
    let pos ← skipWs src (pos + (prefixEnd + 1))
    let rest ← sliceFrom pos src
    match stripPrefix ['<'] rest with
    | none => throw .expectedIriAfterPrefix
    | some _ =>
      let pos := pos + 1
      let rest ← sliceFrom pos src
      match findChar (· == '>') rest with
      | none => throw .unterminatedPrefixIri
      | some close =>
        let base ← sliceTo close rest
        let pos ← skipWs src (pos + (close + 1))
        let rest ← sliceFrom pos src
        match stripPrefix ['.'] rest with
        | none => throw .expectedDotAfterPrefix
        | some _ => return ((.ofList (trimChars pre), ⟨.ofList base⟩), pos + 1)

/-- The loop of `parse_directives`. -/
def parseDirectives (src : List Char) :
    Nat → Vocabulary → Nat → Checked ParseError (Vocabulary × Nat)
  | 0, _, _ => ExceptT.mk none
  | more + 1, vocab, pos => do
    let pos ← skipWs src pos
    let rest ← sliceFrom pos src
    match stripPrefix "@prefix".toList rest with
    | none => return (vocab, pos)
    | some _ =>
      let (binding, pos) ← parsePrefix src (pos + byteLength "@prefix".toList)
      parseDirectives src more (vocab.bind binding.1 binding.2) pos

/-- `turtle::parse`. -/
def parse (src : List Char) : Checked ParseError (List Triple) := do
  let (vocab, pos) ← parseDirectives src (rounds src) .empty 0
  parseStatements vocab src (rounds src) pos []

end Turtle.Parser

end AtomrOntology
