import AtomrOntology.Rdf.NTriples
import AtomrOntology.Query.Walks

/-!
# The SPARQL subset

The recursive-descent parser for a small subset of SPARQL, and the lowering of its triple
patterns to a traversal plan. The parser works on the characters that are left.
-/

namespace AtomrOntology

namespace Sparql

/-- Why a query is rejected. An unexpected token comes with what is left of the query, trimmed
and shortened, and the bytes that are left. -/
inductive SparqlError where
  | expected (what got : String) (left : Nat)
  | unterminatedIri
  | invalidInteger (digits : String)
  | nothingSelected
  | noTriples
  | trailingInput (got : String) (left : Nat)
  | unsupported (message : String)
  | insideCharacter
deriving DecidableEq, Repr

/-- `peek_rest_trim`: at most 40 bytes, if a character ends there. -/
def restTrim (rest : List Char) : Option String :=
  let trimmed := trimChars rest
  if 40 < (utf8 (.ofList trimmed)).length then
    (NTriples.takeBytes 40 trimmed).map fun parts => .ofList (parts.1 ++ ['…'])
  else some (.ofList trimmed)

/-- Reject what is left. -/
def reject {α : Type} (error : String → Nat → SparqlError) (rest : List Char) :
    Except SparqlError α :=
  match restTrim rest with
  | some got => .error (error got (utf8 (.ofList rest)).length)
  | none => .error .insideCharacter

def isIdentStart (c : Char) : Bool := c == '_' || isAsciiAlpha c

def isIdentContinue (c : Char) : Bool := c == '_' || isAsciiAlpha c || isAsciiDigit c

/-- Skip whitespace and line comments, from within a comment or not. -/
def skipFrom : Bool → List Char → List Char
  | _, [] => []
  | true, c :: cs => skipFrom (c != '\n') cs
  | false, c :: cs =>
    if isAsciiWhitespace c then skipFrom false cs
    else if c == '#' then skipFrom true cs
    else c :: cs

/-- `skip_ws`. -/
def skipWs (cs : List Char) : List Char := skipFrom false cs

/-- What follows a keyword in any case, unless the identifier goes on. -/
def tryKeyword (kw : String) (cs : List Char) : Option (List Char) :=
  if (cs.take kw.toList.length).map toAsciiLower = kw.toList.map toAsciiLower then
    match cs.drop kw.toList.length with
    | [] => some []
    | c :: rest => if isIdentContinue c then none else some (c :: rest)
  else none

def expectKeyword (kw : String) (cs : List Char) : Except SparqlError (List Char) :=
  match tryKeyword kw (skipWs cs) with
  | some rest => .ok rest
  | none => reject (.expected kw) (skipWs cs)

def expectChar (c : Char) (cs : List Char) : Except SparqlError (List Char) :=
  match skipWs cs with
  | [] => reject (.expected (.singleton c)) []
  | d :: rest => if d = c then .ok rest else reject (.expected (.singleton c)) (d :: rest)

/-- A term of a triple pattern. A CURIE without a known namespace keeps only its local name. -/
inductive Term where
  | var (name : String)
  | iri (value : String)
  | localName (name : String)
deriving DecidableEq, Repr

namespace Term

def label : Term → Option String
  | .iri s | .localName s => some s
  | .var _ => none

def asVar : Term → Option String
  | .var v => some v
  | _ => none

end Term

/-- The verb of a triple pattern: the keyword `a`, or a term. -/
inductive Verb where
  | isA
  | term (t : Term)
deriving DecidableEq, Repr

/-- The verb as a term: the keyword is a local name. -/
def Verb.toTerm : Verb → Term
  | .isA => .localName "a"
  | .term t => t

/-- A triple pattern. -/
structure TriplePattern where
  subject : Term
  verb : Verb
  object : Term
deriving DecidableEq, Repr

def parseIdent (cs : List Char) : Except SparqlError (String × List Char) :=
  match skipWs cs with
  | [] => reject (.expected "identifier") []
  | c :: rest =>
    if isIdentStart c then
      .ok (.ofList (c :: rest.takeWhile isIdentContinue), rest.dropWhile isIdentContinue)
    else reject (.expected "identifier") (c :: rest)

/-- `parse_uint`, for 64-bit integers. -/
def parseUint (cs : List Char) : Except SparqlError (UInt64 × List Char) :=
  let cs := skipWs cs
  let digits := cs.takeWhile isAsciiDigit
  let n := digits.foldl (fun n c => 10 * n + (c.toNat - '0'.toNat)) 0
  if digits.isEmpty then reject (.expected "integer") cs
  else if n < 2 ^ 64 then .ok (.ofNat n, cs.dropWhile isAsciiDigit)
  else .error (.invalidInteger (.ofList digits))

def parseVar (cs : List Char) : Except SparqlError (String × List Char) :=
  match skipWs cs with
  | '?' :: rest => parseIdent rest
  | rest => reject (.expected "?var") rest

def parseIriInAngles (cs : List Char) : Except SparqlError (String × List Char) :=
  match skipWs cs with
  | '<' :: rest =>
    match rest.dropWhile (· != '>') with
    | _ :: after => .ok (.ofList (rest.takeWhile (· != '>')), after)
    | [] => .error .unterminatedIri
  | rest => reject (.expected "<iri>") rest

/-- The name before the colon of a CURIE; it is empty unless it starts like an identifier. -/
def curieNamespace (cs : List Char) : List Char :=
  if cs.head?.any isIdentStart then cs.takeWhile isIdentContinue else []

/-- The name after the colon of a CURIE. -/
def curieLocal (cs : List Char) : List Char :=
  if cs.head?.any fun c => isIdentStart c || isAsciiDigit c then
    cs.takeWhile fun c => isIdentContinue c || c == '.' || c == '-'
  else []

/-- `try_parse_curie`. A CURIE is expanded if its namespace was declared. -/
def tryParseCurie (prefixes : BTreeMap String String) (cs : List Char) :
    Option (Term × List Char) :=
  let cs := skipWs cs
  let ns := curieNamespace cs
  match cs.drop ns.length with
  | ':' :: rest =>
    let name := curieLocal rest
    if name.isEmpty then none
    else
      match prefixes[String.ofList ns]? with
      | some base => some (.iri (base ++ .ofList name), rest.drop name.length)
      | none => some (.localName (.ofList name), rest.drop name.length)
  | _ => none

def parseTerm (prefixes : BTreeMap String String) (cs : List Char) :
    Except SparqlError (Term × List Char) :=
  match skipWs cs with
  | '?' :: rest => do
    let (name, rest) ← parseVar ('?' :: rest)
    return (.var name, rest)
  | '<' :: rest => do
    let (value, rest) ← parseIriInAngles ('<' :: rest)
    return (.iri value, rest)
  | rest =>
    match tryParseCurie prefixes rest with
    | some parsed => .ok parsed
    | none => reject (.expected "term") rest

def parseVerb (prefixes : BTreeMap String String) (cs : List Char) :
    Except SparqlError (Verb × List Char) :=
  match tryKeyword "a" (skipWs cs) with
  | some rest => .ok (.isA, rest)
  | none => do
    let (term, rest) ← parseTerm prefixes (skipWs cs)
    return (.term term, rest)

/-- A query as it is written: the selected variables, none for a star. -/
structure Query where
  columns : List String
  triples : List TriplePattern
  limit : Option UInt64
  offset : UInt64
deriving DecidableEq

/-- `parse_prefixes`. Every declaration takes more than one character, so their number is
bounded by the length of the query. -/
def parsePrefixes : Nat → BTreeMap String String → List Char →
    Except SparqlError (BTreeMap String String × List Char)
  | 0, prefixes, cs => .ok (prefixes, skipWs cs)
  | bound + 1, prefixes, cs =>
    match tryKeyword "PREFIX" (skipWs cs) with
    | none => .ok (prefixes, skipWs cs)
    | some rest =>
      let rest := skipWs rest
      match rest.dropWhile isIdentContinue with
      | ':' :: after => do
        let (iri, after) ← parseIriInAngles after
        parsePrefixes bound (prefixes.insert (.ofList (rest.takeWhile isIdentContinue)) iri) after
      | _ => .ok (prefixes, skipWs cs)

/-- The variables of a select clause. Each takes more than one character. -/
def parseVars : Nat → List Char → Except SparqlError (List String × List Char)
  | 0, cs => .ok ([], skipWs cs)
  | bound + 1, cs =>
    match skipWs cs with
    | '?' :: rest => do
      let (name, rest) ← parseVar ('?' :: rest)
      let (names, rest) ← parseVars bound rest
      return (name :: names, rest)
    | rest => .ok ([], rest)

/-- What is selected: nothing stands for a star. -/
def parseSelect (cs : List Char) : Except SparqlError (List String × List Char) :=
  match skipWs cs with
  | '*' :: rest => .ok ([], rest)
  | rest => do
    let (names, rest) ← parseVars rest.length rest
    if names.isEmpty then .error .nothingSelected else .ok (names, rest)

/-- `parse_triple_block`, up to the closing brace. Each triple takes more than one character. -/
def parseTripleBlock (prefixes : BTreeMap String String) : Nat → List Char →
    Except SparqlError (List TriplePattern × List Char)
  | 0, cs => .ok ([], skipWs cs)
  | bound + 1, cs =>
    match skipWs cs with
    | '\x7d' :: rest => .ok ([], '\x7d' :: rest)
    | start => do
      let (s, rest) ← parseTerm prefixes start
      let (p, rest) ← parseVerb prefixes rest
      let (o, rest) ← parseTerm prefixes rest
      match skipWs rest with
      | '.' :: rest =>
        let (triples, rest) ← parseTripleBlock prefixes bound rest
        return (⟨s, p, o⟩ :: triples, rest)
      | '\x7d' :: rest => return ([⟨s, p, o⟩], '\x7d' :: rest)
      | rest => reject (.expected "`.` or `\x7d` after triple") rest

/-- `LIMIT` and `OFFSET`, so many of them in any order. -/
def parseMods : Nat → Option UInt64 → UInt64 → List Char →
    Except SparqlError ((Option UInt64 × UInt64) × List Char)
  | 0, limit, offset, cs => .ok ((limit, offset), cs)
  | n + 1, limit, offset, cs =>
    match tryKeyword "LIMIT" (skipWs cs) with
    | some rest => do
      let (v, rest) ← parseUint rest
      parseMods n (some v) offset rest
    | none =>
      match tryKeyword "OFFSET" (skipWs cs) with
      | some rest => do
        let (v, rest) ← parseUint rest
        parseMods n limit v rest
      | none => .ok ((limit, offset), skipWs cs)

/-- The part of `parse_query` before the lowering. -/
def parseQuery (cs : List Char) : Except SparqlError (Query × List Char) := do
  let (prefixes, rest) ← parsePrefixes cs.length ∅ cs
  let rest ← expectKeyword "SELECT" rest
  let (columns, rest) ← parseSelect rest
  let rest ← expectKeyword "WHERE" rest
  let rest ← expectChar '\x7b' rest
  let (triples, rest) ← parseTripleBlock prefixes rest.length rest
  let rest ← expectChar '\x7d' rest
  let ((limit, offset), rest) ← parseMods 2 none 0 rest
  return (⟨columns, triples, limit, offset⟩, rest)

/-- What follows the last `#`, `/` or `:`. -/
def labelLocalname (s : String) : String :=
  .ofList ((s.toList.reverse.takeWhile fun c => !(c == '#' || c == '/' || c == ':')).reverse)

/-- Where a variable was first introduced in a plan. -/
inductive BindingSite where
  | seed
  | step (idx : Nat)
deriving DecidableEq, Repr

/-- `attach_type_to_binding`, for the site of a variable if it has one. -/
def attachType (plan : TraversalPlan) (site : Option BindingSite) (ty : String) : TraversalPlan :=
  match site with
  | some (.step idx) =>
    { plan with steps := plan.steps.modify idx (.addType ty) }
  | _ => { plan with seed := addType ty plan.seed }

/-- `compile_triple`. -/
def compileTriple (plan : TraversalPlan) (bindings : BTreeMap String BindingSite)
    (t : TriplePattern) : Except SparqlError (TraversalPlan × BTreeMap String BindingSite) :=
  match t.subject.asVar with
  | none => .error (.unsupported "triple subjects must be variables in this subset")
  | some s =>
    if !bindings.contains s then
      .error (.unsupported ("subject `?" ++ s ++ "` was not introduced by the seed triple"))
    else
      match t.verb.toTerm.label with
      | none => .error (.unsupported "predicate may not be a variable in this subset")
      | some label =>
        if label = "a" then
          match t.object.label with
          | none => .error (.unsupported "`rdf:type` object must be an IRI or CURIE")
          | some ty => .ok (attachType plan bindings[s]? (labelLocalname ty), bindings)
        else
          let edge := { EdgePattern.any with label := some (labelLocalname label) }
          match t.object with
          | .var v =>
            let bindings := if bindings.contains v then bindings
              else bindings.insert v (.step plan.steps.length)
            .ok ({ plan with
              steps := plan.steps ++ [⟨edge, { NodePattern.any with bind := some v }, true⟩] },
              bindings)
          | .iri c | .localName c =>
            .ok ({ plan with
              steps := plan.steps ++ [⟨edge, addType (labelLocalname c) .any, true⟩] }, bindings)

/-- Compile some triples in order. -/
def compileTriples (plan : TraversalPlan) (bindings : BTreeMap String BindingSite) :
    List TriplePattern → Except SparqlError TraversalPlan
  | [] => .ok plan
  | t :: ts => do
    let (plan, bindings) ← compileTriple plan bindings t
    compileTriples plan bindings ts

/-- `lower_triples`. The subject of the first triple is the seed. -/
def lowerTriples (triples : List TriplePattern) : Except SparqlError TraversalPlan :=
  match triples with
  | [] => .error .noTriples
  | t :: _ =>
    match t.subject with
    | .var v =>
      compileTriples (.start { NodePattern.any with bind := some v })
        ((∅ : BTreeMap String BindingSite).insert v .seed) triples
    | _ => .error (.unsupported "the first triple's subject must be a variable in this subset")

/-- Parse a query into a plan. -/
def parse (text : String) : Except SparqlError TraversalPlan := do
  let (query, rest) ← parseQuery text.toList
  let plan ← lowerTriples query.triples
  let rest := skipWs rest
  if rest.isEmpty then
    return { plan with returnColumns := query.columns, skip := query.offset, limit := query.limit }
  else reject .trailingInput rest

end Sparql

end AtomrOntology
