import AtomrOntology.Logic.Layout
import AtomrOntology.Query.Chains
import AtomrOntology.Query.CypherTokens

/-!
# The grammar of the SPARQL subset

Queries as the grammar has them, the tokens they are made of, the texts that spell a token and
the plan that a query denotes.
-/

namespace AtomrOntology

namespace Sparql

open Cypher (Ident IsDecimal)

namespace Syntax

/-- An IRI as it stands between angle brackets. -/
structure Iri where
  chars : List Char
  valid : ∀ c ∈ chars, c ≠ '>'

def Iri.text (i : Iri) : String := .ofList i.chars

/-- A local name after a colon, with a prefix name before it or not. -/
structure Curie where
  ns : Option Ident
  name : Ident

/-- The prefix name; it may be empty. -/
def nsChars (ns : Option Ident) : List Char := (ns.map Ident.chars).getD []

inductive Term where
  | var (v : Ident)
  | iri (i : Iri)
  | curie (c : Curie)

/-- The keyword `a`, an IRI or a CURIE. -/
inductive Verb where
  | isA
  | iri (i : Iri)
  | curie (c : Curie)

structure Triple where
  subject : Term
  verb : Verb
  object : Term

/-- The declaration of a prefix. -/
structure Prefix where
  ns : Option Ident
  iri : Iri

/-- A star, or at least one variable. -/
inductive Select where
  | star
  | vars (v : Ident) (vs : List Ident)

/-- The limit and the offset, in either order. -/
structure Mods where
  limit : Option UInt64
  offset : Option UInt64
  offsetFirst : Bool

/-- A query. The last triple may have a dot as the others have. -/
structure Query where
  prefixes : List Prefix
  select : Select
  triple : Triple
  triples : List Triple
  dot : Bool
  mods : Mods

inductive Keyword where
  | declare
  | select
  | where
  | limit
  | offset
deriving DecidableEq

def Keyword.text : Keyword → String
  | .declare => "PREFIX"
  | .select => "SELECT"
  | .where => "WHERE"
  | .limit => "LIMIT"
  | .offset => "OFFSET"

/-- Punctuation. -/
inductive Mark where
  | star
  | leftBrace
  | rightBrace
  | dot
deriving DecidableEq

def Mark.char : Mark → Char
  | .star => '*'
  | .leftBrace => '\x7b'
  | .rightBrace => '\x7d'
  | .dot => '.'

inductive Token where
  | keyword (kw : Keyword)
  | isA
  | prefixName (ns : Option Ident)
  | var (v : Ident)
  | iri (i : Iri)
  | curie (c : Curie)
  | natural (n : UInt64)
  | mark (m : Mark)

/-- The spellings of a token. Keywords may be in any case, but not `a`. -/
inductive Token.Spelled : Token → List Char → Prop
  | keyword {kw : Keyword} {s : List Char}
    (h : s.map toAsciiLower = kw.text.toList.map toAsciiLower) : Spelled (.keyword kw) s
  | isA : Spelled .isA ['a']
  | prefixName (ns : Option Ident) : Spelled (.prefixName ns) (nsChars ns ++ [':'])
  | var (v : Ident) : Spelled (.var v) ('?' :: v.chars)
  | iri (i : Iri) : Spelled (.iri i) ('<' :: (i.chars ++ ['>']))
  | curie (c : Curie) : Spelled (.curie c) (nsChars c.ns ++ ':' :: c.name.chars)
  | natural {n : UInt64} {digits : List Char} (h : IsDecimal n.toNat digits) :
    Spelled (.natural n) digits
  | mark (m : Mark) : Spelled (.mark m) [m.char]

/-- A word, name or number is not followed directly by what would belong to it. With a colon
after it the keyword `a` would be a prefix name. -/
def Token.Ends : Token → List Char → Prop
  | .prefixName _, _ => True
  | .iri _, _ => True
  | .mark _, _ => True
  | .isA, rest => ∀ c ∈ rest.head?, isIdentContinue c = false ∧ c ≠ ':'
  | _, rest => ∀ c ∈ rest.head?, isIdentContinue c = false

def Prefix.tokens (p : Prefix) : List Token :=
  [.keyword .declare, .prefixName p.ns, .iri p.iri]

def varToken (v : Ident) : List Token := [.var v]

def Select.tokens : Select → List Token
  | .star => [.mark .star]
  | .vars v vs => (v :: vs).flatMap varToken

def Term.token : Term → Token
  | .var v => .var v
  | .iri i => .iri i
  | .curie c => .curie c

def Verb.token : Verb → Token
  | .isA => .isA
  | .iri i => .iri i
  | .curie c => .curie c

def Triple.tokens (t : Triple) : List Token := [t.subject.token, t.verb.token, t.object.token]

/-- Triples with dots between them, and after the last one or not. -/
def blockTokens (dot : Bool) (t : Triple) : List Triple → List Token
  | [] => t.tokens ++ if dot then [.mark .dot] else []
  | next :: ts => t.tokens ++ .mark .dot :: blockTokens dot next ts

def modTokens (kw : Keyword) : Option UInt64 → List Token
  | none => []
  | some n => [.keyword kw, .natural n]

def Mods.tokens (m : Mods) : List Token :=
  if m.offsetFirst then modTokens .offset m.offset ++ modTokens .limit m.limit
  else modTokens .limit m.limit ++ modTokens .offset m.offset

def Query.tokens (q : Query) : List Token :=
  q.prefixes.flatMap Prefix.tokens ++ .keyword .select :: (q.select.tokens ++
    .keyword .where :: .mark .leftBrace :: (blockTokens q.dot q.triple q.triples ++
      .mark .rightBrace :: q.mods.tokens))

/-- The declared namespaces. The last declaration of a prefix counts. -/
def namespaces (prefixes : List Prefix) : BTreeMap String String :=
  prefixes.foldl (fun m p => m.insert (.ofList (nsChars p.ns)) p.iri.text) ∅

/-- A CURIE stands for an IRI if its prefix is declared, for its local name otherwise. -/
def Curie.denote (declared : BTreeMap String String) (c : Curie) : Sparql.Term :=
  match declared[String.ofList (nsChars c.ns)]? with
  | some base => .iri (base ++ c.name.text)
  | none => .localName c.name.text

def Term.denote (declared : BTreeMap String String) : Term → Sparql.Term
  | .var v => .var v.text
  | .iri i => .iri i.text
  | .curie c => c.denote declared

def Verb.denote (declared : BTreeMap String String) : Verb → Sparql.Verb
  | .isA => .isA
  | .iri i => .term (.iri i.text)
  | .curie c => .term (c.denote declared)

def Triple.denote (declared : BTreeMap String String) (t : Triple) : TriplePattern :=
  ⟨t.subject.denote declared, t.verb.denote declared, t.object.denote declared⟩

def Select.columns : Select → List String
  | .star => []
  | .vars v vs => (v :: vs).map Ident.text

/-- The selected variables, the triples, the limit and the offset. -/
def Query.denote (q : Query) : Sparql.Query where
  columns := q.select.columns
  triples := (q.triple :: q.triples).map (Triple.denote (namespaces q.prefixes))
  limit := q.mods.limit
  offset := q.mods.offset.getD 0

end Syntax

/-- The position of the node that a variable names in a plan: the seed, or the target of the
first hop to the variable. -/
def site (seed : String) (ts : List TriplePattern) (v : String) : Option Nat :=
  if v = seed then some 0
  else ((ts.filter TriplePattern.isHop).findIdx? fun t => t.object.asVar == some v).map (· + 1)

/-- The types of a node of the plan. -/
def typesAt (seed : String) (ts : List TriplePattern) (position : Nat) : List String :=
  (ts.filter fun t => !t.isHop && t.subject.asVar.bind (site seed ts) == some position).filterMap
    fun t => t.object.label.map labelLocalname

/-- A hop to the node at a position. -/
def stepTo (seed : String) (ts : List TriplePattern) (position : Nat) (t : TriplePattern) :
    TraversalStep where
  edge := { EdgePattern.any with label := t.verb.toTerm.label.map labelLocalname }
  target := { NodePattern.any with
    bind := t.object.asVar
    types := t.object.label.toList.map labelLocalname ++ typesAt seed ts position }
  outbound := true

/-- The plan that triples denote. Triples with the keyword say the types of the nodes, and the
others are the hops. -/
def planOf (seed : String) (ts : List TriplePattern) : TraversalPlan :=
  { TraversalPlan.start { NodePattern.any with
      bind := some seed
      types := typesAt seed ts 0 } with
    steps := (ts.filter TriplePattern.isHop).mapIdx fun i t => stepTo seed ts (i + 1) t }

/-- The forms that a plan is made for: the subject of the first triple is a variable, every
other subject is that variable or the object of an earlier hop, and what is written after the
keyword is no variable. -/
def Supported (ts : List TriplePattern) : Prop :=
  ∃ t ∈ ts.head?, ∃ v, t.subject.asVar = some v ∧ ScopedFrom [v] ts

/-- The plan that a query denotes. -/
def Query.plan (q : Query) : TraversalPlan :=
  { planOf ((q.triples.head?.bind fun t => t.subject.asVar).getD "") q.triples with
    returnColumns := q.columns
    skip := q.offset
    limit := q.limit }

end Sparql

end AtomrOntology
