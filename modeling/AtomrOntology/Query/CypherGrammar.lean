import AtomrOntology.Logic.Printing
import AtomrOntology.Query.Cypher

/-!
# The grammar of the Cypher subset

Queries as the grammar has them, the tokens they are made of, the texts that spell a token
and the plan that a query denotes.
-/

namespace AtomrOntology

namespace Cypher

open Sparql (isIdentStart isIdentContinue)

/-- A letter or an underscore, then letters, digits and underscores. -/
def IsIdent : List Char → Prop
  | [] => False
  | c :: cs => isIdentStart c = true ∧ ∀ d ∈ cs, isIdentContinue d = true

/-- An identifier. -/
structure Ident where
  chars : List Char
  valid : IsIdent chars

def Ident.text (i : Ident) : String := .ofList i.chars

/-- A value of a property. -/
inductive Value where
  | string (s : String)
  | integer (i : Int64)
  | bool (b : Bool)

/-- The number of hops of an edge: `*`, `*m`, `*m..`, `*..n` or `*m..n`. -/
inductive VarLen where
  | any
  | exactly (m : UInt64)
  | atLeast (m : UInt64)
  | atMost (n : UInt64)
  | between (m n : UInt64)

/-- A node in parentheses. -/
structure Node where
  bind : Option Ident
  labels : List Ident
  properties : Option (List (Ident × Value))

/-- What an edge has in its brackets. -/
structure EdgeBody where
  bind : Option Ident
  label : Option Ident
  varLen : Option VarLen
  properties : Option (List (Ident × Value))

/-- `-[..]->`, `<-[..]-` or `-[..]-`. -/
inductive Arrow where
  | right
  | left
  | plain

/-- An edge and the node that follows it. -/
structure Hop where
  arrow : Arrow
  body : Option EdgeBody
  target : Node

/-- A negated node, or the short form without parentheses. -/
inductive Negation where
  | node (n : Node)
  | inline (bind : Ident) (labels : List Ident)

/-- A query. -/
structure Query where
  seed : Node
  hops : List Hop
  negation : Option Negation
  column : Ident
  columns : List Ident
  limit : Option UInt64

inductive Keyword where
  | match
  | where
  | not
  | return
  | limit
  | isTrue
  | isFalse
deriving DecidableEq

def Keyword.text : Keyword → String
  | .match => "MATCH"
  | .where => "WHERE"
  | .not => "NOT"
  | .return => "RETURN"
  | .limit => "LIMIT"
  | .isTrue => "true"
  | .isFalse => "false"

/-- Punctuation. -/
inductive Mark where
  | leftParen
  | rightParen
  | leftBracket
  | rightBracket
  | leftBrace
  | rightBrace
  | colon
  | comma
  | star
  | dots
  | dash
  | arrow
  | back
deriving DecidableEq

def Mark.chars : Mark → List Char
  | .leftParen => ['(']
  | .rightParen => [')']
  | .leftBracket => ['[']
  | .rightBracket => [']']
  | .leftBrace => ['\x7b']
  | .rightBrace => ['\x7d']
  | .colon => [':']
  | .comma => [',']
  | .star => ['*']
  | .dots => ['.', '.']
  | .dash => ['-']
  | .arrow => ['-', '>']
  | .back => ['<', '-']

inductive Token where
  | name (i : Ident)
  | keyword (kw : Keyword)
  | natural (n : UInt64)
  | integer (i : Int64)
  | string (s : String)
  | mark (m : Mark)

/-- The bodies of string literals and the texts they stand for: quotes and backslashes are
escaped, control characters may be. -/
inductive LiteralText : List Char → List Char → Prop
  | nil : LiteralText [] []
  | plain {c : Char} {body s : List Char} (hquote : c ≠ '"') (hescape : c ≠ '\\')
    (h : LiteralText body s) : LiteralText (c :: body) (c :: s)
  | quote {body s : List Char} (h : LiteralText body s) :
    LiteralText ('\\' :: '"' :: body) ('"' :: s)
  | backslash {body s : List Char} (h : LiteralText body s) :
    LiteralText ('\\' :: '\\' :: body) ('\\' :: s)
  | newline {body s : List Char} (h : LiteralText body s) :
    LiteralText ('\\' :: 'n' :: body) ('\n' :: s)
  | tab {body s : List Char} (h : LiteralText body s) :
    LiteralText ('\\' :: 't' :: body) ('\t' :: s)
  | return {body s : List Char} (h : LiteralText body s) :
    LiteralText ('\\' :: 'r' :: body) ('\r' :: s)

/-- Decimal digits of a number. -/
structure IsDecimal (n : Nat) (digits : List Char) : Prop where
  nonempty : digits ≠ []
  ofDigits : ∀ c ∈ digits, isAsciiDigit c = true
  value : number digits = n

/-- The spellings of a token. Keywords may be in any case. -/
inductive Token.Spelled : Token → List Char → Prop
  | name (i : Ident) : Spelled (.name i) i.chars
  | keyword {kw : Keyword} {s : List Char}
    (h : s.map toAsciiLower = kw.text.toList.map toAsciiLower) : Spelled (.keyword kw) s
  | natural {n : UInt64} {digits : List Char} (h : IsDecimal n.toNat digits) :
    Spelled (.natural n) digits
  | positive {i : Int64} {n : Nat} {digits : List Char} (h : IsDecimal n digits)
    (hi : i.toInt = n) : Spelled (.integer i) digits
  | negative {i : Int64} {n : Nat} {digits : List Char} (h : IsDecimal n digits)
    (hi : i.toInt = -n) : Spelled (.integer i) ('-' :: digits)
  | string {s : String} {body : List Char} (h : LiteralText body s.toList) :
    Spelled (.string s) ('"' :: (body ++ ['"']))
  | mark (m : Mark) : Spelled (.mark m) m.chars

/-- A word or number is not followed directly by what would belong to it. -/
def Token.Ends : Token → List Char → Prop
  | .string _, _ => True
  | .mark _, _ => True
  | _, rest => ∀ c ∈ rest.head?, isIdentContinue c = false

def optional {α : Type} (tokens : α → List Token) : Option α → List Token
  | none => []
  | some a => tokens a

def Value.tokens : Value → List Token
  | .string s => [.string s]
  | .integer i => [.integer i]
  | .bool true => [.keyword .isTrue]
  | .bool false => [.keyword .isFalse]

def entryTokens (entry : Ident × Value) : List Token :=
  .name entry.1 :: .mark .colon :: entry.2.tokens

/-- The entries of a property map. -/
def entriesTokens : List (Ident × Value) → List Token
  | [] => []
  | [entry] => entryTokens entry
  | entry :: entries => entryTokens entry ++ .mark .comma :: entriesTokens entries

def propMapTokens (entries : List (Ident × Value)) : List Token :=
  .mark .leftBrace :: (entriesTokens entries ++ [.mark .rightBrace])

def labelTokens (label : Ident) : List Token := [.mark .colon, .name label]

def identTokens (i : Ident) : List Token := [.name i]

def Node.tokens (n : Node) : List Token :=
  .mark .leftParen :: (optional identTokens n.bind ++ n.labels.flatMap labelTokens ++
    optional propMapTokens n.properties ++ [.mark .rightParen])

def VarLen.tokens : VarLen → List Token
  | .any => [.mark .star]
  | .exactly m => [.mark .star, .natural m]
  | .atLeast m => [.mark .star, .natural m, .mark .dots]
  | .atMost n => [.mark .star, .mark .dots, .natural n]
  | .between m n => [.mark .star, .natural m, .mark .dots, .natural n]

def EdgeBody.tokens (b : EdgeBody) : List Token :=
  .mark .leftBracket :: (optional identTokens b.bind ++ optional labelTokens b.label ++
    optional VarLen.tokens b.varLen ++ optional propMapTokens b.properties ++ [.mark .rightBracket])

/-- The two ends of an arrow. -/
def Arrow.marks : Arrow → Mark × Mark
  | .right => (.dash, .arrow)
  | .left => (.back, .dash)
  | .plain => (.dash, .dash)

def Hop.tokens (h : Hop) : List Token :=
  .mark h.arrow.marks.1 :: (optional EdgeBody.tokens h.body ++
    .mark h.arrow.marks.2 :: h.target.tokens)

def Negation.tokens : Negation → List Token
  | .node n => .keyword .where :: .keyword .not :: n.tokens
  | .inline bind labels =>
    .keyword .where :: .keyword .not :: .name bind :: labels.flatMap labelTokens

def columnTokens (column : Ident) : List Token := [.mark .comma, .name column]

def limitTokens (n : UInt64) : List Token := [.keyword .limit, .natural n]

def Query.tokens (q : Query) : List Token :=
  .keyword .match :: (q.seed.tokens ++ q.hops.flatMap Hop.tokens ++
    optional Negation.tokens q.negation ++ .keyword .return :: .name q.column ::
    (q.columns.flatMap columnTokens ++ optional limitTokens q.limit))

def Value.denote : Value → PropertyValue
  | .string s => .string s
  | .integer i => .integer i
  | .bool b => .bool b

/-- The last entry of a key counts. -/
def denoteEntries (entries : List (Ident × Value)) : BTreeMap String PropertyValue :=
  entries.foldl (fun m entry => m.insert entry.1.text entry.2.denote) ∅

def denoteProperties (properties : Option (List (Ident × Value))) : BTreeMap String PropertyValue :=
  denoteEntries (properties.getD [])

def Node.denote (n : Node) : NodePattern :=
  { NodePattern.any with
    bind := n.bind.map Ident.text
    types := n.labels.map Ident.text
    properties := denoteProperties n.properties }

/-- At least one hop, unless the lower bound says otherwise. -/
def VarLen.denote : VarLen → RangeInclusive
  | .any => ⟨1, .ofNat (2 ^ 64 - 1)⟩
  | .exactly m => ⟨m, m⟩
  | .atLeast m => ⟨m, .ofNat (2 ^ 64 - 1)⟩
  | .atMost n => ⟨1, n⟩
  | .between m n => ⟨m, n⟩

def EdgeBody.denote (b : EdgeBody) : EdgePattern where
  bind := b.bind.map Ident.text
  label := b.label.map Ident.text
  properties := denoteProperties b.properties
  «repeat» := b.varLen.map VarLen.denote

/-- Only a left arrow is followed against the direction of the edges. -/
def Hop.denote (h : Hop) : TraversalStep where
  edge := (h.body.map EdgeBody.denote).getD .any
  target := h.target.denote
  outbound := match h.arrow with
    | .left => false
    | _ => true

/-- The name that a negated pattern refers to. -/
def Negation.subject : Negation → Option String
  | .node n => n.bind.map Ident.text
  | .inline bind _ => some bind.text

/-- What must not match: the pattern without its name. -/
def Negation.denote : Negation → NodePattern
  | .node n => { n.denote with bind := none }
  | .inline _ labels => { NodePattern.any with types := labels.map Ident.text }

/-- The position of the first node of the path that binds the name; the seed without one. -/
def Query.site (q : Query) (name : Option String) : Nat :=
  ((q.seed :: q.hops.map Hop.target).findIdx? fun n =>
    name.isSome && n.bind.map Ident.text == name).getD 0

/-- A node of the path with the negated patterns that belong to it. -/
def Query.denoteNode (q : Query) (position : Nat) (n : Node) : NodePattern :=
  { n.denote with
    not := (q.negation.filter fun neg => q.site neg.subject == position).toList.map
      Negation.denote }

/-- The plan of a query. -/
def Query.denote (q : Query) : TraversalPlan where
  seed := q.denoteNode 0 q.seed
  steps := q.hops.mapIdx fun i hop => { hop.denote with target := q.denoteNode (i + 1) hop.target }
  returnColumns := (q.column :: q.columns).map Ident.text
  order := []
  skip := 0
  limit := q.limit

end Cypher

end AtomrOntology
