import AtomrOntology.Query.Sparql

/-!
# The Cypher subset

The recursive-descent parser for a small subset of openCypher. Like the parser of the SPARQL
subset it works on the characters that are left, and it tells characters apart as that one does.
-/

namespace AtomrOntology

namespace Cypher

open Sparql (isIdentStart isIdentContinue tryKeyword restTrim)

/-- Why a query is rejected. An unexpected token comes with what is left of the query, trimmed
and shortened, and the bytes that are left. -/
inductive CypherError where
  | expected (what got : String) (left : Nat)
  | noDigits (left : Nat)
  | invalidInteger (digits : String)
  | unterminatedEscape
  | unterminatedString
  | emptyRange (max min : UInt64)
  | trailingInput (got : String) (left : Nat)
  | unsupported (message : String)
  | insideCharacter
deriving DecidableEq, Repr

/-- Reject what is left. -/
def reject {α : Type} (error : String → Nat → CypherError) (rest : List Char) :
    Except CypherError α :=
  match restTrim rest with
  | some got => .error (error got (utf8 (.ofList rest)).length)
  | none => .error .insideCharacter

def skipWs (cs : List Char) : List Char := cs.dropWhile isAsciiWhitespace

def expectKeyword (kw : String) (cs : List Char) : Except CypherError (List Char) :=
  match tryKeyword kw (skipWs cs) with
  | some rest => .ok rest
  | none => reject (.expected kw) (skipWs cs)

def expectChar (c : Char) (cs : List Char) : Except CypherError (List Char) :=
  match skipWs cs with
  | [] => reject (.expected (.singleton c)) []
  | d :: rest => if d = c then .ok rest else reject (.expected (.singleton c)) (d :: rest)

def parseIdent (cs : List Char) : Except CypherError (String × List Char) :=
  match skipWs cs with
  | [] => reject (.expected "identifier") []
  | c :: rest =>
    if isIdentStart c then
      .ok (.ofList (c :: rest.takeWhile isIdentContinue), rest.dropWhile isIdentContinue)
    else reject (.expected "identifier") (c :: rest)

/-- `parse_uint`, for 64-bit integers. -/
def parseUint (cs : List Char) : Except CypherError (UInt64 × List Char) :=
  let cs := skipWs cs
  let digits := cs.takeWhile isAsciiDigit
  if digits.isEmpty then reject (.expected "integer") cs
  else if number digits < 2 ^ 64 then .ok (.ofNat (number digits), cs.dropWhile isAsciiDigit)
  else .error (.invalidInteger (.ofList digits))

/-- `parse_int`. A minus sign may stand directly before the digits. -/
def parseInt (cs : List Char) : Except CypherError (Int64 × List Char) :=
  let cs := skipWs cs
  let unsigned := if cs.head? = some '-' then cs.tail else cs
  let digits := unsigned.takeWhile isAsciiDigit
  let rest := unsigned.dropWhile isAsciiDigit
  let value : Int := if cs.head? = some '-' then -number digits else number digits
  if digits.isEmpty then .error (.noDigits (utf8 (.ofList cs)).length)
  else if -2 ^ 63 ≤ value ∧ value < 2 ^ 63 then .ok (.ofInt value, rest)
  else .error (.invalidInteger (.ofList (cs.take (cs.length - rest.length))))

/-- What stands for a character after a backslash. -/
def escaped (c : Char) : List Char :=
  if c = 'n' then ['\n'] else if c = 't' then ['\t'] else if c = 'r' then ['\r']
  else bytesAsChars c

/-- A string literal after its opening quote. The bytes of the text become characters. -/
def literalBody : List Char → Except CypherError (List Char × List Char)
  | [] => .error .unterminatedString
  | '"' :: rest => .ok ([], rest)
  | ['\\'] => .error .unterminatedEscape
  | '\\' :: c :: rest => do
    let (out, rest) ← literalBody rest
    return (escaped c ++ out, rest)
  | c :: rest => do
    let (out, rest) ← literalBody rest
    return (bytesAsChars c ++ out, rest)

def parseStringLiteral (cs : List Char) : Except CypherError (String × List Char) :=
  match skipWs cs with
  | '"' :: rest => do
    let (out, rest) ← literalBody rest
    return (.ofList out, rest)
  | rest => reject (.expected "string literal") rest

def parseValue (cs : List Char) : Except CypherError (PropertyValue × List Char) :=
  match skipWs cs with
  | [] => reject (.expected "value") []
  | c :: rest =>
    if c = '"' then do
      let (s, rest) ← parseStringLiteral (c :: rest)
      return (.string s, rest)
    else if isAsciiDigit c || c == '-' then do
      let (i, rest) ← parseInt (c :: rest)
      return (.integer i, rest)
    else if isAsciiAlpha c then
      match tryKeyword "true" (c :: rest) with
      | some rest => .ok (.bool true, rest)
      | none =>
        match tryKeyword "false" (c :: rest) with
        | some rest => .ok (.bool false, rest)
        | none => reject (.expected "value (string, integer, bool)") (c :: rest)
    else reject (.expected "value") (c :: rest)

/-- The entries of a property map after its opening brace. Each takes more than one character,
so their number is bounded by the length of what is left. -/
def parseEntries : Nat → BTreeMap String PropertyValue → List Char →
    Except CypherError (BTreeMap String PropertyValue × List Char)
  | 0, into, cs => .ok (into, cs)
  | bound + 1, into, cs => do
    let (key, rest) ← parseIdent cs
    let rest ← expectChar ':' rest
    let (value, rest) ← parseValue rest
    let into := into.insert key value
    match skipWs rest with
    | ',' :: rest => parseEntries bound into rest
    | '\x7d' :: rest => return (into, rest)
    | rest => reject (.expected "`,` or `\x7d` in property map") rest

def parsePropMap (cs : List Char) :
    Except CypherError (BTreeMap String PropertyValue × List Char) := do
  let rest ← expectChar '\x7b' cs
  match skipWs rest with
  | '\x7d' :: rest => return (∅, rest)
  | rest => parseEntries (rest.length + 1) ∅ rest

/-- An optional property map. -/
def parseOptPropMap (cs : List Char) :
    Except CypherError (BTreeMap String PropertyValue × List Char) :=
  match skipWs cs with
  | '\x7b' :: rest => parsePropMap ('\x7b' :: rest)
  | rest => .ok (∅, rest)

/-- An optional binding. -/
def parseOptIdent (cs : List Char) : Except CypherError (Option String × List Char) :=
  match skipWs cs with
  | [] => .ok (none, [])
  | c :: rest =>
    if isIdentStart c then do
      let (name, rest) ← parseIdent (c :: rest)
      return (some name, rest)
    else .ok (none, c :: rest)

/-- Labels with their colons. -/
def parseLabels : Nat → List Char → Except CypherError (List String × List Char)
  | 0, cs => .ok ([], skipWs cs)
  | bound + 1, cs =>
    match skipWs cs with
    | ':' :: rest => do
      let (label, rest) ← parseIdent rest
      let (labels, rest) ← parseLabels bound rest
      return (label :: labels, rest)
    | rest => .ok ([], rest)

def parseNodePattern (cs : List Char) : Except CypherError (NodePattern × List Char) := do
  let rest ← expectChar '(' cs
  let (bind, rest) ← parseOptIdent rest
  let (types, rest) ← parseLabels rest.length rest
  let (properties, rest) ← parseOptPropMap rest
  let rest ← expectChar ')' rest
  return ({ NodePattern.any with bind, types, properties }, rest)

/-- An optional label of an edge. -/
def parseOptLabel (cs : List Char) : Except CypherError (Option String × List Char) :=
  match skipWs cs with
  | ':' :: rest => do
    let (label, rest) ← parseIdent rest
    return (some label, rest)
  | rest => .ok (none, rest)

/-- The upper bound of a repetition after the two dots. -/
def parseUpper (cs : List Char) : Except CypherError (UInt64 × List Char) :=
  if (skipWs cs).head?.any isAsciiDigit then parseUint (skipWs cs)
  else .ok (.ofNat (2 ^ 64 - 1), skipWs cs)

/-- The bounds of a repetition after the star. -/
def parseBounds (cs : List Char) : Except CypherError (RangeInclusive × List Char) := do
  let cs := skipWs cs
  let ((min, max), rest) ← if cs.head?.any isAsciiDigit then do
      let (min, rest) ← parseUint cs
      pure ((min, min), rest)
    else pure ((1, .ofNat (2 ^ 64 - 1)), cs)
  let (max, rest) ← match skipWs rest with
    | '.' :: '.' :: rest => parseUpper rest
    | rest => pure (max, rest)
  if max < min then .error (.emptyRange max min) else return (⟨min, max⟩, rest)

/-- An optional repetition. -/
def parseOptRepeat (cs : List Char) : Except CypherError (Option RangeInclusive × List Char) :=
  match skipWs cs with
  | '*' :: rest => do
    let (range, rest) ← parseBounds rest
    return (some range, rest)
  | rest => .ok (none, rest)

/-- An optional edge body in brackets. -/
def parseEdgeBody (cs : List Char) : Except CypherError (EdgePattern × List Char) :=
  match skipWs cs with
  | '[' :: rest => do
    let (bind, rest) ← parseOptIdent rest
    let (label, rest) ← parseOptLabel rest
    let (range, rest) ← parseOptRepeat rest
    let (properties, rest) ← parseOptPropMap rest
    let rest ← expectChar ']' rest
    return (⟨bind, label, properties, range⟩, rest)
  | rest => .ok (.any, rest)

/-- Whether an edge points back, and what follows. -/
def parseBack (cs : List Char) : Bool × List Char :=
  match skipWs cs with
  | '<' :: rest => (true, rest)
  | rest => (false, rest)

/-- Whether an edge has an arrow head directly after its last dash, and what follows. -/
def parseHead (cs : List Char) : Bool × List Char :=
  match cs with
  | '>' :: rest => (true, rest)
  | rest => (false, rest)

/-- `parse_edge_and_node`. An edge without an arrow is outbound. -/
def parseEdgeAndNode (cs : List Char) : Except CypherError (TraversalStep × List Char) := do
  let (inbound, rest) := parseBack cs
  let rest ← expectChar '-' rest
  let (edge, rest) ← parseEdgeBody rest
  let rest ← expectChar '-' rest
  let (arrow, rest) := parseHead rest
  if inbound && arrow then
    .error (.unsupported "bidirectional edge `<-[..]->` not supported")
  else
    let (target, rest) ← parseNodePattern rest
    return (⟨edge, target, !inbound⟩, rest)

/-- The hops of a path. Each takes more than one character. -/
def parseSteps : Nat → List Char → Except CypherError (List TraversalStep × List Char)
  | 0, cs => .ok ([], skipWs cs)
  | bound + 1, cs =>
    let cs := skipWs cs
    if cs.head? = some '-' ∨ cs.head? = some '<' then do
      let (step, rest) ← parseEdgeAndNode cs
      let (steps, rest) ← parseSteps bound rest
      return (step :: steps, rest)
    else .ok ([], cs)

def parseInlineNodeConstraint (cs : List Char) : Except CypherError (NodePattern × List Char) := do
  let (bind, rest) ← parseIdent cs
  let (types, rest) ← parseLabels rest.length rest
  return ({ NodePattern.any with bind := some bind, types }, rest)

/-- A negated pattern after `NOT`, in parentheses or not. -/
def parseNegated (cs : List Char) : Except CypherError (NodePattern × List Char) :=
  match skipWs cs with
  | '(' :: rest => parseNodePattern ('(' :: rest)
  | rest => parseInlineNodeConstraint rest

/-- An optional `WHERE NOT`. -/
def parseWhere (cs : List Char) : Except CypherError (Option NodePattern × List Char) :=
  match tryKeyword "WHERE" (skipWs cs) with
  | none => .ok (none, skipWs cs)
  | some rest =>
    match tryKeyword "NOT" (skipWs rest) with
    | none => .error (.unsupported "only `WHERE NOT (...)` is supported in this subset")
    | some rest => do
      let (neg, rest) ← parseNegated rest
      return (some neg, rest)

/-- The negated pattern loses its binding. -/
def attachNotTo (neg node : NodePattern) : NodePattern :=
  { node with not := node.not ++ [{ neg with bind := none }] }

/-- Attach a negated pattern to the first target of the name, if there is one. -/
def attachToTarget (name : String) (neg : NodePattern) :
    List TraversalStep → Option (List TraversalStep)
  | [] => none
  | step :: steps =>
    if step.target.bind = some name then
      some ({ step with target := attachNotTo neg step.target } :: steps)
    else (attachToTarget name neg steps).map (step :: ·)

/-- `apply_negation`: without a known name, the negated pattern belongs to the seed. -/
def applyNegation (plan : TraversalPlan) (neg : NodePattern) : TraversalPlan :=
  match neg.bind with
  | none => { plan with seed := attachNotTo neg plan.seed }
  | some name =>
    if plan.seed.bind = some name then { plan with seed := attachNotTo neg plan.seed }
    else match attachToTarget name neg plan.steps with
      | some steps => { plan with steps }
      | none => { plan with seed := attachNotTo neg plan.seed }

/-- The returned columns. Each takes at least one character. -/
def parseColumns : Nat → List Char → Except CypherError (List String × List Char)
  | 0, cs => .ok ([], cs)
  | bound + 1, cs => do
    let (col, rest) ← parseIdent cs
    match skipWs rest with
    | ',' :: rest =>
      let (cols, rest) ← parseColumns bound rest
      return (col :: cols, rest)
    | rest => return ([col], rest)

/-- An optional limit. -/
def parseLimit (cs : List Char) : Except CypherError (Option UInt64 × List Char) :=
  match tryKeyword "LIMIT" (skipWs cs) with
  | some rest => do
    let (n, rest) ← parseUint rest
    return (some n, rest)
  | none => .ok (none, skipWs cs)

def parseQuery (cs : List Char) : Except CypherError (TraversalPlan × List Char) := do
  let rest ← expectKeyword "MATCH" cs
  let (seed, rest) ← parseNodePattern rest
  let (steps, rest) ← parseSteps rest.length rest
  let plan := { TraversalPlan.start seed with steps }
  let (neg, rest) ← parseWhere rest
  let plan := match neg with
    | some neg => applyNegation plan neg
    | none => plan
  let rest ← expectKeyword "RETURN" rest
  let (returnColumns, rest) ← parseColumns (rest.length + 1) rest
  let (limit, rest) ← parseLimit rest
  return ({ plan with returnColumns, limit }, rest)

/-- Parse a query into a plan. -/
def parse (text : String) : Except CypherError TraversalPlan := do
  let (plan, rest) ← parseQuery text.toList
  let rest := skipWs rest
  if rest.isEmpty then return plan else reject .trailingInput rest

end Cypher

end AtomrOntology
