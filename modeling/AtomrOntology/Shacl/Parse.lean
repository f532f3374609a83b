import AtomrOntology.Core.Multimap
import AtomrOntology.Shacl.Compile

/-!
# Reading shapes

A SHACL document is read into a schema: its triples are indexed by subject, each node shape
gives a node type, and each property block that names a datatype gives a property.
-/

namespace AtomrOntology

namespace Shacl

/-- Why a document gives no schema. -/
inductive ShaclParseError where
  | adapter (e : Turtle.ParseError)
  | missingRequired (term : String)
deriving DecidableEq, Repr

/-- A subject with an order: IRIs come before blank nodes. -/
abbrev SubjectKey := Nat × String

/-- The key of a subject. -/
def subjectKey : Subject → SubjectKey
  | .iri iri => (0, iri.value)
  | .blank label => (1, label)

/-- `str::parse::<u32>`: digits after an optional plus sign, within the bound. -/
def parseU32 (cs : List Char) : Option UInt32 :=
  let digits := if cs.head? = some '+' then cs.tail else cs
  if !digits.isEmpty && digits.all Char.isDigit then
    let n := Nat.ofDigitChars 10 digits 0
    if n < 2 ^ 32 then some (UInt32.ofNat n) else none
  else none

def literalAsU32 : Object → Option UInt32
  | .literal lexical _ _ => parseU32 lexical.toList
  | _ => none

def datatypeFromXsd (iri : Iri) : Datatype :=
  let loc := (stripPrefix xsdUri.toList iri.value.toList).getD iri.value.toList
  if loc = "string".toList then .string
  else if loc ∈ ["integer".toList, "int".toList, "long".toList, "short".toList, "byte".toList,
      "nonNegativeInteger".toList, "positiveInteger".toList, "negativeInteger".toList,
      "nonPositiveInteger".toList] then .integer
  else if loc ∈ ["double".toList, "float".toList, "decimal".toList] then .float
  else if loc = "boolean".toList then .bool
  else if loc ∈ ["dateTime".toList, "date".toList] then .dateTime
  else if loc = "anyURI".toList then .iri
  else if loc ∈ ["base64Binary".toList, "hexBinary".toList] then .bytes
  else .string

/-- What has been read of a property block. -/
structure PropertyBlock where
  path : Option Iri
  min : UInt32
  max : Option UInt32
  datatype : Option Datatype

/-- Nothing has been read. -/
def PropertyBlock.empty : PropertyBlock := ⟨none, 0, none, none⟩

/-- The object of a triple, if it is an IRI. -/
def asIri? : Object → Option Iri
  | .iri iri => some iri
  | _ => none

/-- Take in one predicate and object. What is not understood is left out. -/
def PropertyBlock.scan (b : PropertyBlock) (predicate : Iri) (object : Object) : PropertyBlock :=
  if predicate = shaclIri "path" then
    { b with path := (asIri? object).or b.path }
  else if predicate = shaclIri "minCount" then { b with min := (literalAsU32 object).getD b.min }
  else if predicate = shaclIri "maxCount" then { b with max := (literalAsU32 object).or b.max }
  else if predicate = shaclIri "datatype" then
    { b with datatype := ((asIri? object).map datatypeFromXsd).or b.datatype }
  else b

/-- The property of a block; a block without a path or a datatype has none. -/
def parsePropertyBlock (triples : List Triple) : Option PropertyType :=
  let b := triples.foldl (fun b t => b.scan t.predicate t.object) PropertyBlock.empty
  match b.path, b.datatype with
  | some path, some datatype => some ⟨localName path, datatype, ⟨b.min, b.max⟩, some path, none⟩
  | _, _ => none

/-- The triples of every subject, in their order. -/
def bySubject (triples : List Triple) : BTreeMap SubjectKey (List Triple) :=
  triples.foldl (fun m t => m.entryOr (subjectKey t.subject) [] (· ++ [t])) ∅

/-- The subjects that are declared node shapes. -/
def shapeSubjects (triples : List Triple) : BTreeSet SubjectKey :=
  triples.foldl (fun shapes t =>
    if t.predicate = rdfType ∧ t.object = .iri (shaclIri "NodeShape") then
      shapes.insert (subjectKey t.subject)
    else shapes) ∅

/-- The subject that an object points to. -/
def blockKey : Object → Option SubjectKey
  | .iri iri => some (0, iri.value)
  | .blank label => some (1, label)
  | .literal .. => none

/-- The node type of a shape, from its triples. -/
def shapeType (index : BTreeMap SubjectKey (List Triple)) (triples : List Triple) :
    Except ShaclParseError NodeType :=
  match triples.findSome? fun t =>
      if t.predicate = shaclIri "targetClass" then asIri? t.object else none with
  | none => .error (.missingRequired "sh:targetClass")
  | some target =>
    .ok { NodeType.new (localName target) with
      iri := some target
      properties := (triples.filter (·.predicate = shaclIri "property")).filterMap fun t =>
        (blockKey t.object).bind fun key => index[key]?.bind parsePropertyBlock }

/-- Declare the node types of the shapes, in the order of their subjects. -/
def declareShapes (index : BTreeMap SubjectKey (List Triple)) (schema : Schema) :
    List SubjectKey → Except ShaclParseError Schema
  | [] => .ok schema
  | shape :: shapes =>
    match index[shape]? with
    | none => declareShapes index schema shapes
    | some triples => do
      let ty ← shapeType index triples
      declareShapes index (schema.declareNodeType ty) shapes

def buildSchema (triples : List Triple) : Except ShaclParseError Schema :=
  declareShapes (bySubject triples) .empty (shapeSubjects triples).toList

/-- Read a SHACL document into a schema. -/
def fromShaclTurtle (input : String) : Except ShaclParseError Schema :=
  match Turtle.parse input.toList with
  | .error e => .error (.adapter e)
  | .ok triples => buildSchema triples

end Shacl

end AtomrOntology
