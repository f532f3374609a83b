import AtomrOntology.Rdf.Turtle

/-!
# Shapes of a schema

A schema is compiled to SHACL shapes in Turtle: one node shape for every node type, with
one property block for each of its properties and one edge block for each edge type that
leaves it. The blocks are statements of their own about numbered blank nodes.
-/

namespace AtomrOntology

namespace Shacl

def shUri : String := "http://www.w3.org/ns/shacl#"

def shPrefix : String := "sh"

def xsdUri : String := "http://www.w3.org/2001/XMLSchema#"

def xsdPrefix : String := "xsd"

def shaclIri (loc : String) : Iri := ⟨shUri ++ loc⟩

def xsdIri (loc : String) : Iri := ⟨xsdUri ++ loc⟩

/-- A local name that is written after a prefix. -/
def isSimpleLocal (cs : List Char) : Bool :=
  !cs.isEmpty && cs.all fun c => !(c == ' ' || c == '/' || c == '#' || c == '<' || c == '>')

/-- The simple local name of an IRI in a namespace. -/
def simpleLocal (uri : String) (iri : Iri) : Option (List Char) :=
  (stripPrefix uri.toList iri.value.toList).filter isSimpleLocal

/-- An IRI, with a prefix where one fits. Nothing is escaped. -/
def pushIriTerm (iri : Iri) : List Char :=
  match simpleLocal shUri iri with
  | some loc => shPrefix.toList ++ ':' :: loc
  | none =>
    match simpleLocal xsdUri iri with
    | some loc => xsdPrefix.toList ++ ':' :: loc
    | none => '<' :: iri.value.toList ++ ['>']

def pushXsdInteger (n : UInt32) : List Char :=
  '"' :: (toString n.toNat).toList ++ '"' :: '^' :: '^' :: pushIriTerm (xsdIri "integer")

/-- One more predicate of the same subject, with its object. -/
def pushClause (predicate : Iri) (object : List Char) : List Char :=
  " ;\n  ".toList ++ (pushIriTerm predicate ++ ' ' :: object)

def pushPrefix (pre base : String) : List Char :=
  "@prefix ".toList ++ pre.toList ++ ": <".toList ++ base.toList ++ "> .\n".toList

def fallbackIri (name : String) : Iri := ⟨"urn:atomr:shacl:" ++ name⟩

def typeIri (ty : NodeType) : Iri := ty.iri.getD (fallbackIri ty.name)

def shapeIriFor (ty : NodeType) : Iri := ⟨(typeIri ty).value ++ "Shape"⟩

def propertyPathIri (prop : PropertyType) : Iri := prop.iri.getD (fallbackIri prop.name)

def edgePathIri (edge : EdgeType) : Iri := edge.iri.getD (fallbackIri edge.name)

/-- The class of a target name in the range of an edge type. -/
def targetIri (schema : Schema) (name : String) : Iri :=
  (schema.nodeTypes[name]?.bind NodeType.iri).getD (fallbackIri name)

def xsdForDatatype : Datatype → Iri
  | .string => xsdIri "string"
  | .integer => xsdIri "integer"
  | .float => xsdIri "double"
  | .bool => xsdIri "boolean"
  | .dateTime => xsdIri "dateTime"
  | .iri => xsdIri "anyURI"
  | .bytes => xsdIri "base64Binary"
  | .json => xsdIri "string"

/-- The bounds of a block. A minimum of zero is left out. -/
def pushCardinality (c : Cardinality) : List Char :=
  (if 0 < c.min then pushClause (shaclIri "minCount") (pushXsdInteger c.min) else []) ++
    match c.max with
    | some max => pushClause (shaclIri "maxCount") (pushXsdInteger max)
    | none => []

def renderPropertyBlock (label : List Char) (prop : PropertyType) : List Char :=
  '_' :: ':' :: label ++ ' ' ::
    (pushIriTerm (shaclIri "path") ++ ' ' :: pushIriTerm (propertyPathIri prop)) ++
    (pushCardinality prop.cardinality ++
      pushClause (shaclIri "datatype") (pushIriTerm (xsdForDatatype prop.datatype))) ++
    " .\n".toList

def renderEdgeBlock (label : List Char) (schema : Schema) (edge : EdgeType) : List Char :=
  '_' :: ':' :: label ++ ' ' ::
    (pushIriTerm (shaclIri "path") ++ ' ' :: pushIriTerm (edgePathIri edge)) ++
    (pushCardinality edge.cardinality ++
      (pushClause (shaclIri "nodeKind") (pushIriTerm (shaclIri "IRI")) ++
        edge.range.flatMap fun target =>
          pushClause (shaclIri "class") (pushIriTerm (targetIri schema target)))) ++
    " .\n".toList

/-- What gets a block in the shape of a node type. -/
inductive Block where
  | property (prop : PropertyType)
  | edge (edge : EdgeType)

/-- The blocks of a node type: its properties, then the edge types that leave it. -/
def blocksOf (schema : Schema) (ty : NodeType) : List Block :=
  ty.properties.map .property ++
    (schema.edgeTypes.vals.filter fun edge => ty.name ∈ edge.domain).map .edge

/-- The label of a blank node. -/
def nextBlank (n : Nat) : List Char := 'b' :: (toString n).toList

def renderBlock (schema : Schema) (label : List Char) : Block → List Char
  | .property prop => renderPropertyBlock label prop
  | .edge edge => renderEdgeBlock label schema edge

def emitNodeShape (ty : NodeType) (propertyRefs : List (List Char)) : List Char :=
  pushIriTerm (shapeIriFor ty) ++ ' ' ::
    ('a' :: ' ' :: pushIriTerm (shaclIri "NodeShape")) ++
    (pushClause (shaclIri "targetClass") (pushIriTerm (typeIri ty)) ++
      propertyRefs.flatMap fun label => pushClause (shaclIri "property") ('_' :: ':' :: label)) ++
    " .\n".toList

/-- The shapes of node types with their blocks, numbered from a counter on. -/
def emitNodeTypes (schema : Schema) (counter : Nat) : List NodeType → List Char
  | [] => []
  | ty :: types =>
    let blocks := (blocksOf schema ty).zipIdx counter
    emitNodeShape ty (blocks.map fun b => nextBlank b.2) ++
      (blocks.flatMap fun b => renderBlock schema (nextBlank b.2) b.1) ++
      '\n' :: emitNodeTypes schema (counter + blocks.length) types

/-- Compile a schema to a SHACL document. -/
def toShaclTurtle (schema : Schema) : String :=
  .ofList (pushPrefix shPrefix shUri ++ pushPrefix xsdPrefix xsdUri ++
    '\n' :: emitNodeTypes schema 0 schema.nodeTypes.vals)

end Shacl

end AtomrOntology
