import AtomrOntology.Core.Numbers
import AtomrOntology.Rdf.Triple

/-!
# The importers

A vocabulary is a mapping of known classes and properties. Importing declares the types of the
mapping, gives each subject of a known class a node, and walks the triples again to attach the
values of known data properties and to link the targets of known object properties.
-/

namespace AtomrOntology

/-- A recognized datatype property. -/
structure DataPropertySpec where
  iri : String
  localName : String
  datatype : Datatype

/-- A recognized object property. -/
structure ObjectPropertySpec where
  iri : String
  localName : String

/-- A recognized class. -/
structure ClassSpec where
  iri : String
  localName : String

/-- A vocabulary: the classes, the data properties with the node types they apply to, the object
properties with domain and range, and the label of targets without a type. -/
structure Mapping where
  classes : List ClassSpec
  dataProperties : List (DataPropertySpec × List String)
  objectProperties : List (ObjectPropertySpec × List String × List String)
  defaultObjectClass : Option String

namespace Mapping

variable (m : Mapping)

/-- The property types of each node type that a data property applies to. -/
def propsByClass : BTreeMap String (List PropertyType) :=
  m.dataProperties.foldl (fun props (spec, appliesTo) =>
    let pt : PropertyType := ⟨spec.localName, spec.datatype, .any, some ⟨spec.iri⟩, none⟩
    appliesTo.foldl (fun props cls => props.insert cls (props[cls]?.getD [] ++ [pt])) props) ∅

/-- Declare the types of a mapping. -/
def declare : Ontology :=
  let (schema, rest) := m.classes.foldl (fun (schema, props) cls =>
    let nt : NodeType := { NodeType.new cls.localName with
      iri := some ⟨cls.iri⟩
      properties := props[cls.localName]?.getD [] }
    (schema.declareNodeType nt, props.erase cls.localName)) (Schema.empty, m.propsByClass)
  -- what only data properties name is declared without an IRI
  let schema := rest.toList.foldl (fun schema (cls, props) =>
    schema.declareNodeType { NodeType.new cls with properties := props }) schema
  let schema := m.objectProperties.foldl (fun schema (spec, domain, range) =>
    schema.declareEdgeType { EdgeType.new spec.localName with
      iri := some ⟨spec.iri⟩, domain, range }) schema
  { Ontology.empty with schema }

end Mapping

/-- `literal_value`: what is not read as the declared datatype stays a string. -/
def literalValue (datatype : Datatype) (lexical : String) : PropertyValue :=
  match datatype with
  | .string => .string lexical
  | .integer =>
    match parseI64 lexical with
    | some i => .integer i
    | none => .string lexical
  | .float =>
    match parseF64 lexical with
    | some f => .float f
    | none => .string lexical
  | .bool =>
    if lexical = "true" ∨ lexical = "1" then .bool true
    else if lexical = "false" ∨ lexical = "0" then .bool false
    else .string lexical
  | .iri =>
    match Iri.new lexical with
    | .ok iri => .iri iri
    | .error _ => .string lexical
  | _ => .string lexical

/-- The value of an object under a data property. -/
def DataPropertySpec.value (spec : DataPropertySpec) : Object → Option PropertyValue
  | .literal lexical _ _ => some (literalValue spec.datatype lexical)
  | .iri iri => if spec.datatype = .iri then some (.iri iri) else none
  | .blank _ => none

namespace Mapping

/-- The recognized labels of the subjects seen so far, in the order of the triples. -/
abbrev SubjectTypes := BTreeMap String (List String)

/-- Take up the type that a triple gives: any triple whose object is a recognized class. -/
def typeStep (m : Mapping) (types : SubjectTypes) (t : Triple) : SubjectTypes :=
  match t.subject, t.object with
  | .iri subj, .iri cls =>
    let isTypeTriple := t.predicate = rdfType ∨ m.classes.any (·.iri == cls.value)
    if ¬isTypeTriple then types
    else
      match m.classes.find? (·.iri == cls.value) with
      | some c =>
        let entry := types[subj.value]?.getD []
        types.insert subj.value
          (if entry.any (· == c.localName) then entry else entry ++ [c.localName])
      | none => types
  | _, _ => types

/-- The recognized labels of each subject. -/
def subjectTypes (m : Mapping) (triples : List Triple) : SubjectTypes :=
  triples.foldl m.typeStep ∅

variable [Blake3]

/-- `ensure_node`: get or create the node of an IRI with its recognized labels, or with the
fallback if it has none. -/
def ensureNode (types : SubjectTypes) (o : Ontology) (iri : String) (fallback : Option String) :
    Option (NodeId × Ontology) := do
  let labels := types[iri]?
  let label ← (labels.bind List.head?).or fallback
  let node := ((labels.getD []).drop 1).foldl Node.withLabel (Node.fromIri ⟨iri⟩ label)
  match o.nodes[node.id]? with
  | some existing =>
    let merged := { existing with
      types := node.types.foldl (fun types l => if types.any (· == l) then types else types ++ [l])
        existing.types }
    return (merged.id, o.upsertNode merged)
  | none => return (node.id, o.upsertNode node)

/-- Attach the value or add the edge of one triple. -/
def projectStep (m : Mapping) (types : SubjectTypes) (o : Ontology) (t : Triple) : Ontology :=
  if t.predicate = rdfType then o
  else
    match t.subject with
    | .blank _ => o
    | .iri subj =>
      match m.dataProperties.find? (·.1.iri == t.predicate.value) with
      | some (spec, _) =>
        match spec.value t.object with
        | none => o
        | some value =>
          match ensureNode types o subj.value none with
          | none => o
          | some (id, o) =>
            match o.nodes[id]? with
            | some node => o.upsertNode (node.withProperty spec.localName value)
            | none => o
      | none =>
        match m.objectProperties.find? (·.1.iri == t.predicate.value) with
        | some (spec, _) =>
          match t.object with
          | .iri target =>
            match ensureNode types o subj.value none with
            | none => o
            | some (src, o) =>
              match ensureNode types o target.value m.defaultObjectClass with
              | none => o
              | some (tgt, o) => o.upsertEdge (Edge.between src spec.localName tgt)
          | _ => o
        | none => o

/-- Give the subjects a node so that edges have endpoints. -/
def precreate (types : SubjectTypes) (o : Ontology) (subjects : List String) : Ontology :=
  subjects.foldl (fun o iri =>
    match ensureNode types o iri none with
    | some (_, o) => o
    | none => o) o

/-- Every typed subject gets a node first, then the triples are walked. -/
def project (m : Mapping) (o : Ontology) (triples : List Triple) : Ontology :=
  let types := m.subjectTypes triples
  triples.foldl (m.projectStep types) (precreate types o types.keys)

/-- What an importer makes of the triples of a document. -/
def imported (m : Mapping) (triples : List Triple) : Ontology := m.project m.declare triples

end Mapping

namespace Foaf

/-- The mapping of the FOAF importer. -/
def mapping : Mapping where
  classes :=
    [⟨"http://xmlns.com/foaf/0.1/Person", "Person"⟩,
      ⟨"http://xmlns.com/foaf/0.1/Organization", "Organization"⟩]
  dataProperties :=
    [(⟨"http://xmlns.com/foaf/0.1/name", "name", .string⟩, ["Person", "Organization"]),
      (⟨"http://xmlns.com/foaf/0.1/mbox", "mbox", .iri⟩, ["Person", "Organization"]),
      (⟨"http://xmlns.com/foaf/0.1/homepage", "homepage", .iri⟩, ["Person", "Organization"])]
  objectProperties :=
    [(⟨"http://xmlns.com/foaf/0.1/knows", "knows"⟩, ["Person"], ["Person"]),
      (⟨"http://xmlns.com/foaf/0.1/member", "member"⟩, ["Organization"], ["Person"])]
  defaultObjectClass := some "Person"

end Foaf

end AtomrOntology
