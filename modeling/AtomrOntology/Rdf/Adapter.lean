import AtomrOntology.Rdf.Triple

/-!
# The RDF adapter

The projection of an ontology to triples, and the partial import of class and property
declarations. The projection also records which type names each triple refers to, and
under which IRI.
-/

namespace AtomrOntology

/-- Where types without an IRI live. -/
def localPrefix : String := "https://atomr.dev/ontology/local#"

/-- A name as an IRI: expanded, taken as it is, or put under a prefix. -/
def ensureIri (name fallbackPrefix : String) (vocab : Vocabulary) : Iri :=
  match vocab.expandCurie name with
  | some iri => iri
  | none => if name.toList.contains ':' then ⟨name⟩ else ⟨fallbackPrefix ++ name⟩

/-- What a type name stands for. -/
inductive TypeRole where
  | nodeType
  | edgeType
deriving DecidableEq, Repr

/-- A type name in a triple, and the IRI used for it. -/
structure NameUse where
  role : TypeRole
  name : String
  iri : Iri
deriving DecidableEq, Repr

/-- A triple with the type names it refers to. -/
structure Emitted where
  triple : Triple
  uses : List NameUse
deriving DecidableEq, Repr

section Emit

variable (vocab : Vocabulary)

/-- The use of a type name that falls back to the vocabulary. -/
def fallbackUse (role : TypeRole) (name : String) : NameUse :=
  ⟨role, name, ensureIri name localPrefix vocab⟩

/-- The triples of a property of a class. -/
def emitProperty (cls : NameUse) (prop : PropertyType) : List Emitted :=
  let propIri := prop.iri.getD (ensureIri prop.name localPrefix vocab)
  [⟨⟨.iri propIri, rdfType, .iri owlDatatypeProperty⟩, []⟩,
    ⟨⟨.iri propIri, rdfsDomain, .iri cls.iri⟩, [cls]⟩,
    ⟨⟨.iri propIri, rdfsRange, .iri (datatypeIri prop.datatype)⟩, []⟩]

/-- The triples of a node type. -/
def emitNodeType (name : String) (ty : NodeType) : List Emitted :=
  let cls : NameUse := ⟨.nodeType, name, ty.iri.getD (ensureIri name localPrefix vocab)⟩
  ⟨⟨.iri cls.iri, rdfType, .iri owlClass⟩, [cls]⟩ ::
    (ty.supertypes.map fun sup =>
      let supUse := fallbackUse vocab .nodeType sup
      ⟨⟨.iri cls.iri, rdfsSubclass, .iri supUse.iri⟩, [cls, supUse]⟩) ++
    ty.properties.flatMap (emitProperty vocab cls)

/-- The triples of an edge type. -/
def emitEdgeType (name : String) (ty : EdgeType) : List Emitted :=
  let pred : NameUse := ⟨.edgeType, name, ty.iri.getD (ensureIri name localPrefix vocab)⟩
  ⟨⟨.iri pred.iri, rdfType, .iri owlObjectProperty⟩, [pred]⟩ ::
    (if ty.functional then [⟨⟨.iri pred.iri, rdfType, .iri owlFunctional⟩, [pred]⟩] else []) ++
    (ty.inverseOf.toList.map fun inv =>
      let invUse := fallbackUse vocab .edgeType inv
      ⟨⟨.iri pred.iri, owlInverseOf, .iri invUse.iri⟩, [pred, invUse]⟩) ++
    (ty.domain.map fun d =>
      let dUse := fallbackUse vocab .nodeType d
      ⟨⟨.iri pred.iri, rdfsDomain, .iri dUse.iri⟩, [pred, dUse]⟩) ++
    ty.range.map fun r =>
      let rUse := fallbackUse vocab .nodeType r
      ⟨⟨.iri pred.iri, rdfsRange, .iri rUse.iri⟩, [pred, rUse]⟩

def emitSchema (schema : Schema) : List Emitted :=
  (schema.nodeTypes.toList.flatMap fun kv => emitNodeType vocab kv.1 kv.2) ++
    schema.edgeTypes.toList.flatMap fun kv => emitEdgeType vocab kv.1 kv.2

def nodeSubject (node : Node) : Subject :=
  match node.iri with
  | some iri => .iri iri
  | none => .blank node.id.toHex

def nodeObject (id : NodeId) (o : Ontology) : Object :=
  match o.nodes[id]?.bind Node.iri with
  | some iri => .iri iri
  | none => .iri ⟨"_:n" ++ id.toHex⟩

/-- The use of a node type by its instances. -/
def classUse (o : Ontology) (name : String) : NameUse :=
  ⟨.nodeType, name,
    (o.schema.nodeTypes[name]?.bind NodeType.iri).getD (ensureIri name localPrefix vocab)⟩

/-- The use of an edge type by its edges. -/
def predicateUse (o : Ontology) (label : String) : NameUse :=
  ⟨.edgeType, label,
    (o.schema.edgeTypes[label]?.bind EdgeType.iri).getD (ensureIri label localPrefix vocab)⟩

/-- The IRI of a property of a node: declared by the first of its types that is declared. -/
def propertyIri (o : Ontology) (node : Node) (name : String) : Iri :=
  let declared := (node.types.findSome? fun tn => o.schema.nodeTypes[tn]?).bind fun nt =>
    (nt.properties.find? (·.name == name)).bind PropertyType.iri
  declared.getD (ensureIri name localPrefix vocab)

variable [SerdeJson] [RdfText]

/-- The triples of a node. -/
def emitNode (o : Ontology) (node : Node) : List Emitted :=
  (node.types.map fun typeName =>
    let cls := classUse vocab o typeName
    ⟨⟨nodeSubject node, rdfType, .iri cls.iri⟩, [cls]⟩) ++
  node.properties.toList.filterMap fun kv =>
    kv.2.toObject.map fun object =>
      ⟨⟨nodeSubject node, propertyIri vocab o node kv.1, object⟩, []⟩

def emitNodes (o : Ontology) : List Emitted := o.nodes.vals.flatMap (emitNode vocab o)

/-- The triple of an edge, if its source is stored. -/
def emitEdge (o : Ontology) (edge : Edge) : Option Emitted :=
  o.nodes[edge.source]?.map fun src =>
    let pred := predicateUse vocab o edge.label
    ⟨⟨nodeSubject src, pred.iri, nodeObject edge.target o⟩, [pred]⟩

def emitEdges (o : Ontology) : List Emitted := o.edges.vals.filterMap (emitEdge vocab o)

/-- An axiom between two names. -/
def emitBinary (subject : NameUse) (predicate : Iri) (object : NameUse) : Emitted :=
  ⟨⟨.iri subject.iri, predicate, .iri object.iri⟩, [subject, object]⟩

/-- An axiom that puts a property into a class of properties. -/
def emitCharacteristic (property : NameUse) (characteristic : Iri) : Emitted :=
  ⟨⟨.iri property.iri, rdfType, .iri characteristic⟩, [property]⟩

/-- The triple of an axiom. -/
def emitAxiom : AxiomKind → Emitted
  | .subClassOf sub sup =>
    emitBinary (fallbackUse vocab .nodeType sub) rdfsSubclass (fallbackUse vocab .nodeType sup)
  | .equivalentClass left right =>
    emitBinary (fallbackUse vocab .nodeType left) owlEquivalentClass
      (fallbackUse vocab .nodeType right)
  | .disjointWith left right =>
    emitBinary (fallbackUse vocab .nodeType left) owlDisjointWith
      (fallbackUse vocab .nodeType right)
  | .domain property cls =>
    emitBinary (fallbackUse vocab .edgeType property) rdfsDomain (fallbackUse vocab .nodeType cls)
  | .range property cls =>
    emitBinary (fallbackUse vocab .edgeType property) rdfsRange (fallbackUse vocab .nodeType cls)
  | .functional property =>
    emitCharacteristic (fallbackUse vocab .edgeType property) owlFunctional
  | .inverseFunctional property =>
    emitCharacteristic (fallbackUse vocab .edgeType property) owlInverseFunctional
  | .inverseOf left right =>
    emitBinary (fallbackUse vocab .edgeType left) owlInverseOf (fallbackUse vocab .edgeType right)
  | .symmetric property =>
    emitCharacteristic (fallbackUse vocab .edgeType property) owlSymmetric
  | .transitive property =>
    emitCharacteristic (fallbackUse vocab .edgeType property) owlTransitive

def emitAxioms (o : Ontology) : List Emitted :=
  o.axioms.vals.map fun a => emitAxiom vocab a.kind

end Emit

/-- The vocabulary of a projection: the standard one if the ontology binds no prefix. -/
def Ontology.projectionVocabulary (o : Ontology) : Vocabulary :=
  if o.vocabulary.namespaces.isEmpty then .withStandardBindings else o.vocabulary

/-- All triples of an ontology, with the names they refer to. -/
def Ontology.emitted [SerdeJson] [RdfText] (o : Ontology) : List Emitted :=
  let vocab := o.projectionVocabulary
  emitSchema vocab o.schema ++ emitNodes vocab o ++ emitEdges vocab o ++ emitAxioms vocab o

/-- Project an ontology to triples. -/
def toRdf [SerdeJson] [RdfText] (o : Ontology) : List Triple := o.emitted.map Emitted.triple

/-- What `from_rdf` does with a triple whose subject is an IRI. -/
def importTriple (schema : Schema) (subject : Iri) (predicate : Iri) (object : Object) : Schema :=
  if predicate = rdfType then
    match object with
    | .iri obj =>
      if obj = owlClass then
        schema.declareNodeType { NodeType.new (localName subject) with iri := some subject }
      else if obj = owlObjectProperty then
        schema.declareEdgeType { EdgeType.new (localName subject) with iri := some subject }
      else schema
    | _ => schema
  else if predicate = rdfsSubclass then
    match object with
    | .iri sup =>
      let subName := localName subject
      let supName := localName sup
      let existing := schema.nodeTypes[subName]?.getD
        { NodeType.new subName with iri := some subject }
      let existing := if existing.supertypes.any (· == supName) then existing
        else { existing with supertypes := existing.supertypes ++ [supName] }
      schema.declareNodeType existing
    | _ => schema
  else schema

/-- Import class declarations, subclass triples and object properties; others are skipped. -/
def fromRdf (triples : List Triple) : Ontology :=
  { Ontology.empty with
    schema := triples.foldl (fun schema t =>
      match t.subject with
      | .iri subject => importTriple schema subject t.predicate t.object
      | .blank _ => schema) .empty }

end AtomrOntology
