import AtomrOntology.Core.JsonText
import AtomrOntology.Core.Slices
import AtomrOntology.Graph.Ontology

/-!
# Triples

RDF terms and triples, the names of the RDF, RDFS, OWL and XSD vocabularies that the
adapter uses, and the expansion of prefixed names.
-/

namespace AtomrOntology

/-- The subject of a triple. -/
inductive Subject where
  | iri (i : Iri)
  | blank (label : String)
deriving DecidableEq, Repr

/-- The object of a triple. -/
inductive Object where
  | iri (i : Iri)
  | blank (label : String)
  | literal (lexical : String) (datatype : Iri) (language : Option String)
deriving DecidableEq, Repr

/-- The term of a subject in object position. -/
def Subject.toObject : Subject → Object
  | .iri i => .iri i
  | .blank label => .blank label

/-- `<subject> <predicate> <object>`. -/
structure Triple where
  subject : Subject
  predicate : Iri
  object : Object
deriving DecidableEq, Repr

def rdfType : Iri := ⟨"http://www.w3.org/1999/02/22-rdf-syntax-ns#type"⟩
def rdfsSubclass : Iri := ⟨"http://www.w3.org/2000/01/rdf-schema#subClassOf"⟩
def rdfsDomain : Iri := ⟨"http://www.w3.org/2000/01/rdf-schema#domain"⟩
def rdfsRange : Iri := ⟨"http://www.w3.org/2000/01/rdf-schema#range"⟩
def owlClass : Iri := ⟨"http://www.w3.org/2002/07/owl#Class"⟩
def owlObjectProperty : Iri := ⟨"http://www.w3.org/2002/07/owl#ObjectProperty"⟩
def owlDatatypeProperty : Iri := ⟨"http://www.w3.org/2002/07/owl#DatatypeProperty"⟩
def owlFunctional : Iri := ⟨"http://www.w3.org/2002/07/owl#FunctionalProperty"⟩
def owlInverseFunctional : Iri := ⟨"http://www.w3.org/2002/07/owl#InverseFunctionalProperty"⟩
def owlSymmetric : Iri := ⟨"http://www.w3.org/2002/07/owl#SymmetricProperty"⟩
def owlTransitive : Iri := ⟨"http://www.w3.org/2002/07/owl#TransitiveProperty"⟩
def owlEquivalentClass : Iri := ⟨"http://www.w3.org/2002/07/owl#equivalentClass"⟩
def owlDisjointWith : Iri := ⟨"http://www.w3.org/2002/07/owl#disjointWith"⟩
def owlInverseOf : Iri := ⟨"http://www.w3.org/2002/07/owl#inverseOf"⟩
def rdfJson : Iri := ⟨"http://www.w3.org/1999/02/22-rdf-syntax-ns#JSON"⟩

/-- The namespace of the XSD datatypes. -/
def xsdNamespace : String := "http://www.w3.org/2001/XMLSchema#"

def xsdString : Iri := ⟨"http://www.w3.org/2001/XMLSchema#string"⟩
def xsdInteger : Iri := ⟨"http://www.w3.org/2001/XMLSchema#integer"⟩
def xsdDouble : Iri := ⟨"http://www.w3.org/2001/XMLSchema#double"⟩
def xsdBoolean : Iri := ⟨"http://www.w3.org/2001/XMLSchema#boolean"⟩
def xsdDateTime : Iri := ⟨"http://www.w3.org/2001/XMLSchema#dateTime"⟩
def xsdBase64Binary : Iri := ⟨"http://www.w3.org/2001/XMLSchema#base64Binary"⟩

/-- `datatype_iri`. -/
def datatypeIri : Datatype → Iri
  | .string => ⟨xsdNamespace ++ "string"⟩
  | .integer => ⟨xsdNamespace ++ "integer"⟩
  | .float => ⟨xsdNamespace ++ "double"⟩
  | .bool => ⟨xsdNamespace ++ "boolean"⟩
  | .dateTime => ⟨xsdNamespace ++ "dateTime"⟩
  | .iri => ⟨xsdNamespace ++ "anyURI"⟩
  | .bytes => ⟨xsdNamespace ++ "base64Binary"⟩
  | .json => rdfJson

namespace Vocabulary

/-- Expand `prefix:local`; nothing if the prefix is unknown. -/
def expandCurie (v : Vocabulary) (curie : String) : Option Iri := do
  let (pre, loc) ← splitOnce ':' curie.toList
  let base ← v.namespaces[String.ofList pre]?
  return ⟨base.value ++ String.ofList loc⟩

/-- The namespaces commonly needed in projections. -/
def withStandardBindings : Vocabulary :=
  ((((((Vocabulary.empty.bind "rdf" ⟨"http://www.w3.org/1999/02/22-rdf-syntax-ns#"⟩).bind
    "rdfs" ⟨"http://www.w3.org/2000/01/rdf-schema#"⟩).bind
    "owl" ⟨"http://www.w3.org/2002/07/owl#"⟩).bind
    "xsd" ⟨"http://www.w3.org/2001/XMLSchema#"⟩).bind
    "prov" ⟨"http://www.w3.org/ns/prov#"⟩).bind
    "schema" ⟨"http://schema.org/"⟩).bind
    "org" ⟨"http://www.w3.org/ns/org#"⟩

end Vocabulary

/-- What follows the last `#`, `/` or `:`. -/
def localName (iri : Iri) : String :=
  .ofList (iri.value.toList.reverse.takeWhile fun c => !(c == '#' || c == '/' || c == ':')).reverse

/-- What is left to `chrono` and to the `Display` of floats. -/
class RdfText where
  /-- `to_rfc3339_opts(SecondsFormat::Secs, true)`. -/
  rfc3339 : DateTime → String
  /-- `f64::to_string`. -/
  floatText : F64 → String

/-- Texts for running the model, all empty. -/
abbrev RdfText.plain : RdfText := ⟨fun _ => "", fun _ => ""⟩

/-- The base64 digit of six bits. -/
def base64Digit (n : Nat) : Char :=
  ("ABCDEFGHIJKLMNOPQRSTUVWXYZabcdefghijklmnopqrstuvwxyz0123456789+/".toList)[n % 64]?.getD 'A'

/-- `base64_encode`. -/
def base64Chars : List UInt8 → List Char
  | a :: b :: c :: rest =>
    let chunk := a.toNat * 2 ^ 16 + b.toNat * 2 ^ 8 + c.toNat
    [base64Digit (chunk / 2 ^ 18), base64Digit (chunk / 2 ^ 12), base64Digit (chunk / 2 ^ 6),
      base64Digit chunk] ++ base64Chars rest
  | [a, b] =>
    let chunk := a.toNat * 2 ^ 16 + b.toNat * 2 ^ 8
    [base64Digit (chunk / 2 ^ 18), base64Digit (chunk / 2 ^ 12), base64Digit (chunk / 2 ^ 6), '=']
  | [a] =>
    let chunk := a.toNat * 2 ^ 16
    [base64Digit (chunk / 2 ^ 18), base64Digit (chunk / 2 ^ 12), '=', '=']
  | [] => []

/-- `value_to_object`. -/
def PropertyValue.toObject [SerdeJson] [RdfText] : PropertyValue → Option Object
  | .string s => some (.literal s xsdString none)
  | .integer i => some (.literal (toString i.toInt) xsdInteger none)
  | .float f => some (.literal (RdfText.floatText f) xsdDouble none)
  | .bool b => some (.literal (toString b) xsdBoolean none)
  | .dateTime t => some (.literal (RdfText.rfc3339 t) xsdDateTime none)
  | .iri i => some (.iri i)
  | .bytes b => some (.literal (.ofList (base64Chars b)) xsdBase64Binary none)
  | .json v => some (.literal v.val.text rdfJson none)
  | .null => none

end AtomrOntology
