import AtomrOntology.Rdf.Turtle

/-!
# Reading JSON-LD

The subset that the writer emits: a `@context` that binds prefixes and a `@graph` of node
objects. A text that `serde_json` reads gives a document, a document gives triples; what is not
recognized is skipped.
-/

namespace AtomrOntology

namespace Json

/-- `Value::get`: what an object has under a key. -/
def get (j : Json) (key : String) : Option Json :=
  match j with
  | .obj entries => entries.lookup key
  | _ => none

/-- `Value::as_str`. -/
def asStr : Json → Option String
  | .str s => some s
  | _ => none

/-- A text value is read as its text. -/
@[simp] theorem asStr_str (s : String) : (Json.str s).asStr = some s := rfl

/-- `Value::as_array`. -/
def asArray : Json → Option (List Json)
  | .arr items => some items
  | _ => none

/-- `Value::as_object`. -/
def asObject : Json → Option (List (String × Json))
  | .obj entries => some entries
  | _ => none

end Json

/-- The datatype of literals with a language. -/
def rdfLangString : Iri := ⟨"http://www.w3.org/1999/02/22-rdf-syntax-ns#langString"⟩

namespace JsonLd

/-- `subject_from_id`. -/
def subjectFromId (id : String) : Subject :=
  match stripPrefix ['_', ':'] id.toList with
  | some label => .blank (.ofList label)
  | none => .iri ⟨id⟩

/-- Whether a text begins with another one. -/
def startsWith (s pre : String) : Bool := pre.toList.isPrefixOf s.toList

/-- `expand_iri`: full IRIs stay, prefixed names are expanded if the prefix is bound. -/
def expandIri (s : String) (vocab : Vocabulary) : Iri :=
  if startsWith s "http://" || startsWith s "https://" || startsWith s "urn:" then ⟨s⟩
  else
    match vocab.expandCurie s with
    | some iri => iri
    | none => ⟨s⟩

/-- The items of an array, or a value alone. -/
def flatten : Json → List Json
  | .arr items => items
  | v => [v]

variable [SerdeJson]

/-- `value_to_object`: a node reference or a literal. -/
def valueToObject (value : Json) (vocab : Vocabulary) : Option Object := do
  let obj ← value.asObject
  match (obj.lookup "@id").bind Json.asStr with
  | some id =>
    match stripPrefix ['_', ':'] id.toList with
    | some label => return .blank (.ofList label)
    | none => return .iri (expandIri id vocab)
  | none =>
    let val ← obj.lookup "@value"
    let lexical := match val with
      | .str s => s
      | other => other.text
    let language := (obj.lookup "@language").bind Json.asStr
    let datatype :=
      if language.isSome then rdfLangString
      else match (obj.lookup "@type").bind Json.asStr with
        | some dt => expandIri dt vocab
        | none => xsdString
    return .literal lexical datatype language

/-- The prefixes that a document binds to texts. -/
def context (doc : Json) : Vocabulary :=
  (((doc.get "@context").bind Json.asObject).getD []).foldl (fun vocab entry =>
    match entry.2.asStr with
    | some base => vocab.bind entry.1 ⟨base⟩
    | none => vocab) .empty

/-- The node objects of a document. -/
def graph (doc : Json) : List Json := ((doc.get "@graph").bind Json.asArray).getD []

/-- The triples of one entry of a node object. -/
def entryTriples (vocab : Vocabulary) (subject : Subject) (entry : String × Json) : List Triple :=
  let (key, values) := entry
  if key = "@id" then []
  else if key = "@type" then
    (flatten values).filterMap fun v => v.asStr.map fun s =>
      ⟨subject, expandIri s vocab, .iri (expandIri s vocab)⟩
  else
    (flatten values).filterMap fun v => (valueToObject v vocab).map fun obj =>
      ⟨subject, expandIri key vocab, obj⟩

/-- The triples of a node object. -/
def nodeTriples (vocab : Vocabulary) (node : Json) : List Triple :=
  match node.asObject with
  | none => []
  | some entries =>
    match (entries.lookup "@id").bind Json.asStr with
    | none => []
    | some id => entries.flatMap (entryTriples vocab (subjectFromId id))

/-- The triples of a document. -/
def parse (doc : Json) : List Triple := (graph doc).flatMap (nodeTriples (context doc))

end JsonLd

end AtomrOntology
