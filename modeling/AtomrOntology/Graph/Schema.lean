import AtomrOntology.Graph.Node

/-!
# Schemas and vocabularies

The declared shape of an ontology and its prefix bindings. Their JSON form loses
nothing: they hold no floats.
-/

namespace AtomrOntology

/-- Datatype of a property value. -/
inductive Datatype where
  | string
  | integer
  | float
  | bool
  | dateTime
  | iri
  | bytes
  | json
deriving DecidableEq, Repr

/-- Cardinality bounds. -/
structure Cardinality where
  min : UInt32
  max : Option UInt32
deriving DecidableEq, Repr

namespace Cardinality

/-- `[0..]`, the default. -/
def any : Cardinality := ⟨0, none⟩

/-- `[1..1]`. -/
def one : Cardinality := ⟨1, some 1⟩

/-- `[0..1]`. -/
def optional : Cardinality := ⟨0, some 1⟩

/-- True when `count` lies within the bound. -/
def contains (c : Cardinality) (count : UInt32) : Bool :=
  decide (c.min ≤ count) && match c.max with
    | none => true
    | some m => decide (count ≤ m)

end Cardinality

/-- Declared shape of a property. -/
structure PropertyType where
  name : String
  datatype : Datatype
  cardinality : Cardinality
  iri : Option Iri
  description : Option String
deriving DecidableEq, Repr

/-- Declared node type. -/
structure NodeType where
  name : String
  iri : Option Iri
  supertypes : List String
  properties : List PropertyType
  description : Option String
deriving DecidableEq, Repr

/-- An empty node type. -/
def NodeType.new (name : String) : NodeType := ⟨name, none, [], [], none⟩

/-- Declared edge type. -/
structure EdgeType where
  name : String
  iri : Option Iri
  domain : List String
  range : List String
  properties : List PropertyType
  cardinality : Cardinality
  functional : Bool
  inverseOf : Option String
  description : Option String
deriving DecidableEq, Repr

/-- An empty edge type. -/
def EdgeType.new (name : String) : EdgeType :=
  ⟨name, none, [], [], [], .any, false, none, none⟩

/-- The top-level schema: declarations keyed by name. -/
structure Schema where
  nodeTypes : BTreeMap String NodeType
  edgeTypes : BTreeMap String EdgeType

/-- The empty schema. -/
def Schema.empty : Schema := ⟨∅, ∅⟩

/-- Insert or replace a node type. -/
def Schema.declareNodeType (s : Schema) (ty : NodeType) : Schema :=
  { s with nodeTypes := s.nodeTypes.insert ty.name ty }

/-- Insert or replace an edge type. -/
def Schema.declareEdgeType (s : Schema) (ty : EdgeType) : Schema :=
  { s with edgeTypes := s.edgeTypes.insert ty.name ty }

/-- Prefix bindings. -/
structure Vocabulary where
  namespaces : BTreeMap String Iri

/-- No bindings. -/
def Vocabulary.empty : Vocabulary := ⟨∅⟩

/-- Bind a prefix to a base IRI, replacing any existing binding. -/
def Vocabulary.bind (v : Vocabulary) (pre : String) (base : Iri) : Vocabulary :=
  ⟨v.namespaces.insert pre base⟩

/-- The variants of an enumeration without fields, by name. -/
def Codec.variants {α : Type} (name : α → String) (all : List α) : Codec α :=
  .strings name fun s => all.find? (name · == s)

/-- The kebab-case names. -/
def Datatype.name : Datatype → String
  | .string => "string"
  | .integer => "integer"
  | .float => "float"
  | .bool => "bool"
  | .dateTime => "date-time"
  | .iri => "iri"
  | .bytes => "bytes"
  | .json => "json"

def Datatype.codec : Codec Datatype :=
  .variants Datatype.name [.string, .integer, .float, .bool, .dateTime, .iri, .bytes, .json]

def Cardinality.codec : Codec Cardinality :=
  (Codec.record <| .both (.required "min" .u32) (.optional "max" .u32)).iso
    { toFun c := (c.min, c.max)
      invFun x := ⟨x.1, x.2⟩ }

def PropertyType.codec : Codec PropertyType :=
  (Codec.record <| .both (.required "name" .string) <|
    .both (.required "datatype" Datatype.codec) <|
    .both (.required "cardinality" Cardinality.codec) <| .both (.optional "iri" .iri)
      (.optional "description" .string)).iso
    { toFun p := (p.name, p.datatype, p.cardinality, p.iri, p.description)
      invFun x := ⟨x.1, x.2.1, x.2.2.1, x.2.2.2.1, x.2.2.2.2⟩ }

def NodeType.codec : Codec NodeType :=
  (Codec.record <| .both (.required "name" .string) <| .both (.optional "iri" .iri) <|
    .both (.required "supertypes" (.list .string)) <|
    .both (.required "properties" (.list PropertyType.codec))
      (.optional "description" .string)).iso
    { toFun t := (t.name, t.iri, t.supertypes, t.properties, t.description)
      invFun x := ⟨x.1, x.2.1, x.2.2.1, x.2.2.2.1, x.2.2.2.2⟩ }

def EdgeType.codec : Codec EdgeType :=
  (Codec.record <| .both (.required "name" .string) <| .both (.optional "iri" .iri) <|
    .both (.required "domain" (.list .string)) <| .both (.required "range" (.list .string)) <|
    .both (.required "properties" (.list PropertyType.codec)) <|
    .both (.required "cardinality" Cardinality.codec) <| .both (.required "functional" .bool) <|
    .both (.optional "inverse_of" .string) (.optional "description" .string)).iso
    { toFun t := (t.name, t.iri, t.domain, t.range, t.properties, t.cardinality, t.functional,
        t.inverseOf, t.description)
      invFun x := ⟨x.1, x.2.1, x.2.2.1, x.2.2.2.1, x.2.2.2.2.1, x.2.2.2.2.2.1, x.2.2.2.2.2.2.1,
        x.2.2.2.2.2.2.2.1, x.2.2.2.2.2.2.2.2⟩ }

def Schema.codec : Codec Schema :=
  (Codec.record <| .both (.required "node_types" (.map NodeType.codec))
    (.required "edge_types" (.map EdgeType.codec))).iso
    { toFun s := (s.nodeTypes, s.edgeTypes)
      invFun x := ⟨x.1, x.2⟩ }

def Vocabulary.codec : Codec Vocabulary :=
  (Codec.record (.required "namespaces" (.map .iri))).iso
    { toFun v := v.namespaces
      invFun x := ⟨x⟩ }

section Survival

variable [SerdeJson]

/-- A variant is read back if it is the first one with its name. -/
@[simp] theorem Codec.survives_variants {α : Type} {name : α → String} {all : List α} {x : α} :
    (Codec.variants name all).Survives x ↔ all.find? (name · == name x) = some x :=
  Codec.survives_strings

omit [SerdeJson] in
/-- A number is not written as null. -/
@[simp] theorem Codec.u32_ne_null (n : UInt32) : Codec.u32.ser n ≠ .null := by
  simp [Codec.u32, Codec.ints]

@[simp] theorem Datatype.survives_codec (d : Datatype) : Datatype.codec.Survives d := by
  simp only [Datatype.codec, Codec.survives_variants]
  cases d <;> decide

@[simp] theorem Cardinality.survives_codec (c : Cardinality) : Cardinality.codec.Survives c := by
  simp [Cardinality.codec]

/-- Every property declaration is read back. -/
@[simp] theorem PropertyType.survives_codec (p : PropertyType) :
    PropertyType.codec.Survives p := by
  simp [PropertyType.codec]

/-- Every node type is read back. -/
@[simp] theorem NodeType.survives_codec (t : NodeType) : NodeType.codec.Survives t := by
  simp [NodeType.codec]

/-- Every edge type is read back. -/
@[simp] theorem EdgeType.survives_codec (t : EdgeType) : EdgeType.codec.Survives t := by
  simp [EdgeType.codec]

/-- Every schema is read back, since its declarations are. -/
@[simp] theorem Schema.survives_codec (s : Schema) : Schema.codec.Survives s := by
  simp [Schema.codec]

@[simp] theorem Vocabulary.survives_codec (v : Vocabulary) : Vocabulary.codec.Survives v := by
  simp [Vocabulary.codec]

end Survival

end AtomrOntology
