import AtomrOntology.Graph.Schema

/-!
# Axioms

Assertions about classes and properties, with the canonical text that seeds their
ids and their JSON form.
-/

namespace AtomrOntology

/-- The kinds of axiom. -/
inductive AxiomKind where
  | subClassOf (sub sup : String)
  | equivalentClass (left right : String)
  | disjointWith (left right : String)
  | domain (property «class» : String)
  | range (property «class» : String)
  | functional (property : String)
  | inverseFunctional (property : String)
  | inverseOf (left right : String)
  | symmetric (property : String)
  | transitive (property : String)
deriving DecidableEq, Repr

/-- The text an axiom's id is derived from. -/
def AxiomKind.canonical : AxiomKind → String
  | .subClassOf sub sup => "SubClassOf|" ++ sub ++ "|" ++ sup
  | .equivalentClass left right => "EquivalentClass|" ++ left ++ "|" ++ right
  | .disjointWith left right => "DisjointWith|" ++ left ++ "|" ++ right
  | .domain property cls => "Domain|" ++ property ++ "|" ++ cls
  | .range property cls => "Range|" ++ property ++ "|" ++ cls
  | .functional property => "Functional|" ++ property
  | .inverseFunctional property => "InverseFunctional|" ++ property
  | .inverseOf left right => "InverseOf|" ++ left ++ "|" ++ right
  | .symmetric property => "Symmetric|" ++ property
  | .transitive property => "Transitive|" ++ property

/-- Derive an id from the canonical text of an axiom kind. -/
def AxiomId.fromCanonical [Blake3] (canonical : String) : AxiomId :=
  ⟨Blake3.deriveKey "atomr-ontology-core/AxiomId/v1" (utf8 canonical)⟩

/-- An axiom annotated with optional provenance. -/
structure Axiom where
  id : AxiomId
  kind : AxiomKind
  provenance : Option ProvenanceId
deriving DecidableEq

/-- Build an axiom from its kind; the id is derived deterministically. -/
def Axiom.new [Blake3] (kind : AxiomKind) : Axiom :=
  { id := AxiomId.fromCanonical kind.canonical, kind, provenance := none }

/-- Attach provenance. -/
def Axiom.withProvenance (a : Axiom) (p : ProvenanceId) : Axiom := { a with provenance := some p }

/-- A string operand of an axiom. -/
def AxiomKind.operand (get : String → Option Json) (name : String) : De String :=
  match get name with
  | some j => Codec.string.de j
  | none => .error (.missingField name)

/-- `AxiomKind` is internally tagged by `kind`. -/
def AxiomKind.fields :
    Fields ["kind", "sub", "sup", "left", "right", "property", "class"] AxiomKind where
  ser
    | .subClassOf sub sup => [("kind", .str "sub_class_of"), ("sub", .str sub), ("sup", .str sup)]
    | .equivalentClass left right =>
      [("kind", .str "equivalent_class"), ("left", .str left), ("right", .str right)]
    | .disjointWith left right =>
      [("kind", .str "disjoint_with"), ("left", .str left), ("right", .str right)]
    | .domain property cls =>
      [("kind", .str "domain"), ("property", .str property), ("class", .str cls)]
    | .range property cls =>
      [("kind", .str "range"), ("property", .str property), ("class", .str cls)]
    | .functional property => [("kind", .str "functional"), ("property", .str property)]
    | .inverseFunctional property =>
      [("kind", .str "inverse_functional"), ("property", .str property)]
    | .inverseOf left right =>
      [("kind", .str "inverse_of"), ("left", .str left), ("right", .str right)]
    | .symmetric property => [("kind", .str "symmetric"), ("property", .str property)]
    | .transitive property => [("kind", .str "transitive"), ("property", .str property)]
  de get :=
    let text := AxiomKind.operand get
    match get "kind" with
    | some (.str "sub_class_of") => do return .subClassOf (← text "sub") (← text "sup")
    | some (.str "equivalent_class") => do return .equivalentClass (← text "left") (← text "right")
    | some (.str "disjoint_with") => do return .disjointWith (← text "left") (← text "right")
    | some (.str "domain") => do return .domain (← text "property") (← text "class")
    | some (.str "range") => do return .range (← text "property") (← text "class")
    | some (.str "functional") => do return .functional (← text "property")
    | some (.str "inverse_functional") => do return .inverseFunctional (← text "property")
    | some (.str "inverse_of") => do return .inverseOf (← text "left") (← text "right")
    | some (.str "symmetric") => do return .symmetric (← text "property")
    | some (.str "transitive") => do return .transitive (← text "property")
    | some (.str _) => .error .unknownVariant
    | some _ => .error .invalidType
    | none => .error (.missingField "kind")
  names_nodup := by decide
  ser_names k := by cases k <;> exact List.isSublist_iff_sublist.mp rfl
  de_local get get' h := by
    simp only [AxiomKind.operand, h "kind" (by simp), h "sub" (by simp), h "sup" (by simp),
      h "left" (by simp), h "right" (by simp), h "property" (by simp), h "class" (by simp)]

def AxiomKind.codec : Codec AxiomKind := .record AxiomKind.fields

/-- The fields of an axiom, with its provenance written by the given codec. -/
def Axiom.fields {π : Type} (provenance : Codec π) :=
  Fields.both (.required "id" (.id : Codec AxiomId)) <| .both (.required "kind" AxiomKind.codec)
    (.optional "provenance" provenance)

def Axiom.codec : Codec Axiom :=
  (Codec.record (Axiom.fields .id)).iso
    { toFun a := (a.id, a.kind, a.provenance)
      invFun x := ⟨x.1, x.2.1, x.2.2⟩ }

section Survival

variable [SerdeJson]

/-- Every kind of axiom is read back. -/
@[simp] theorem AxiomKind.survives_codec (k : AxiomKind) : AxiomKind.codec.Survives k := by
  rw [AxiomKind.codec, Codec.survives_record]
  cases k <;> exact ⟨_, rfl, rfl⟩

/-- Every axiom is read back, with its id and provenance. -/
@[simp] theorem Axiom.survives_codec (a : Axiom) : Axiom.codec.Survives a := by
  simp [Axiom.codec, Axiom.fields]

end Survival

end AtomrOntology
