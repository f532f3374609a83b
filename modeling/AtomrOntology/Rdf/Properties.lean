import AtomrOntology.Rdf.Export

/-!
# Which IRI does a property of a node get?

The schema declares a property under the IRI its type gives it. The instances look it up in
one type only, the first of the node's labels that the schema declares.
-/

namespace AtomrOntology

/-- The first property of that name is declared with that IRI. -/
def NodeType.GivesIri (ty : NodeType) (name : String) (iri : Iri) : Prop :=
  ∃ before prop after, ty.properties = before ++ prop :: after ∧ prop.name = name ∧
    prop.iri = some iri ∧ ∀ p ∈ before, p.name ≠ name

namespace Ontology

variable (o : Ontology) (node : Node) (name : String)

/-- Some label of the node is a type that declares the property with that IRI. -/
def DeclaresIri (iri : Iri) : Prop :=
  ∃ label ∈ node.types, ∃ ty, o.schema.nodeTypes[label]? = some ty ∧
    ∃ prop ∈ ty.properties, prop.name = name ∧ prop.iri = some iri

/-- The type of the node's first declared label. -/
def FirstType (ty : NodeType) : Prop :=
  ∃ before label after, node.types = before ++ label :: after ∧
    o.schema.nodeTypes[label]? = some ty ∧ ∀ l ∈ before, o.schema.nodeTypes[l]? = none

/-- The type of the first declared label gives the property this IRI. -/
def FirstGives (iri : Iri) : Prop := ∃ ty, o.FirstType node ty ∧ ty.GivesIri name iri

/-- An IRI that a label declares for the property is the one given by the type of the first
declared label, or the fallback when that type gives none. -/
def FirstDecides : Prop :=
  ∀ iri, o.DeclaresIri node name iri → o.FirstGives node name iri ∨
    (∀ given, ¬o.FirstGives node name given) ∧
      iri = ensureIri name localPrefix o.projectionVocabulary

end Ontology

theorem findSome_firstType {o : Ontology} {node : Node} {ty : NodeType} :
    node.types.findSome? (fun tn => o.schema.nodeTypes[tn]?) = some ty ↔ o.FirstType node ty := by
  rw [List.findSome?_eq_some_iff]
  rfl

theorem find_givesIri {ty : NodeType} {name : String} {iri : Iri} :
    (ty.properties.find? (·.name == name)).bind PropertyType.iri = some iri ↔
      ty.GivesIri name iri := by
  rw [Option.bind_eq_some_iff]
  constructor
  · intro h
    obtain ⟨prop, hfind, hiri⟩ := h
    obtain ⟨hname, before, after, hprops, hbefore⟩ := List.find?_eq_some_iff_append.mp hfind
    exact ⟨before, prop, after, hprops, eq_of_beq hname, hiri,
      fun p hp => by simpa using hbefore p hp⟩
  · intro h
    obtain ⟨before, prop, after, hprops, hname, hiri, hbefore⟩ := h
    refine ⟨prop, List.find?_eq_some_iff_append.mpr ⟨?_, before, after, hprops, ?_⟩, hiri⟩
    · exact beq_iff_eq.mpr hname
    · intro p hp
      simpa using hbefore p hp

/-- The IRI of a property is the given one, or else its name under a prefix. -/
theorem propertyIri_eq_iff {o : Ontology} {node : Node} {name : String} {iri : Iri}
    {vocab : Vocabulary} : propertyIri vocab o node name = iri ↔
      o.FirstGives node name iri ∨
        (∀ given, ¬o.FirstGives node name given) ∧ iri = ensureIri name localPrefix vocab := by
  have hgiven : ∀ given, ((node.types.findSome? fun tn => o.schema.nodeTypes[tn]?).bind fun nt =>
      (nt.properties.find? (·.name == name)).bind PropertyType.iri) = some given ↔
        o.FirstGives node name given := by
    intro given
    rw [Option.bind_eq_some_iff]
    simp only [findSome_firstType, find_givesIri]
    rfl
  unfold propertyIri
  cases hdeclared : (node.types.findSome? fun tn => o.schema.nodeTypes[tn]?).bind fun nt =>
      (nt.properties.find? (·.name == name)).bind PropertyType.iri with
  | some declared =>
    have hmine := (hgiven declared).mp hdeclared
    constructor
    · intro h
      exact Or.inl (h ▸ hmine)
    · intro h
      rcases h with hfirst | ⟨hnone, -⟩
      · rw [← hgiven, hdeclared] at hfirst
        exact Option.some.inj hfirst
      · exact absurd hmine (hnone declared)
  | none =>
    have hnone : ∀ given, ¬o.FirstGives node name given := by
      intro given hfirst
      rw [← hgiven, hdeclared] at hfirst
      cases hfirst
    constructor
    · intro h
      exact Or.inr ⟨hnone, h.symm⟩
    · intro h
      rcases h with hfirst | ⟨-, rfl⟩
      · exact absurd hfirst (hnone iri)
      · rfl

section Emitted

variable [SerdeJson] [RdfText] {o : Ontology} {node : Node} {name : String}

/-- A declared IRI is declared a datatype property. -/
theorem Ontology.DeclaresIri.mem_toRdf {iri : Iri} (h : o.DeclaresIri node name iri) :
    ⟨.iri iri, rdfType, .iri owlDatatypeProperty⟩ ∈ toRdf o := by
  obtain ⟨label, -, ty, hty, prop, hprop, -, hiri⟩ := h
  have hentry : (label, ty) ∈ o.schema.nodeTypes.toList :=
    Std.ExtTreeMap.mem_toList_iff_getElem?_eq_some.mpr hty
  have hemitted : (⟨⟨.iri iri, rdfType, .iri owlDatatypeProperty⟩, []⟩ : Emitted) ∈
      emitNodeType o.projectionVocabulary label ty := by
    refine List.mem_append_right _ (List.mem_flatMap.mpr ⟨prop, hprop, ?_⟩)
    rw [emitProperty, hiri]
    exact List.mem_cons_self
  have hschema : ⟨⟨.iri iri, rdfType, .iri owlDatatypeProperty⟩, []⟩ ∈
      emitSchema o.projectionVocabulary o.schema :=
    List.mem_append_left _ (List.mem_flatMap.mpr ⟨(label, ty), hentry, hemitted⟩)
  exact List.mem_map.mpr ⟨_, List.mem_append_left _ (List.mem_append_left _
    (List.mem_append_left _ hschema)), rfl⟩

/-- The triple of a value of a node. -/
def Ontology.valueTriple (o : Ontology) (node : Node) (name : String) (object : Object) : Triple :=
  ⟨nodeSubject node, propertyIri o.projectionVocabulary o node name, object⟩

/-- A value is stated with an IRI that the schema declares for its property. -/
structure StatedWith (o : Ontology) (node : Node) (name : String) (object : Object) (iri : Iri) :
    Prop where
  stated : o.valueTriple node name object ∈ toRdf o
  predicate : (o.valueTriple node name object).predicate = iri
  declared : ⟨.iri iri, rdfType, .iri owlDatatypeProperty⟩ ∈ toRdf o

/-- A value is stated with every IRI that its node's labels declare for its property exactly
when the first declared label decides the IRI. -/
theorem statedWith_declared_iff {value : PropertyValue} {object : Object}
    (hnode : node ∈ o.nodes.vals) (hvalue : node.properties[name]? = some value)
    (hobject : value.toObject = some object) :
    (∀ iri, o.DeclaresIri node name iri → StatedWith o node name object iri) ↔
      o.FirstDecides node name := by
  constructor
  · intro h iri hiri
    exact propertyIri_eq_iff.mp (h iri hiri).predicate
  · intro h iri hiri
    exact ⟨property_mem_toRdf hnode hvalue hobject, propertyIri_eq_iff.mpr (h iri hiri),
      hiri.mem_toRdf⟩

end Emitted

/-- `Person` declares an IRI for names, `Agent` does not. -/
private def namedSchema : Schema :=
  (Schema.empty.declareNodeType (.new "Agent")).declareNodeType
    { NodeType.new "Person" with
      properties := [⟨"name", .string, .any, some ⟨"http://xmlns.com/foaf/0.1/name"⟩, none⟩] }

private def bob (types : List String) : Node :=
  ⟨.filled 1, none, types, (∅ : BTreeMap String PropertyValue).insert "name" (.string "Bob")⟩

private def bobOntology (types : List String) : Ontology :=
  { Ontology.empty with schema := namedSchema }.upsertNode (bob types)

private theorem bob_mem (types : List String) : bob types ∈ (bobOntology types).nodes.vals :=
  BTreeMap.mem_vals_singleton.mpr rfl

private theorem person_declared (types : List String) :
    (bobOntology types).schema.nodeTypes["Person"]? =
    some { NodeType.new "Person" with
      properties := [⟨"name", .string, .any, some ⟨"http://xmlns.com/foaf/0.1/name"⟩, none⟩] } := by
  rw [bobOntology, Ontology.upsertNode, namedSchema, Schema.declareNodeType, BTreeMap.get_insert]
  exact if_pos rfl

private theorem bob_declaresIri {types : List String} (h : "Person" ∈ types) :
    (bobOntology types).DeclaresIri (bob types) "name" ⟨"http://xmlns.com/foaf/0.1/name"⟩ :=
  ⟨"Person", h, _, person_declared _, _, List.mem_singleton_self _, rfl, rfl⟩

/-- As a person Bob has a `foaf:name`. -/
theorem person_statedWith :
    @StatedWith .plain .plain (bobOntology ["Person"]) (bob ["Person"]) "name"
    (.literal "Bob" xsdString none) ⟨"http://xmlns.com/foaf/0.1/name"⟩ := by
  let _ := SerdeJson.plain
  let _ := RdfText.plain
  refine (statedWith_declared_iff (bob_mem _) (BTreeMap.get_insert ∅ "name" "name" _) rfl).mpr ?_ _
    (bob_declaresIri List.mem_cons_self)
  intro iri hiri
  obtain ⟨label, hlabel, ty, hty, prop, hprop, hname, hdeclared⟩ := hiri
  obtain rfl := List.mem_singleton.mp hlabel
  rw [person_declared, Option.some.injEq] at hty
  subst hty
  obtain rfl := List.mem_singleton.mp hprop
  refine Or.inl ⟨_, ⟨[], "Person", [], rfl, person_declared _, by simp⟩, [], _, [], rfl, rfl,
    hdeclared, by simp⟩

/-- As an agent and a person Bob has a name of the local vocabulary. -/
theorem agent_not_statedWith :
    ¬∀ iri, (bobOntology ["Agent", "Person"]).DeclaresIri (bob ["Agent", "Person"]) "name" iri →
      @StatedWith .plain .plain (bobOntology ["Agent", "Person"]) (bob ["Agent", "Person"]) "name"
        (.literal "Bob" xsdString none) iri := by
  let _ := SerdeJson.plain
  let _ := RdfText.plain
  intro h
  exact absurd (h _ (bob_declaresIri (by simp))).predicate (by decide +kernel)

end AtomrOntology
