import AtomrOntology.Rdf.Adapter

/-!
# Which names and nodes survive the projection?

Instances and declarations of a type use its IRI; supertypes, domains, ranges, inverses and
axioms use what its name falls back to. A node without an IRI is a blank node as a subject
and an IRI as an object.
-/

namespace AtomrOntology

namespace Ontology

/-- The IRI a type is declared with. -/
def declaredIri (o : Ontology) : TypeRole → String → Option Iri
  | .nodeType, name => o.schema.nodeTypes[name]?.bind NodeType.iri
  | .edgeType, name => o.schema.edgeTypes[name]?.bind EdgeType.iri

/-- The schema declares a type of that name. -/
def Declared (o : Ontology) : TypeRole → String → Prop
  | .nodeType, name => ∃ ty, o.schema.nodeTypes[name]? = some ty
  | .edgeType, name => ∃ ty, o.schema.edgeTypes[name]? = some ty

end Ontology

/-- The type names an axiom is about. -/
def AxiomKind.mentions : AxiomKind → List (TypeRole × String)
  | .subClassOf sub sup => [(.nodeType, sub), (.nodeType, sup)]
  | .equivalentClass left right => [(.nodeType, left), (.nodeType, right)]
  | .disjointWith left right => [(.nodeType, left), (.nodeType, right)]
  | .domain property cls => [(.edgeType, property), (.nodeType, cls)]
  | .range property cls => [(.edgeType, property), (.nodeType, cls)]
  | .functional property => [(.edgeType, property)]
  | .inverseFunctional property => [(.edgeType, property)]
  | .inverseOf left right => [(.edgeType, left), (.edgeType, right)]
  | .symmetric property => [(.edgeType, property)]
  | .transitive property => [(.edgeType, property)]

/-- The type names in the supertypes of a node type. -/
def NodeType.mentions (ty : NodeType) : List (TypeRole × String) :=
  ty.supertypes.map fun sup => (.nodeType, sup)

/-- The type names in the inverse, domain and range of an edge type. -/
def EdgeType.mentions (ty : EdgeType) : List (TypeRole × String) :=
  (ty.inverseOf.toList.map fun inv => (.edgeType, inv)) ++
    (ty.domain ++ ty.range).map fun cls => (.nodeType, cls)

/-- The type names in supertypes, inverses, domains, ranges and axioms. -/
def Ontology.mentions (o : Ontology) : List (TypeRole × String) :=
  o.schema.nodeTypes.vals.flatMap NodeType.mentions ++
    o.schema.edgeTypes.vals.flatMap EdgeType.mentions ++
    o.axioms.vals.flatMap fun a => a.kind.mentions

/-- The use of a type name under its declared IRI, if it has one. -/
def resolvedUse (vocab : Vocabulary) (o : Ontology) (role : TypeRole) (name : String) : NameUse :=
  ⟨role, name, (o.declaredIri role name).getD (ensureIri name localPrefix vocab)⟩

section Uses

variable {vocab : Vocabulary} {u : NameUse}

/-- The names used for a node type. -/
theorem uses_emitNodeType {name : String} {ty : NodeType} :
    (∃ e ∈ emitNodeType vocab name ty, u ∈ e.uses) ↔
      u = ⟨.nodeType, name, ty.iri.getD (ensureIri name localPrefix vocab)⟩ ∨
      ∃ m ∈ ty.mentions, u = fallbackUse vocab m.1 m.2 := by
  constructor
  · intro h
    obtain ⟨e, he, hu⟩ := h
    simp only [emitNodeType, emitProperty, List.cons_append, List.mem_cons, List.mem_append,
      List.mem_map, List.mem_flatMap, List.not_mem_nil, or_false] at he
    rcases he with rfl | ⟨sup, hsup, rfl⟩ | ⟨prop, -, rfl | rfl | rfl⟩
    · exact Or.inl (List.mem_singleton.mp hu)
    · rcases List.mem_cons.mp hu with hu | hu
      · exact Or.inl hu
      · exact Or.inr ⟨(.nodeType, sup), List.mem_map_of_mem hsup, List.mem_singleton.mp hu⟩
    · exact absurd hu List.not_mem_nil
    · exact Or.inl (List.mem_singleton.mp hu)
    · exact absurd hu List.not_mem_nil
  · intro h
    rcases h with rfl | ⟨m, hm, rfl⟩
    · exact ⟨_, List.mem_cons_self, List.mem_singleton_self _⟩
    · obtain ⟨sup, hsup, rfl⟩ := List.mem_map.mp hm
      refine ⟨_, List.mem_cons_of_mem _ (List.mem_append_left _ (List.mem_map_of_mem hsup)), ?_⟩
      simp

/-- The names used for an edge type. -/
theorem uses_emitEdgeType {name : String} {ty : EdgeType} :
    (∃ e ∈ emitEdgeType vocab name ty, u ∈ e.uses) ↔
      u = ⟨.edgeType, name, ty.iri.getD (ensureIri name localPrefix vocab)⟩ ∨
      ∃ m ∈ ty.mentions, u = fallbackUse vocab m.1 m.2 := by
  constructor
  · intro h
    obtain ⟨e, he, hu⟩ := h
    simp only [emitEdgeType, List.cons_append, List.append_assoc, List.mem_cons, List.mem_append,
      List.mem_map] at he
    rcases he with rfl | he | ⟨inv, hinv, rfl⟩ | ⟨d, hd, rfl⟩ | ⟨r, hr, rfl⟩
    · exact Or.inl (List.mem_singleton.mp hu)
    · split at he
      · obtain rfl := List.mem_singleton.mp he
        exact Or.inl (List.mem_singleton.mp hu)
      · exact absurd he List.not_mem_nil
    · rcases List.mem_cons.mp hu with hu | hu
      · exact Or.inl hu
      · exact Or.inr ⟨(.edgeType, inv), List.mem_append_left _ (List.mem_map_of_mem hinv),
          List.mem_singleton.mp hu⟩
    · rcases List.mem_cons.mp hu with hu | hu
      · exact Or.inl hu
      · exact Or.inr ⟨(.nodeType, d), List.mem_append_right _
          (List.mem_map_of_mem (List.mem_append_left _ hd)), List.mem_singleton.mp hu⟩
    · rcases List.mem_cons.mp hu with hu | hu
      · exact Or.inl hu
      · exact Or.inr ⟨(.nodeType, r), List.mem_append_right _
          (List.mem_map_of_mem (List.mem_append_right _ hr)), List.mem_singleton.mp hu⟩
  · intro h
    rcases h with rfl | ⟨m, hm, rfl⟩
    · exact ⟨_, List.mem_cons_self, List.mem_singleton_self _⟩
    · simp only [EdgeType.mentions, List.mem_append, List.mem_map] at hm
      simp only [emitEdgeType, List.cons_append, List.append_assoc, List.mem_cons, List.mem_append,
        List.mem_map]
      rcases hm with ⟨inv, hinv, rfl⟩ | ⟨cls, hd | hr, rfl⟩
      · exact ⟨_, Or.inr (Or.inr (Or.inl ⟨inv, hinv, rfl⟩)), by simp⟩
      · exact ⟨_, Or.inr (Or.inr (Or.inr (Or.inl ⟨cls, hd, rfl⟩))), by simp⟩
      · exact ⟨_, Or.inr (Or.inr (Or.inr (Or.inr ⟨cls, hr, rfl⟩))), by simp⟩

/-- The names used for an axiom. -/
theorem uses_emitAxiom {k : AxiomKind} :
    u ∈ (emitAxiom vocab k).uses ↔ ∃ m ∈ k.mentions, u = fallbackUse vocab m.1 m.2 := by
  cases k <;> simp [emitAxiom, emitBinary, emitCharacteristic, AxiomKind.mentions]

end Uses

section Emitted

variable [SerdeJson] [RdfText] {o : Ontology}

/-- A node uses the names of its labels, resolved. -/
theorem uses_emitNode {node : Node} {e : Emitted} {u : NameUse}
    (he : e ∈ emitNode o.projectionVocabulary o node) (hu : u ∈ e.uses) :
    ∃ name, u = resolvedUse o.projectionVocabulary o .nodeType name := by
  simp only [emitNode, List.mem_append, List.mem_map, List.mem_filterMap,
    Option.map_eq_some_iff] at he
  rcases he with ⟨name, -, rfl⟩ | ⟨kv, -, object, -, rfl⟩
  · exact ⟨name, List.mem_singleton.mp hu⟩
  · exact absurd hu List.not_mem_nil

omit [SerdeJson] [RdfText] in
/-- An edge uses the name of its label, resolved. -/
theorem uses_emitEdge {edge : Edge} {e : Emitted} {u : NameUse}
    (he : emitEdge o.projectionVocabulary o edge = some e) (hu : u ∈ e.uses) :
    u = resolvedUse o.projectionVocabulary o .edgeType edge.label := by
  obtain ⟨src, -, rfl⟩ := Option.map_eq_some_iff.mp he
  exact List.mem_singleton.mp hu

/-- Every use of a type name in a projection. -/
def Ontology.uses (o : Ontology) : List NameUse := o.emitted.flatMap Emitted.uses

/-- A name is used under its resolved IRI, or falls back where it is mentioned. -/
theorem uses_cases {u : NameUse} (h : u ∈ o.uses) :
    (∃ role name, u = resolvedUse o.projectionVocabulary o role name) ∨
      ∃ m ∈ o.mentions, u = fallbackUse o.projectionVocabulary m.1 m.2 := by
  obtain ⟨e, he, hu⟩ := List.mem_flatMap.mp h
  simp only [Ontology.emitted, emitSchema, emitNodes, emitEdges, emitAxioms, List.mem_append,
    List.mem_flatMap, List.mem_filterMap, List.mem_map] at he
  rcases he with (((⟨kv, hkv, he⟩ | ⟨kv, hkv, he⟩) | ⟨node, -, he⟩) | ⟨edge, -, he⟩) | ⟨a, ha, rfl⟩
  · have hget := Std.ExtTreeMap.mem_toList_iff_getElem?_eq_some.mp hkv
    rcases uses_emitNodeType.mp ⟨e, he, hu⟩ with rfl | ⟨m, hm, rfl⟩
    · left
      refine ⟨.nodeType, kv.1, ?_⟩
      rw [resolvedUse, Ontology.declaredIri, hget]
      rfl
    · right
      exact ⟨m, List.mem_append_left _ (List.mem_append_left _ (List.mem_flatMap.mpr
        ⟨kv.2, List.mem_map_of_mem hkv, hm⟩)), rfl⟩
  · have hget := Std.ExtTreeMap.mem_toList_iff_getElem?_eq_some.mp hkv
    rcases uses_emitEdgeType.mp ⟨e, he, hu⟩ with rfl | ⟨m, hm, rfl⟩
    · left
      refine ⟨.edgeType, kv.1, ?_⟩
      rw [resolvedUse, Ontology.declaredIri, hget]
      rfl
    · right
      exact ⟨m, List.mem_append_left _ (List.mem_append_right _ (List.mem_flatMap.mpr
        ⟨kv.2, List.mem_map_of_mem hkv, hm⟩)), rfl⟩
  · obtain ⟨name, hname⟩ := uses_emitNode he hu
    exact Or.inl ⟨.nodeType, name, hname⟩
  · exact Or.inl ⟨.edgeType, edge.label, uses_emitEdge he hu⟩
  · obtain ⟨m, hm, rfl⟩ := uses_emitAxiom.mp hu
    exact Or.inr ⟨m, List.mem_append_right _ (List.mem_flatMap.mpr ⟨a, ha, hm⟩), rfl⟩

/-- A declared type is used under its resolved IRI. -/
theorem resolvedUse_mem_uses {role : TypeRole} {name : String} (h : o.Declared role name) :
    resolvedUse o.projectionVocabulary o role name ∈ o.uses := by
  rw [Ontology.uses, List.mem_flatMap]
  simp only [Ontology.emitted, emitSchema, List.mem_append, List.mem_flatMap]
  cases role with
  | nodeType =>
    obtain ⟨ty, hty⟩ := h
    have hmem := Std.ExtTreeMap.mem_toList_iff_getElem?_eq_some.mpr hty
    obtain ⟨e, he, hu⟩ := (@uses_emitNodeType o.projectionVocabulary _ name ty).mpr (Or.inl rfl)
    refine ⟨e, Or.inl (Or.inl (Or.inl (Or.inl ⟨(name, ty), hmem, he⟩))), ?_⟩
    rw [resolvedUse, Ontology.declaredIri, hty]
    exact hu
  | edgeType =>
    obtain ⟨ty, hty⟩ := h
    have hmem := Std.ExtTreeMap.mem_toList_iff_getElem?_eq_some.mpr hty
    obtain ⟨e, he, hu⟩ := (@uses_emitEdgeType o.projectionVocabulary _ name ty).mpr (Or.inl rfl)
    refine ⟨e, Or.inl (Or.inl (Or.inl (Or.inr ⟨(name, ty), hmem, he⟩))), ?_⟩
    rw [resolvedUse, Ontology.declaredIri, hty]
    exact hu

/-- A mentioned name is used under what it falls back to. -/
theorem fallbackUse_mem_uses {m : TypeRole × String} (h : m ∈ o.mentions) :
    fallbackUse o.projectionVocabulary m.1 m.2 ∈ o.uses := by
  rw [Ontology.uses, List.mem_flatMap]
  simp only [Ontology.emitted, emitSchema, emitAxioms, List.mem_append, List.mem_flatMap,
    List.mem_map]
  simp only [Ontology.mentions, List.mem_append, List.mem_flatMap, BTreeMap.vals, List.mem_map] at h
  rcases h with (⟨ty, ⟨kv, hkv, rfl⟩, hm⟩ | ⟨ty, ⟨kv, hkv, rfl⟩, hm⟩) | ⟨a, ⟨kv, hkv, rfl⟩, hm⟩
  · obtain ⟨e, he, hu⟩ := (@uses_emitNodeType o.projectionVocabulary _ kv.1 kv.2).mpr
      (Or.inr ⟨m, hm, rfl⟩)
    exact ⟨e, Or.inl (Or.inl (Or.inl (Or.inl ⟨kv, hkv, he⟩))), hu⟩
  · obtain ⟨e, he, hu⟩ := (@uses_emitEdgeType o.projectionVocabulary _ kv.1 kv.2).mpr
      (Or.inr ⟨m, hm, rfl⟩)
    exact ⟨e, Or.inl (Or.inl (Or.inl (Or.inr ⟨kv, hkv, he⟩))), hu⟩
  · exact ⟨_, Or.inr ⟨kv.2, List.mem_map_of_mem hkv, rfl⟩, uses_emitAxiom.mpr ⟨m, hm, rfl⟩⟩

/-- All triples that refer to a declared type use one IRI for it. -/
def Ontology.OneIri (o : Ontology) : Prop :=
  ∀ role name, o.Declared role name → ∀ u ∈ o.uses, ∀ v ∈ o.uses, u.role = role → u.name = name →
    v.role = role → v.name = name → u.iri = v.iri

omit [SerdeJson] [RdfText] in
/-- A declared type whose IRI is not the one its name falls back to is mentioned nowhere. -/
def Ontology.MentionsFallBack (o : Ontology) : Prop :=
  ∀ role name iri, (role, name) ∈ o.mentions → o.declaredIri role name = some iri →
    iri = ensureIri name localPrefix o.projectionVocabulary

omit [SerdeJson] [RdfText] in
/-- A name with a declared IRI is declared. -/
theorem declared_of_declaredIri {role : TypeRole} {name : String} {iri : Iri}
    (h : o.declaredIri role name = some iri) : o.Declared role name := by
  cases role with
  | nodeType =>
    obtain ⟨ty, hty, -⟩ := Option.bind_eq_some_iff.mp h
    exact ⟨ty, hty⟩
  | edgeType =>
    obtain ⟨ty, hty, -⟩ := Option.bind_eq_some_iff.mp h
    exact ⟨ty, hty⟩

/-- A projection uses one IRI for each declared type exactly when no type with another IRI
than its name falls back to is mentioned in supertypes, inverses, domains, ranges or axioms. -/
theorem oneIri_iff_mentionsFallBack (o : Ontology) : o.OneIri ↔ o.MentionsFallBack := by
  constructor
  · intro h role name iri hm hiri
    have hdeclared := declared_of_declaredIri hiri
    have heq := h role name hdeclared _ (resolvedUse_mem_uses hdeclared) _ (fallbackUse_mem_uses hm)
      rfl rfl rfl rfl
    simpa [resolvedUse, fallbackUse, hiri] using heq
  · intro h role name _
    -- Every use of the name has the resolved IRI.
    have hresolved : ∀ u ∈ o.uses, u.role = role → u.name = name →
        u.iri = (resolvedUse o.projectionVocabulary o role name).iri := by
      intro u hu hrole hname
      rcases uses_cases hu with ⟨role', name', rfl⟩ | ⟨m, hm, rfl⟩
      · obtain rfl : role' = role := hrole
        obtain rfl : name' = name := hname
        rfl
      · obtain ⟨role', name'⟩ := m
        obtain rfl : role' = role := hrole
        obtain rfl : name' = name := hname
        unfold resolvedUse fallbackUse
        cases hiri : o.declaredIri role' name' with
        | none => rfl
        | some iri => exact (h role' name' iri hm hiri).symm
    intro u hu v hv hru hnu hrv hnv
    rw [hresolved u hu hru hnu, hresolved v hv hrv hnv]

end Emitted

/-- `Agent`, declared with an IRI, and its subtype `Person`. -/
private def agents : Ontology :=
  { Ontology.empty with
    schema := (Schema.empty.declareNodeType
      { NodeType.new "Agent" with iri := some ⟨"http://xmlns.com/foaf/0.1/Agent"⟩ }).declareNodeType
      { NodeType.new "Person" with supertypes := ["Agent"] } }

/-- `Agent` is declared under its own IRI and is a superclass under another one. -/
theorem agents_use_two_iris : ¬@Ontology.OneIri .plain .plain agents := by
  let _ := SerdeJson.plain
  let _ := RdfText.plain
  intro h
  have hdeclared : agents.Declared .nodeType "Agent" := by
    have hsome : agents.schema.nodeTypes["Agent"]?.isSome := by decide +kernel
    exact Option.isSome_iff_exists.mp hsome
  have hmentioned : (TypeRole.nodeType, "Agent") ∈ agents.mentions := by decide +kernel
  have heq := h .nodeType "Agent" hdeclared _ (resolvedUse_mem_uses hdeclared) _
    (fallbackUse_mem_uses hmentioned) rfl rfl rfl rfl
  exact absurd heq (by decide +kernel)

section Emitted

variable [SerdeJson] [RdfText] {o : Ontology}

/-- The triples of a node have the node's term as their subject. -/
theorem subject_emitNode {vocab : Vocabulary} {node : Node} {e : Emitted}
    (h : e ∈ emitNode vocab o node) : e.triple.subject = nodeSubject node := by
  simp only [emitNode, List.mem_append, List.mem_map, List.mem_filterMap,
    Option.map_eq_some_iff] at h
  rcases h with ⟨name, -, rfl⟩ | ⟨kv, -, object, -, rfl⟩
  · rfl
  · rfl

/-- Every value of a stored node is the object of a triple. -/
theorem property_mem_toRdf {node : Node} {name : String} {v : PropertyValue}
    {object : Object} (hnode : node ∈ o.nodes.vals) (hvalue : node.properties[name]? = some v)
    (hobject : v.toObject = some object) :
    ⟨nodeSubject node, propertyIri o.projectionVocabulary o node name, object⟩ ∈ toRdf o := by
  have hentry : (name, v) ∈ node.properties.toList :=
    Std.ExtTreeMap.mem_toList_iff_getElem?_eq_some.mpr hvalue
  have hemitted : (⟨⟨nodeSubject node, propertyIri o.projectionVocabulary o node name, object⟩,
      []⟩ : Emitted) ∈ emitNode o.projectionVocabulary o node := by
    refine List.mem_append_right _ (List.mem_filterMap.mpr ⟨(name, v), hentry, ?_⟩)
    rw [hobject]
    rfl
  have hnodes := List.mem_flatMap.mpr ⟨node, hnode, hemitted⟩
  exact List.mem_map.mpr ⟨_, List.mem_append_left _
    (List.mem_append_left _ (List.mem_append_right _ hnodes)), rfl⟩

omit [RdfText] [SerdeJson] in
theorem nodeObject_ne_blank {id : NodeId} {label : String} : nodeObject id o ≠ .blank label := by
  unfold nodeObject
  split <;> simp

theorem toObject_ne_blank {v : PropertyValue} {label : String} :
    v.toObject ≠ some (.blank label) := by
  cases v <;> simp [PropertyValue.toObject]

/-- No triple of a projection has a blank node as its object. -/
theorem object_ne_blank {t : Triple} {label : String} (h : t ∈ toRdf o) :
    t.object ≠ .blank label := by
  obtain ⟨e, he, rfl⟩ := List.mem_map.mp h
  simp only [Ontology.emitted, emitSchema, emitNodes, emitEdges, emitAxioms, List.mem_append,
    List.mem_flatMap, List.mem_filterMap, List.mem_map] at he
  rcases he with (((⟨kv, -, he⟩ | ⟨kv, -, he⟩) | ⟨node, -, he⟩) | ⟨edge, -, he⟩) | ⟨a, -, rfl⟩
  · simp only [emitNodeType, emitProperty, List.cons_append, List.mem_cons, List.mem_append,
      List.mem_map, List.mem_flatMap, List.not_mem_nil, or_false] at he
    rcases he with rfl | ⟨sup, -, rfl⟩ | ⟨prop, -, rfl | rfl | rfl⟩ <;> simp
  · simp only [emitEdgeType, List.cons_append, List.append_assoc, List.mem_cons, List.mem_append,
      List.mem_map] at he
    rcases he with rfl | he | ⟨inv, -, rfl⟩ | ⟨d, -, rfl⟩ | ⟨r, -, rfl⟩
    · simp
    · split at he
      · obtain rfl := List.mem_singleton.mp he
        simp
      · exact absurd he List.not_mem_nil
    · simp
    · simp
    · simp
  · simp only [emitNode, List.mem_append, List.mem_map, List.mem_filterMap,
      Option.map_eq_some_iff] at he
    rcases he with ⟨name, -, rfl⟩ | ⟨kv, -, object, hobject, rfl⟩
    · simp
    · intro hblank
      have heq : object = .blank label := hblank
      exact toObject_ne_blank (heq ▸ hobject)
  · obtain ⟨src, -, rfl⟩ := Option.map_eq_some_iff.mp he
    exact nodeObject_ne_blank
  · cases a.kind <;> simp [emitAxiom, emitBinary, emitCharacteristic]

/-- An edge yields a triple between the terms of its nodes. -/
def EdgeProjected (o : Ontology) (edge : Edge) (src tgt : Node) : Prop :=
  ∃ t ∈ toRdf o, t.subject = nodeSubject src ∧
    t.predicate = (predicateUse o.projectionVocabulary o edge.label).iri ∧
    t.object = (nodeSubject tgt).toObject

/-- Every edge between stored nodes yields a triple between the terms under which the nodes'
own triples are emitted. -/
def Ontology.InstanceGraphProjected (o : Ontology) : Prop :=
  (∀ node ∈ o.nodes.vals, ∀ e ∈ emitNode o.projectionVocabulary o node,
    e.triple.subject = nodeSubject node) ∧
  ∀ edge ∈ o.edges.vals, ∀ src tgt, o.nodes[edge.source]? = some src →
    o.nodes[edge.target]? = some tgt → EdgeProjected o edge src tgt

/-- The instance graph is projected exactly when every edge between stored nodes leads to a
node with an IRI. -/
theorem instanceGraphProjected_iff (o : Ontology) : o.InstanceGraphProjected ↔
    ∀ edge ∈ o.edges.vals, ∀ src tgt, o.nodes[edge.source]? = some src →
      o.nodes[edge.target]? = some tgt → tgt.iri.isSome := by
  constructor
  · intro h edge hedge src tgt hsrc htgt
    obtain ⟨t, ht, -, -, hobject⟩ := h.2 edge hedge src tgt hsrc htgt
    cases hiri : tgt.iri with
    | some iri => rfl
    | none =>
      rw [nodeSubject, hiri] at hobject
      exact absurd hobject (object_ne_blank ht)
  · intro h
    refine ⟨fun node _ e he => subject_emitNode he, ?_⟩
    intro edge hedge src tgt hsrc htgt
    have hemitted : emitEdge o.projectionVocabulary o edge = some
        ⟨⟨nodeSubject src, (predicateUse o.projectionVocabulary o edge.label).iri,
          nodeObject edge.target o⟩, [predicateUse o.projectionVocabulary o edge.label]⟩ := by
      rw [emitEdge, hsrc]
      rfl
    refine ⟨_, List.mem_map_of_mem (List.mem_append_left _ (List.mem_append_right _
      (List.mem_filterMap.mpr ⟨edge, hedge, hemitted⟩))), rfl, rfl, ?_⟩
    obtain ⟨iri, hiri⟩ := Option.isSome_iff_exists.mp (h edge hedge src tgt hsrc htgt)
    simp [nodeObject, nodeSubject, htgt, hiri, Subject.toObject]

end Emitted

/-- An edge between two nodes without IRIs. -/
private def anonymousEdge : Edge := ⟨.filled 1, "knows", .filled 1, .filled 2, ∅⟩

private def anonymousPair : Ontology :=
  ((Ontology.empty.upsertNode ⟨.filled 1, none, ["Person"], ∅⟩).upsertNode
    ⟨.filled 2, none, ["Person"], ∅⟩).upsertEdge anonymousEdge

/-- The triple of the edge leads to an IRI, the triples of its target start at a blank node. -/
theorem anonymousPair_not_projected :
    ¬@Ontology.InstanceGraphProjected .plain .plain anonymousPair := by
  let _ := SerdeJson.plain
  let _ := RdfText.plain
  intro h
  have hedge : anonymousEdge ∈ anonymousPair.edges.vals := by
    simp [anonymousPair, Ontology.upsertEdge, Ontology.upsertNode, Ontology.empty]
  have hsource : anonymousPair.nodes[anonymousEdge.source]? =
      some ⟨.filled 1, none, ["Person"], ∅⟩ := by
    simp only [anonymousPair, Ontology.upsertEdge, Ontology.upsertNode, BTreeMap.get_insert]
    rfl
  have htarget : anonymousPair.nodes[anonymousEdge.target]? =
      some ⟨.filled 2, none, ["Person"], ∅⟩ := by
    simp only [anonymousPair, Ontology.upsertEdge, Ontology.upsertNode, BTreeMap.get_insert]
    rfl
  obtain ⟨t, ht, -, -, hobject⟩ := h.2 anonymousEdge hedge _ _ hsource htarget
  exact object_ne_blank ht hobject

end AtomrOntology
