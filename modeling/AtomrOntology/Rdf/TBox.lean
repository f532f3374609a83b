import AtomrOntology.Rdf.Import
import AtomrOntology.Rdf.ReadsBack

/-!
# Which schemas survive export and import?

The import takes class declarations, superclasses and object properties from the triples of
a schema. Types come back under their names with their supertypes; of an edge type, domain and
range are not imported.
-/

namespace AtomrOntology

/-- The characters after which a local name starts. -/
def separatesName (c : Char) : Bool := c == '#' || c == '/' || c == ':'

/-- A name without `#`, `/` and `:`. -/
def PlainName (name : String) : Prop := ∀ c ∈ name.toList, separatesName c = false

/-- The local name is what is after the last separator. -/
theorem localName_append {front : List Char} {sep : Char} {name : String}
    (hsep : separatesName sep = true) (h : PlainName name) :
    localName ⟨.ofList (front ++ [sep]) ++ name⟩ = name := by
  have hname : ∀ c ∈ name.toList.reverse, (!separatesName c) = true := by
    intro c hc
    rw [h c (List.mem_reverse.mp hc)]
    rfl
  have hstop : ∀ c ∈ (sep :: front.reverse).head?, (!separatesName c) = false := by
    intro c hc
    obtain rfl := Option.some.inj hc
    rw [hsep]
    rfl
  have htext : (String.ofList (front ++ [sep]) ++ name).toList.reverse =
      name.toList.reverse ++ sep :: front.reverse := by
    simp
  have htake := List.takeWhile_token hname hstop
  rw [localName, htext]
  change String.ofList (List.takeWhile (fun c => !separatesName c) _).reverse = name
  rw [htake, List.reverse_reverse, String.ofList_toList]

/-- A plain name without an IRI is put under the local prefix, and found there again. -/
theorem localName_ensureIri {name : String} (vocab : Vocabulary) (h : PlainName name) :
    localName (ensureIri name localPrefix vocab) = name := by
  have hcolon : ':' ∉ name.toList := by
    intro hmem
    have hsep := h _ hmem
    revert hsep
    decide
  have hsplit : splitOnce ':' name.toList = none := by
    cases hparts : splitOnce ':' name.toList with
    | none => rfl
    | some parts =>
      have hmem : ':' ∈ name.toList := by
        rw [(splitOnce_some hparts).2]
        exact List.mem_append_right _ List.mem_cons_self
      exact absurd hmem hcolon
  have hexpand : vocab.expandCurie name = none := by
    rw [Vocabulary.expandCurie, hsplit]
    rfl
  have hnamespace : localPrefix =
      String.ofList ("https://atomr.dev/ontology/local".toList ++ ['#']) := by
    simp [localPrefix]
  rw [ensureIri, hexpand]
  simp only [List.contains_eq_mem, hcolon, decide_false, Bool.false_eq_true, ↓reduceIte]
  rw [hnamespace]
  exact localName_append rfl h

/-- The IRI a type is exported under. -/
def exportIri (vocab : Vocabulary) (name : String) (iri : Option Iri) : Iri :=
  iri.getD (ensureIri name localPrefix vocab)

/-- A class as it comes back. -/
def importedClass (vocab : Vocabulary) (name : String) (ty : NodeType) : NodeType :=
  ty.supertypes.foldl withSuper (freshClass (exportIri vocab name ty.iri))

/-- A further supertype leaves the name. -/
theorem withSuper_name (ty : NodeType) (sup : String) : (withSuper ty sup).name = ty.name := by
  unfold withSuper
  split <;> rfl

/-- Further supertypes leave the name. -/
theorem foldl_withSuper_name (sups : List String) (ty : NodeType) :
    (sups.foldl withSuper ty).name = ty.name := by
  induction sups generalizing ty with
  | nil => rfl
  | cons sup sups ih => rw [List.foldl_cons, ih, withSuper_name]

/-- They are added to those that are there. -/
theorem mem_foldl_withSuper {sups : List String} {ty : NodeType} {x : String} :
    x ∈ (sups.foldl withSuper ty).supertypes ↔ x ∈ ty.supertypes ∨ x ∈ sups := by
  induction sups generalizing ty with
  | nil => simp
  | cons sup sups ih =>
    rw [List.foldl_cons, ih, mem_withSuper, List.mem_cons, or_assoc]

/-- An imported class has its supertypes. -/
theorem mem_importedClass {vocab : Vocabulary} {name : String} {ty : NodeType} {x : String} :
    x ∈ (importedClass vocab name ty).supertypes ↔ x ∈ ty.supertypes := by
  rw [importedClass, mem_foldl_withSuper]
  simp [freshClass, NodeType.new]

/-- A type that is declared again replaces the first declaration. -/
theorem declareNodeType_declareNodeType (schema : Schema) {a b : NodeType} (h : b.name = a.name) :
    (schema.declareNodeType a).declareNodeType b = schema.declareNodeType b := by
  have htypes : (schema.nodeTypes.insert a.name a).insert b.name b =
      schema.nodeTypes.insert b.name b := by
    apply Std.ExtTreeMap.ext_getElem?
    intro name
    rw [BTreeMap.get_insert, BTreeMap.get_insert, BTreeMap.get_insert, h]
    split <;> rfl
  simp only [Schema.declareNodeType, htypes]

/-- Triples of a class and its supertypes. -/
theorem foldl_importStep_supers (vocab : Vocabulary) (schema : Schema) (cls : Iri)
    (sups : List String) (hsups : ∀ sup ∈ sups, PlainName sup) (ty : NodeType)
    (hname : ty.name = localName cls) :
    (sups.map fun sup => (⟨.iri cls, rdfsSubclass, .iri (ensureIri sup localPrefix vocab)⟩ :
        Triple)).foldl importStep (schema.declareNodeType ty) =
      schema.declareNodeType (sups.foldl withSuper ty) := by
  induction sups generalizing ty with
  | nil => rfl
  | cons sup sups ih =>
    have hne : rdfsSubclass ≠ rdfType := by decide
    have hlocal := localName_ensureIri vocab (hsups sup List.mem_cons_self)
    have hget : (schema.declareNodeType ty).nodeTypes[localName cls]? = some ty := by
      rw [Schema.declareNodeType, BTreeMap.get_insert, if_pos hname]
    have hstep : importStep (schema.declareNodeType ty)
        ⟨.iri cls, rdfsSubclass, .iri (ensureIri sup localPrefix vocab)⟩ =
          (schema.declareNodeType ty).declareNodeType (withSuper ty sup) := by
      simp only [importStep, importTriple, if_neg hne, ↓reduceIte, hget, Option.getD_some, hlocal]
      rfl
    have hkept : (withSuper ty sup).name = ty.name := withSuper_name ty sup
    rw [List.map_cons, List.foldl_cons, hstep, declareNodeType_declareNodeType _ hkept,
      ih (fun s hs => hsups s (List.mem_cons_of_mem sup hs)) _ (hkept.trans hname)]
    rfl

/-- Triples that the import does not read leave the schema alone. -/
theorem foldl_importStep_skip {triples : List Triple} (schema : Schema)
    (h : ∀ t ∈ triples, importStep schema t = schema) :
    triples.foldl importStep schema = schema := by
  induction triples with
  | nil => rfl
  | cons t triples ih =>
    rw [List.foldl_cons, h t List.mem_cons_self]
    exact ih fun u hu => h u (List.mem_cons_of_mem t hu)

section Types

variable {vocab : Vocabulary} {name : String}

/-- Domains are not imported. -/
theorem importStep_domain (schema : Schema) (subject : Subject) (object : Object) :
    importStep schema ⟨subject, rdfsDomain, object⟩ = schema := by
  have hne : rdfsDomain ≠ rdfType ∧ rdfsDomain ≠ rdfsSubclass := by decide
  cases subject <;> simp [importStep, importTriple, hne]

/-- Ranges are not imported. -/
theorem importStep_range (schema : Schema) (subject : Subject) (object : Object) :
    importStep schema ⟨subject, rdfsRange, object⟩ = schema := by
  have hne : rdfsRange ≠ rdfType ∧ rdfsRange ≠ rdfsSubclass := by decide
  cases subject <;> simp [importStep, importTriple, hne]

/-- Nothing of a property of a class is imported. -/
theorem importStep_emitProperty (schema : Schema) {cls : NameUse} {prop : PropertyType} {t : Triple}
    (ht : t ∈ (emitProperty vocab cls prop).map Emitted.triple) : importStep schema t = schema := by
  have htype : owlDatatypeProperty ≠ owlClass ∧ owlDatatypeProperty ≠ owlObjectProperty := by decide
  simp only [emitProperty, List.map_cons, List.map_nil, List.mem_cons, List.not_mem_nil,
    or_false] at ht
  rcases ht with rfl | rfl | rfl
  · simp [importStep, importTriple, htype]
  · exact importStep_domain schema _ _
  · exact importStep_range schema _ _

/-- A node type comes back with its supertypes. -/
theorem foldl_importStep_nodeType (schema : Schema) {ty : NodeType}
    (hsups : ∀ sup ∈ ty.supertypes, PlainName sup) :
    ((emitNodeType vocab name ty).map Emitted.triple).foldl importStep schema =
      schema.declareNodeType (importedClass vocab name ty) := by
  have hclass : importStep schema ⟨.iri (exportIri vocab name ty.iri), rdfType, .iri owlClass⟩ =
      schema.declareNodeType (freshClass (exportIri vocab name ty.iri)) := by
    simp only [importStep, importTriple, ↓reduceIte]
    rfl
  have hsupers := foldl_importStep_supers vocab schema (exportIri vocab name ty.iri) ty.supertypes
    hsups (freshClass (exportIri vocab name ty.iri)) rfl
  have hproperties : ∀ s, (ty.properties.flatMap fun prop => (emitProperty vocab
      ⟨.nodeType, name, exportIri vocab name ty.iri⟩ prop).map Emitted.triple).foldl importStep s =
        s := by
    intro s
    apply foldl_importStep_skip
    intro t ht
    obtain ⟨prop, -, hprop⟩ := List.mem_flatMap.mp ht
    exact importStep_emitProperty s hprop
  have hemitted : (emitNodeType vocab name ty).map Emitted.triple =
      ⟨.iri (exportIri vocab name ty.iri), rdfType, .iri owlClass⟩ ::
        ((ty.supertypes.map fun sup => (⟨.iri (exportIri vocab name ty.iri), rdfsSubclass,
          .iri (ensureIri sup localPrefix vocab)⟩ : Triple)) ++
        ty.properties.flatMap fun prop => (emitProperty vocab
          ⟨.nodeType, name, exportIri vocab name ty.iri⟩ prop).map Emitted.triple) := by
    simp [emitNodeType, fallbackUse, exportIri, List.map_flatMap, Function.comp_def]
  rw [hemitted, List.foldl_cons, hclass, List.foldl_append, hsupers, hproperties]
  rfl

/-- Of an edge type only its IRI comes back. -/
theorem foldl_importStep_edgeType (schema : Schema) (ty : EdgeType) :
    ((emitEdgeType vocab name ty).map Emitted.triple).foldl importStep schema =
      schema.declareEdgeType (freshProperty (exportIri vocab name ty.iri)) := by
  have hcls : owlObjectProperty ≠ owlClass := by decide
  have hproperty : importStep schema
      ⟨.iri (exportIri vocab name ty.iri), rdfType, .iri owlObjectProperty⟩ =
        schema.declareEdgeType (freshProperty (exportIri vocab name ty.iri)) := by
    simp only [importStep, importTriple, ↓reduceIte, if_neg hcls]
    rfl
  have hrest : ∀ t ∈ ((emitEdgeType vocab name ty).map Emitted.triple).tail, ∀ s,
      importStep s t = s := by
    intro t ht s
    have hfunctional : owlFunctional ≠ owlClass ∧ owlFunctional ≠ owlObjectProperty := by decide
    have hinverse : owlInverseOf ≠ rdfType ∧ owlInverseOf ≠ rdfsSubclass := by decide
    simp only [emitEdgeType, List.cons_append, List.map_cons, List.tail_cons, List.map_append,
      List.mem_append, List.map_map, List.mem_map, Function.comp_apply] at ht
    rcases ht with ((ht | ⟨inv, -, rfl⟩) | ⟨d, -, rfl⟩) | ⟨r, -, rfl⟩
    · split at ht
      · obtain ⟨e, he, rfl⟩ := ht
        obtain rfl := List.mem_singleton.mp he
        simp [importStep, importTriple, hfunctional]
      · simp at ht
    · simp [importStep, importTriple, hinverse]
    · exact importStep_domain s _ _
    · exact importStep_range s _ _
  have hemitted : (emitEdgeType vocab name ty).map Emitted.triple =
      ⟨.iri (exportIri vocab name ty.iri), rdfType, .iri owlObjectProperty⟩ ::
        ((emitEdgeType vocab name ty).map Emitted.triple).tail := by
    simp [emitEdgeType, exportIri]
  rw [hemitted, List.foldl_cons, hproperty]
  exact foldl_importStep_skip _ fun t ht => hrest t ht _

end Types

section Schema

variable {vocab : Vocabulary}

/-- The triples of node types are imported as their classes. -/
theorem foldl_importStep_nodeTypes (types : List (String × NodeType))
    (hsups : ∀ kv ∈ types, ∀ sup ∈ kv.2.supertypes, PlainName sup) (schema : Schema) :
    ((types.flatMap fun kv => emitNodeType vocab kv.1 kv.2).map Emitted.triple).foldl importStep
        schema =
      { schema with
        nodeTypes := .insertAll NodeType.name schema.nodeTypes
          (types.map fun kv => importedClass vocab kv.1 kv.2) } := by
  induction types generalizing schema with
  | nil => rfl
  | cons kv types ih =>
    rw [List.flatMap_cons, List.map_append, List.foldl_append,
      foldl_importStep_nodeType schema (hsups kv List.mem_cons_self),
      ih fun kv' hkv' => hsups kv' (List.mem_cons_of_mem kv hkv')]
    rfl

/-- The triples of edge types are imported as fresh properties. -/
theorem foldl_importStep_edgeTypes (types : List (String × EdgeType)) (schema : Schema) :
    ((types.flatMap fun kv => emitEdgeType vocab kv.1 kv.2).map Emitted.triple).foldl importStep
        schema =
      { schema with
        edgeTypes := .insertAll EdgeType.name schema.edgeTypes
          (types.map fun kv => freshProperty (exportIri vocab kv.1 kv.2.iri)) } := by
  induction types generalizing schema with
  | nil => rfl
  | cons kv types ih =>
    rw [List.flatMap_cons, List.map_append, List.foldl_append, foldl_importStep_edgeType, ih]
    rfl

/-- A type is exported under an IRI with its name as the local name. -/
def KeepsName (name : String) (iri : Option Iri) : Prop :=
  PlainName name ∧ ∀ declared ∈ iri, localName declared = name

/-- A name that is kept is the local name of its IRI. -/
theorem KeepsName.localName_exportIri {name : String} {iri : Option Iri} (h : KeepsName name iri) :
    localName (exportIri vocab name iri) = name := by
  cases iri with
  | none => exact localName_ensureIri vocab h.1
  | some declared => exact h.2 declared rfl

/-- Names without separators, and IRIs that end in the names of their types. -/
structure Schema.KeepsNames (schema : Schema) : Prop where
  nodeTypes : ∀ (name : String) (ty : NodeType), schema.nodeTypes[name]? = some ty →
    KeepsName name ty.iri ∧ ∀ sup ∈ ty.supertypes, PlainName sup
  edgeTypes : ∀ (name : String) (ty : EdgeType), schema.edgeTypes[name]? = some ty →
    KeepsName name ty.iri

variable (vocab) in
/-- A schema whose names are kept comes back, without what is skipped. -/
theorem Schema.KeepsNames.imported {schema : Schema} (h : schema.KeepsNames) (name : String) :
    (((emitSchema vocab schema).map Emitted.triple).foldl importStep .empty).nodeTypes[name]? =
        schema.nodeTypes[name]?.map (importedClass vocab name) ∧
      (((emitSchema vocab schema).map Emitted.triple).foldl importStep .empty).edgeTypes[name]? =
        schema.edgeTypes[name]?.map fun ty => freshProperty (exportIri vocab name ty.iri) := by
  have hsups : ∀ kv ∈ schema.nodeTypes.toList, ∀ sup ∈ kv.2.supertypes, PlainName sup :=
    fun kv hkv => (h.nodeTypes kv.1 kv.2 (Std.ExtTreeMap.mem_toList_iff_getElem?_eq_some.mp hkv)).2
  have hnodes : ∀ k v, schema.nodeTypes[k]? = some v → (importedClass vocab k v).name = k := by
    intro k v hk
    rw [importedClass, foldl_withSuper_name]
    exact (h.nodeTypes k v hk).1.localName_exportIri
  have hedges : ∀ (k : String) (v : EdgeType), schema.edgeTypes[k]? = some v →
      (freshProperty (exportIri vocab k v.iri)).name = k :=
    fun k v hk => (h.edgeTypes k v hk).localName_exportIri
  rw [emitSchema, List.map_append, List.foldl_append, foldl_importStep_nodeTypes _ hsups,
    foldl_importStep_edgeTypes]
  exact ⟨BTreeMap.get_insertAll_map_toList hnodes name, BTreeMap.get_insertAll_map_toList
    (f := fun k (v : EdgeType) => freshProperty (exportIri vocab k v.iri)) hedges name⟩

end Schema

/-- The same set of supertypes. -/
def SameSupertypes (a b : NodeType) : Prop := ∀ sup, sup ∈ a.supertypes ↔ sup ∈ b.supertypes

/-- The same domain and range sets. -/
def SameEnds (a b : EdgeType) : Prop :=
  (∀ name, name ∈ a.domain ↔ name ∈ b.domain) ∧ ∀ name, name ∈ a.range ↔ name ∈ b.range

/-- The same node types with the same supertypes, and the same edge types with the same
domains and ranges. -/
structure SameTBox (a b : Schema) : Prop where
  nodeTypes : ∀ name : String, Option.Rel SameSupertypes a.nodeTypes[name]? b.nodeTypes[name]?
  edgeTypes : ∀ name : String, Option.Rel SameEnds a.edgeTypes[name]? b.edgeTypes[name]?

/-- No nodes, edges and axioms. -/
structure Ontology.OnlySchema (o : Ontology) : Prop where
  nodes : o.nodes = ∅
  edges : o.edges = ∅
  axioms : o.axioms = ∅

/-- No edge type states a domain or a range. -/
def Schema.Unrestricted (schema : Schema) : Prop :=
  ∀ (name : String) (ty : EdgeType), schema.edgeTypes[name]? = some ty → ty.domain = [] ∧
    ty.range = []

section RoundTrip

variable [SerdeJson] [RdfText] {o : Ontology}

/-- Without instances only the triples of the schema are imported. -/
theorem Ontology.OnlySchema.fromRdf_schema (h : o.OnlySchema) :
    (fromRdf (toRdf o)).schema =
      ((emitSchema o.projectionVocabulary o.schema).map Emitted.triple).foldl importStep
      .empty := by
  have htriples : toRdf o = (emitSchema o.projectionVocabulary o.schema).map Emitted.triple := by
    simp [toRdf, Ontology.emitted, emitNodes, emitEdges, emitAxioms, h.nodes, h.edges, h.axioms]
  rw [htriples]
  rfl

omit [SerdeJson] [RdfText] in
/-- An imported class has the same supertypes. -/
theorem sameSupertypes_importedClass {vocab : Vocabulary} {name : String} (ty : NodeType) :
    SameSupertypes (importedClass vocab name ty) ty := fun _ => mem_importedClass

omit [SerdeJson] [RdfText] in
/-- A fresh property has no domain and no range. -/
theorem sameEnds_freshProperty {iri : Iri} {ty : EdgeType} :
    SameEnds (freshProperty iri) ty ↔ ty.domain = [] ∧ ty.range = [] := by
  simp [SameEnds, freshProperty, EdgeType.new, List.eq_nil_iff_forall_not_mem]

/-- A schema whose types keep their names comes back with its supertypes; domains and ranges
come back exactly when there are none. -/
theorem sameTBox_fromRdf_toRdf_iff (ho : o.OnlySchema) (hnames : o.schema.KeepsNames) :
    SameTBox (fromRdf (toRdf o)).schema o.schema ↔ o.schema.Unrestricted := by
  have himported := hnames.imported o.projectionVocabulary
  rw [ho.fromRdf_schema]
  constructor
  · intro hsame name ty hty
    have hrel := hsame.edgeTypes name
    rw [(himported name).2, hty, Option.map_some] at hrel
    cases hrel with
    | some hends => exact sameEnds_freshProperty.mp hends
  · intro hunrestricted
    refine ⟨fun name => ?_, fun name => ?_⟩
    · rw [(himported name).1]
      cases o.schema.nodeTypes[name]? with
      | none => exact .none
      | some ty => exact .some (sameSupertypes_importedClass ty)
    · rw [(himported name).2]
      cases hty : o.schema.edgeTypes[name]? with
      | none => exact .none
      | some ty => exact .some (sameEnds_freshProperty.mpr (hunrestricted name ty hty))

end RoundTrip

/-- `Person` is an `Agent`. -/
private def personSchema : Schema :=
  Schema.empty.declareNodeType { NodeType.new "Person" with supertypes := ["Agent"] }

/-- `knows` leads from persons. -/
private def knowsSchema : Schema :=
  Schema.empty.declareEdgeType { EdgeType.new "knows" with domain := ["Person"] }

private theorem plainName_person : PlainName "Person" ∧ PlainName "Agent" ∧ PlainName "knows" := by
  simp [PlainName, separatesName]

private theorem personSchema_keepsNames : personSchema.KeepsNames := by
  constructor
  · intro name ty hty
    rw [personSchema, Schema.declareNodeType, BTreeMap.get_insert] at hty
    split at hty
    · rename_i hname
      obtain rfl := Option.some.inj hty
      obtain rfl := hname
      refine ⟨⟨plainName_person.1, fun iri hiri => by cases hiri⟩, fun sup hsup => ?_⟩
      obtain rfl := List.mem_singleton.mp hsup
      exact plainName_person.2.1
    · simp [Schema.empty] at hty
  · intro name ty hty
    simp [personSchema, Schema.declareNodeType, Schema.empty] at hty

private theorem knowsSchema_keepsNames : knowsSchema.KeepsNames := by
  constructor
  · intro name ty hty
    simp [knowsSchema, Schema.declareEdgeType, Schema.empty] at hty
  · intro name ty hty
    rw [knowsSchema, Schema.declareEdgeType, BTreeMap.get_insert] at hty
    split at hty
    · rename_i hname
      obtain rfl := Option.some.inj hty
      obtain rfl := hname
      exact ⟨plainName_person.2.2, fun iri hiri => by cases hiri⟩
    · simp [Schema.empty] at hty

private theorem onlySchema (schema : Schema) :
    Ontology.OnlySchema { Ontology.empty with schema := schema } := ⟨rfl, rfl, rfl⟩

/-- `Person` comes back as an `Agent`. -/
theorem personSchema_sameTBox : SameTBox (fromRdf (@toRdf .plain .plain
    { Ontology.empty with schema := personSchema })).schema personSchema := by
  let _ := SerdeJson.plain
  let _ := RdfText.plain
  refine (sameTBox_fromRdf_toRdf_iff (onlySchema personSchema) personSchema_keepsNames).mpr ?_
  intro name ty hty
  simp [personSchema, Schema.declareNodeType, Schema.empty] at hty

/-- `knows` comes back from anywhere. -/
theorem knowsSchema_not_sameTBox : knowsSchema.KeepsNames ∧ ¬SameTBox (fromRdf (@toRdf .plain .plain
    { Ontology.empty with schema := knowsSchema })).schema knowsSchema := by
  let _ := SerdeJson.plain
  let _ := RdfText.plain
  refine ⟨knowsSchema_keepsNames, fun hsame => ?_⟩
  have hrel := hsame.edgeTypes "knows"
  have hget :
    knowsSchema.edgeTypes["knows"]? = some { EdgeType.new "knows" with domain := ["Person"] } := by
    rw [knowsSchema, Schema.declareEdgeType, BTreeMap.get_insert]
    exact if_pos rfl
  rw [(onlySchema knowsSchema).fromRdf_schema, (knowsSchema_keepsNames.imported _ "knows").2, hget,
    Option.map_some] at hrel
  cases hrel with
  | some hends => exact absurd (sameEnds_freshProperty.mp hends).1 (List.cons_ne_nil _ _)

end AtomrOntology
