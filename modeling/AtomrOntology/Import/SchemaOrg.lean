import AtomrOntology.Import.Nodes
import AtomrOntology.Rdf.Shorthand

/-!
# Importing schema.org documents

The documents are JSON-LD. A type written as `@type` becomes a triple with the class for a
predicate, which the importer takes for a type, and a text alone becomes no triple. Of documents
with shorthand only those are imported like the long ones whose types are `rdf:type`, which is no
class.
-/

namespace AtomrOntology

namespace SchemaOrg

/-- The mapping of the schema.org importer. -/
def mapping : Mapping where
  classes :=
    [⟨"https://schema.org/Organization", "Organization"⟩,
      ⟨"https://schema.org/Person", "Person"⟩,
      ⟨"https://schema.org/WebSite", "WebSite"⟩,
      ⟨"https://schema.org/Place", "Place"⟩]
  dataProperties :=
    [(⟨"https://schema.org/name", "name", .string⟩, ["Organization", "Person", "WebSite", "Place"]),
      (⟨"https://schema.org/url", "url", .iri⟩, ["Organization", "Person", "WebSite", "Place"]),
      (⟨"https://schema.org/address", "address", .string⟩, ["Organization", "Person", "Place"])]
  objectProperties :=
    [(⟨"https://schema.org/memberOf", "memberOf"⟩, ["Person", "Organization"], ["Organization"]),
      (⟨"https://schema.org/worksFor", "worksFor"⟩, ["Person"], ["Organization"])]
  defaultObjectClass := some "Organization"

/-- What `import_schema_org` makes of a document. -/
def importSchemaOrg [SerdeJson] [Blake3] (doc : Json) : Ontology :=
  mapping.imported (JsonLd.parse doc)

end SchemaOrg

namespace Mapping

variable {m : Mapping}

theorem typeStep_typeType (hclasses : ∀ c ∈ m.classes, c.iri ≠ rdfType.value) {t : Triple}
    (h : JsonLd.isTypeType t = true) (types : SubjectTypes) : m.typeStep types t = types := by
  obtain ⟨subject, predicate, object⟩ := t
  obtain ⟨rfl, rfl⟩ := of_decide_eq_true h
  have hnone : m.classes.find? (·.iri == rdfType.value) = none :=
    List.find?_eq_none.mpr fun c hc => by simpa using hclasses c hc
  cases subject with
  | iri subj => simp [typeStep, hnone]
  | blank label => rfl

variable [Blake3]

theorem projectStep_typeType {t : Triple} (h : JsonLd.isTypeType t = true) (types : SubjectTypes)
    (o : Ontology) : m.projectStep types o t = o :=
  if_pos (of_decide_eq_true h).1

/-- Where `rdf:type` is no class, what is of that type is imported like everything else. -/
theorem imported_others (hclasses : ∀ c ∈ m.classes, c.iri ≠ rdfType.value)
    (triples : List Triple) : m.imported (JsonLd.others triples) = m.imported triples := by
  have hskip : ∀ {σ : Type} (f : σ → Triple → σ) (s : σ),
      (∀ s t, JsonLd.isTypeType t = true → f s t = s) →
      (JsonLd.others triples).foldl f s = triples.foldl f s := by
    intro σ f s hf
    rw [JsonLd.others, List.foldl_filter]
    refine congrArg (fun g => triples.foldl g s) ?_
    funext s t
    cases ht : JsonLd.isTypeType t with
    | true => simp [hf s t ht]
    | false => simp
  have htypes : m.subjectTypes (JsonLd.others triples) = m.subjectTypes triples :=
    hskip m.typeStep ∅ fun types t ht => typeStep_typeType hclasses ht types
  simp only [imported, project, htypes]
  exact hskip _ _ fun o t ht => projectStep_typeType ht _ o

end Mapping

namespace SchemaOrg

open JsonLd

section

variable [SerdeJson] [Blake3]

/-- Shorthand leaves the triples of a document and what is imported of it as they are, exactly if
all that is written shorter is the type `rdf:type`. -/
theorem shorthand_means_same_iff {doc doc' : Json} {marks : List (Subject × Shorthand)}
    (h : Abridges doc doc' marks) :
    ((parse doc).Perm (parse doc') ∧ importSchemaOrg doc = importSchemaOrg doc') ↔
      ∀ m ∈ marks, m.2.Kept (context doc) := by
  constructor
  · exact fun hsame => (parse_perm_iff_kept h).mp hsame.1
  · intro hkept
    refine ⟨(parse_perm_iff_kept h).mpr hkept, ?_⟩
    have hclasses : ∀ c ∈ mapping.classes, c.iri ≠ rdfType.value := by decide
    rw [importSchemaOrg, importSchemaOrg, ← Mapping.imported_others hclasses (parse doc),
      ← Mapping.imported_others hclasses (parse doc'), others_parse_eq h hkept]

end

/-- A document with one node object. -/
private def alice (entries : List (String × Json)) : Json :=
  .obj [("@context", .obj [("schema", .str "https://schema.org/")]),
    ("@graph", .arr [.obj (("@id", .str "https://example.org/Alice") :: entries)])]

private def typedAs (name : String) : String × Json :=
  (rdfType.value, .arr [.obj [("@id", .str name)]])

private theorem abridges_type (name : String) {entries entries' : List (String × Json)}
    {marks : List Shorthand}
    (h : AbridgesEntries (context (alice (typedAs name :: entries))) entries entries' marks [])
    (hmarks : marks.filterMap Shorthand.typeName = []) :
    Abridges (alice (typedAs name :: entries)) (alice (("@type", .str name) :: entries'))
      ((.type name :: marks).map (subjectFromId "https://example.org/Alice", ·)) := by
  have hkey : ∀ vocab, expandIri rdfType.value vocab = rdfType := fun vocab =>
    expandIri_of_http (by decide) vocab
  have hitems : AbridgesItems (context (alice (typedAs name :: entries))) (typedAs name).1
      (flatten (typedAs name).2) [] [.type name] := .type name (hkey _) .nil
  have hid : (typedAs name).1 ≠ "@id" := show rdfType.value ≠ "@id" by decide
  have htype : (typedAs name).1 ≠ "@type" := show rdfType.value ≠ "@type" by decide
  have hmoved : AbridgesEntries (context (alice (typedAs name :: entries)))
      (typedAs name :: entries) entries' (.type name :: marks) [] := .emptied hid htype hitems h
  have hadds : AddsTypes [] (flatten (.str name)) [name] := .add name .nil
  have hentries := AbridgesEntries.id (.str "https://example.org/Alice") (hmoved.newType hadds)
  have hnode := AbridgesNode.object hentries
    (List.Perm.of_eq (by simp [Shorthand.typeName, hmarks]))
  have hgraph : ∀ entries : List (String × Json), graph (alice entries) =
      [.obj (("@id", .str "https://example.org/Alice") :: entries)] := fun _ => rfl
  refine ⟨rfl, ?_⟩
  rw [hgraph, hgraph]
  simpa [nodeId, Json.asObject] using AbridgesGraph.cons hnode .nil

/-- The type `rdf:type` may be written as `@type`. -/
theorem typeType_means_same : let _ := SerdeJson.plain; let _ := Blake3.beginning
    (parse (alice [typedAs rdfType.value])).Perm (parse (alice [("@type", .str rdfType.value)])) ∧
      importSchemaOrg (alice [typedAs rdfType.value]) =
        importSchemaOrg (alice [("@type", .str rdfType.value)]) := by
  intro _ _
  refine (shorthand_means_same_iff (abridges_type rdfType.value .nil rfl)).mpr ?_
  intro m hm
  obtain rfl := List.mem_singleton.mp hm
  exact ⟨rdfType.value, rfl, by decide, by decide +kernel⟩

/-- A person with a name loses the type triple and the name. -/
theorem alice_loses_name : let _ := SerdeJson.plain; let _ := Blake3.beginning
    let long := alice [typedAs "schema:Person",
      ("schema:name", .arr [.obj [("@value", .str "Alice")]])]
    let short := alice [("@type", .str "schema:Person"), ("schema:name", .str "Alice")]
    (∃ marks, Abridges long short marks) ∧ ¬(parse long).Perm (parse short) ∧
      importSchemaOrg long ≠ importSchemaOrg short := by
  intro _ _ long short
  refine ⟨⟨_, abridges_type "schema:Person" (.predicate (by decide) (by decide)
    (.text "Alice" .nil) .nil) rfl⟩, by decide +kernel, fun h => ?_⟩
  have hnames := congrArg (fun o : Ontology =>
    o.nodes[address "https://example.org/Alice"]?.map fun n : Node => n.properties.size) h
  revert hnames
  decide +kernel

end SchemaOrg

end AtomrOntology
