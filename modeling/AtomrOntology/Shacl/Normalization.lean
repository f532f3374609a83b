import AtomrOntology.Shacl.Survival

/-!
# Is normalizing a schema idempotent?

A schema that was read from shapes is in a normal form: names are local names of IRIs, and
there are no edge types. A schema in normal form comes back from its own document, provided
that the IRIs in it read back.
-/

namespace AtomrOntology

/-- Two maps with the same values under the same keys. -/
theorem BTreeMap.KeyedBy.eq_of_vals {κ ν : Type} [Ord κ] [Std.TransOrd κ] [Std.LawfulEqOrd κ]
    {key : ν → κ} {m m' : BTreeMap κ ν} (h : m.KeyedBy key) (h' : m'.KeyedBy key)
    (hvals : ∀ v, v ∈ m.vals ↔ v ∈ m'.vals) : m = m' := by
  have hget : ∀ {a b : BTreeMap κ ν}, a.KeyedBy key → b.KeyedBy key →
      (∀ v, v ∈ a.vals → v ∈ b.vals) → ∀ (k : κ) (v : ν), a[k]? = some v → b[k]? = some v := by
    intro a b ha hb hsub k v hav
    obtain ⟨k', hbv⟩ := BTreeMap.mem_vals.mp (hsub v (BTreeMap.mem_vals.mpr ⟨k, hav⟩))
    rwa [← ha k v hav, hb k' v hbv]
  apply Std.ExtTreeMap.ext_getElem?
  intro k
  apply Option.ext
  intro v
  exact ⟨hget h h' (fun v => (hvals v).mp) k v, hget h' h (fun v => (hvals v).mpr) k v⟩

namespace Shacl

/-- A schema through its document. -/
def normalize (schema : Schema) : Except ShaclParseError Schema :=
  fromShaclTurtle (toShaclTurtle schema)

/-- Normalizing succeeds, and does nothing the second time. -/
def Normalizes (schema : Schema) : Prop :=
  ∃ read, normalize schema = .ok read ∧ normalize read = .ok read

/-- A node type as it is read from a shape. -/
structure NormalType (ty : NodeType) : Prop where
  faithful : FaithfulType ty
  same : projected ty = ty

/-- A schema as it is read from a document. -/
structure NormalSchema (schema : Schema) : Prop where
  types : ∀ ty ∈ schema.nodeTypes.vals, NormalType ty
  keyed : schema.nodeTypes.KeyedBy NodeType.name
  edges : schema.edgeTypes = ∅

theorem asIri?_eq_some {object : Object} {i : Iri} : asIri? object = some i ↔ object = .iri i := by
  cases object <;> simp [asIri?]

theorem datatypeFromXsd_ne_json (iri : Iri) : datatypeFromXsd iri ≠ .json := by
  unfold datatypeFromXsd
  dsimp only
  repeat' split
  all_goals exact Datatype.noConfusion

/-- What a block reader has found among triples. -/
structure PropertyBlock.FoundIn (b : PropertyBlock) (triples : List Triple) : Prop where
  path : ∀ i, b.path = some i → ∃ t ∈ triples, t.predicate = shaclIri "path" ∧ t.object = .iri i
  datatype : b.datatype ≠ some .json

theorem PropertyBlock.FoundIn.scan {b : PropertyBlock} {triples : List Triple} {t : Triple}
    (h : b.FoundIn triples) (ht : t ∈ triples) : (b.scan t.predicate t.object).FoundIn triples := by
  unfold PropertyBlock.scan
  split
  · next hpath =>
    refine ⟨?_, h.datatype⟩
    intro i hi
    obtain hi | ⟨-, hi⟩ := Option.or_eq_some_iff.mp hi
    · exact ⟨t, ht, hpath, asIri?_eq_some.mp hi⟩
    · exact h.path i hi
  · split
    · exact ⟨h.path, h.datatype⟩
    · split
      · exact ⟨h.path, h.datatype⟩
      · split
        · refine ⟨h.path, ?_⟩
          intro hjson
          obtain hjson | ⟨-, hjson⟩ := Option.or_eq_some_iff.mp hjson
          · obtain ⟨i, -, hi⟩ := Option.map_eq_some_iff.mp hjson
            exact datatypeFromXsd_ne_json i hi
          · exact h.datatype hjson
        · exact h

theorem PropertyBlock.FoundIn.scans {b : PropertyBlock} {all triples : List Triple}
    (h : b.FoundIn all) (hsub : triples ⊆ all) :
    (triples.foldl (fun b t => b.scan t.predicate t.object) b).FoundIn all := by
  induction triples generalizing b with
  | nil => exact h
  | cons t triples ih =>
    rw [List.cons_subset] at hsub
    exact ih (h.scan hsub.1) hsub.2

/-- A property that is read is named after its path. -/
theorem parsePropertyBlock_cases {triples : List Triple} {prop : PropertyType}
    (h : parsePropertyBlock triples = some prop) :
    FaithfulProperty prop ∧ prop.description = none ∧
      ∃ t ∈ triples, t.predicate = shaclIri "path" ∧ t.object = .iri (propertyPathIri prop) := by
  have hempty : PropertyBlock.empty.FoundIn triples :=
    ⟨fun i hi => (by cases hi), nofun⟩
  have hfound := hempty.scans (List.Subset.refl triples)
  unfold parsePropertyBlock at h
  dsimp only at h
  split at h
  · next path datatype hpath hdatatype =>
    cases h
    refine ⟨⟨⟨path, rfl, rfl⟩, ?_⟩, rfl, hfound.path path hpath⟩
    intro hjson
    exact hfound.datatype (hjson ▸ hdatatype)
  · cases h

variable {index : BTreeMap SubjectKey (List Triple)} {triples : List Triple}

/-- A node type that is read is named after its target. -/
theorem shapeType_cases {ty : NodeType} (h : shapeType index triples = .ok ty) :
    NormalType ty ∧
      (∃ t ∈ triples, t.predicate = shaclIri "targetClass" ∧ t.object = .iri (typeIri ty)) ∧
      ∀ prop ∈ ty.properties, ∃ (key : SubjectKey) (block : List Triple),
        index[key]? = some block ∧ ∃ t ∈ block, t.object = .iri (propertyPathIri prop) := by
  unfold shapeType at h
  split at h
  · cases h
  · next target htarget =>
    cases h
    have hproperty : ∀ prop ∈ (triples.filter (·.predicate = shaclIri "property")).filterMap
        (fun t => (blockKey t.object).bind fun key => index[key]?.bind parsePropertyBlock),
        ∃ (key : SubjectKey) (block : List Triple), index[key]? = some block ∧
          parsePropertyBlock block = some prop := by
      intro prop hprop
      obtain ⟨t, -, ht⟩ := List.mem_filterMap.mp hprop
      obtain ⟨key, -, hkey⟩ := Option.bind_eq_some_iff.mp ht
      obtain ⟨block, hblock, hread⟩ := Option.bind_eq_some_iff.mp hkey
      exact ⟨key, block, hblock, hread⟩
    refine ⟨⟨⟨⟨target, rfl, rfl⟩, ?_⟩, ?_⟩, ?_, ?_⟩
    · intro prop hprop
      obtain ⟨key, block, -, hread⟩ := hproperty prop hprop
      exact (parsePropertyBlock_cases hread).1
    · unfold projected
      dsimp only
      congr 1
      conv_rhs => rw [← List.map_id (List.filterMap _ _)]
      apply List.map_congr_left
      intro prop hprop
      obtain ⟨key, block, -, hread⟩ := hproperty prop hprop
      have hdescription := (parsePropertyBlock_cases hread).2.1
      cases prop
      cases hdescription
      rfl
    · obtain ⟨t, ht, hfound⟩ := List.exists_of_findSome?_eq_some htarget
      split at hfound
      · next hpredicate => exact ⟨t, ht, hpredicate, asIri?_eq_some.mp hfound⟩
      · cases hfound
    · intro prop hprop
      obtain ⟨key, block, hblock, hread⟩ := hproperty prop hprop
      obtain ⟨-, -, t, ht, -, hobject⟩ := parsePropertyBlock_cases hread
      exact ⟨key, block, hblock, t, ht, hobject⟩

/-- What each shape adds to a schema. -/
theorem declareShapes_induction {P : Schema → Prop}
    (hstep : ∀ (schema : Schema) (k : SubjectKey) (triples : List Triple) (ty : NodeType),
      index[k]? = some triples → shapeType index triples = .ok ty →
        P schema → P (schema.declareNodeType ty))
    {shapes : List SubjectKey} {schema read : Schema} (h : P schema)
    (hread : declareShapes index schema shapes = .ok read) : P read := by
  induction shapes generalizing schema with
  | nil =>
    cases hread
    exact h
  | cons k shapes ih =>
    unfold declareShapes at hread
    split at hread
    · exact ih h hread
    · next triples hget =>
      obtain ⟨ty, hty, hrest⟩ := bind_eq_ok.mp hread
      exact ih (hstep schema k triples ty hget hty h) hrest

theorem forall_mem_declareNodeType {schema : Schema} {ty : NodeType} {P : NodeType → Prop}
    (h : ∀ ty ∈ schema.nodeTypes.vals, P ty) (hty : P ty) :
    ∀ ty' ∈ (schema.declareNodeType ty).nodeTypes.vals, P ty' := by
  intro ty' hmem
  obtain ⟨k, hget⟩ := BTreeMap.mem_vals.mp hmem
  rw [Schema.declareNodeType, BTreeMap.get_insert] at hget
  split at hget
  · cases hget
    exact hty
  · exact h ty' (BTreeMap.mem_vals.mpr ⟨k, hget⟩)

/-- Whatever is read is in normal form. -/
theorem normalSchema_of_buildSchema {read : Schema} (h : buildSchema triples = .ok read) :
    NormalSchema read := by
  refine declareShapes_induction ?_ ?_ h
  · intro schema k triples ty _ hty hschema
    exact ⟨forall_mem_declareNodeType hschema.types (shapeType_cases hty).1,
      hschema.keyed.insert ty, hschema.edges⟩
  · refine ⟨?_, BTreeMap.KeyedBy.empty _, rfl⟩
    intro ty hty
    rw [Schema.empty, BTreeMap.vals_empty] at hty
    cases hty

/-- Everything that is printed of a schema reads back. -/
def PrintsBack (schema : Schema) : Prop :=
  ∀ ty ∈ schema.nodeTypes.vals, Readable (typeIri ty) ∧ ∀ b ∈ blocksOf schema ty, b.Prints schema

theorem isSimpleLocal_iff {loc : List Char} : isSimpleLocal loc = true ↔
    loc ≠ [] ∧ ∀ c ∈ loc, c ≠ ' ' ∧ c ≠ '/' ∧ c ≠ '#' ∧ c ≠ '<' ∧ c ≠ '>' := by
  simp [isSimpleLocal, and_assoc]

/-- The shape of a type is written after a prefix like the type, or like its namespace. -/
theorem simpleLocal_shapeIriFor {uri : String} (hlast : uri.toList.getLast? = some '#')
    {ty : NodeType} {loc : List Char} : simpleLocal uri (shapeIriFor ty) = some loc ↔
      ∃ l, loc = l ++ "Shape".toList ∧
        (simpleLocal uri (typeIri ty) = some l ∨ l = [] ∧ typeIri ty = ⟨uri⟩) := by
  have hvalue : ∀ l : List Char, typeIri ty = ⟨uri ++ .ofList l⟩ ↔
      shapeIriFor ty = ⟨uri ++ .ofList (l ++ "Shape".toList)⟩ := by
    intro l
    cases htype : typeIri ty with
    | mk value =>
      rw [shapeIriFor, htype, Iri.mk.injEq, Iri.mk.injEq, String.ofList_append,
        String.ofList_toList, ← String.append_assoc, String.append_left_inj]
  have hsuffix : ∀ c ∈ "Shape".toList, c ≠ ' ' ∧ c ≠ '/' ∧ c ≠ '#' ∧ c ≠ '<' ∧ c ≠ '>' := by
    simp
  rw [simpleLocal_eq_some]
  constructor
  · rintro ⟨hshape, hsimple⟩
    have hpre : uri.toList <+: (typeIri ty).value.toList := by
      by_contra hnot
      refine @not_prefix_append _ _ "Shape".toList hlast (by simp) hnot ?_
      have htext := congrArg (String.toList ∘ Iri.value) hshape
      rw [Function.comp_apply, Function.comp_apply, shapeIriFor, String.toList_append] at htext
      rw [htext, String.toList_append]
      exact List.prefix_append _ _
    obtain ⟨l, hl⟩ := hpre
    have htype : typeIri ty = ⟨uri ++ .ofList l⟩ := by
      cases hty : typeIri ty with
      | mk value =>
        rw [hty] at hl
        rw [Iri.mk.injEq, ← String.toList_inj, String.toList_append, String.toList_ofList, hl]
    have hloc : loc = l ++ "Shape".toList := by
      have hboth := hshape.symm.trans ((hvalue l).mp htype)
      exact String.ofList_injective (String.append_right_inj uri |>.mp (Iri.mk.inj hboth))
    refine ⟨l, hloc, ?_⟩
    rw [simpleLocal_eq_some]
    cases l with
    | nil =>
      refine Or.inr ⟨rfl, ?_⟩
      rw [htype, String.ofList_nil, String.append_empty]
    | cons c l =>
      refine Or.inl ⟨htype, isSimpleLocal_iff.mpr ⟨List.cons_ne_nil c l, ?_⟩⟩
      intro d hd
      rw [hloc] at hsimple
      exact (isSimpleLocal_iff.mp hsimple).2 d (List.mem_append_left _ hd)
  · rintro ⟨l, rfl, hl⟩
    rw [isSimpleLocal_iff]
    refine ⟨?_, by simp, ?_⟩
    · refine (hvalue l).mp ?_
      obtain hl | ⟨rfl, htype⟩ := hl
      · exact (simpleLocal_eq_some.mp hl).1
      · rw [htype, String.ofList_nil, String.append_empty]
    · intro c hc
      obtain hc | hc := List.mem_append.mp hc
      · obtain hl | ⟨rfl, -⟩ := hl
        · exact (isSimpleLocal_iff.mp (simpleLocal_eq_some.mp hl).2).2 c hc
        · cases hc
      · exact hsuffix c hc

/-- The IRI of a shape reads back if the IRI of its type does. -/
theorem readable_shapeIriFor_iff {ty : NodeType} :
    Readable (shapeIriFor ty) ↔ Readable (typeIri ty) := by
  have hsuffix : ∀ c ∈ "Shape".toList, Turtle.endsToken c = false := by
    simp [Turtle.endsToken, isWhitespace]
  have hclose : '>' ∈ (shapeIriFor ty).value.toList ↔ '>' ∈ (typeIri ty).value.toList := by
    rw [shapeIriFor, String.toList_append, List.mem_append]
    simp
  -- a namespace has no `>` in it
  have hspace : ∀ {uri : String}, '>' ∉ uri.toList → typeIri ty = ⟨uri⟩ →
      '>' ∉ (typeIri ty).value.toList := by
    intro uri huri htype
    rwa [htype]
  have hsh := @simpleLocal_shapeIriFor shUri (by simp [shUri]) ty
  have hxsd := @simpleLocal_shapeIriFor xsdUri (by simp [xsdUri]) ty
  unfold Readable
  cases htsh : simpleLocal shUri (typeIri ty) with
  | some l =>
    rw [hsh.mpr ⟨l, rfl, Or.inl htsh⟩]
    dsimp only
    rw [List.forall_mem_append]
    exact and_iff_left hsuffix
  | none =>
    cases hssh : simpleLocal shUri (shapeIriFor ty) with
    | some loc =>
      obtain ⟨l, rfl, hl | ⟨rfl, htype⟩⟩ := hsh.mp hssh
      · rw [htsh] at hl
        cases hl
      · have htxsd : simpleLocal xsdUri (typeIri ty) = none := by
          rw [htype]
          simp [simpleLocal, stripPrefix, shUri, xsdUri]
        rw [htxsd]
        exact iff_of_true hsuffix (hspace (by simp [shUri]) htype)
    | none =>
      dsimp only
      cases htxsd : simpleLocal xsdUri (typeIri ty) with
      | some l =>
        rw [hxsd.mpr ⟨l, rfl, Or.inl htxsd⟩]
        dsimp only
        rw [List.forall_mem_append]
        exact and_iff_left hsuffix
      | none =>
        cases hsxsd : simpleLocal xsdUri (shapeIriFor ty) with
        | some loc =>
          obtain ⟨l, rfl, hl | ⟨rfl, htype⟩⟩ := hxsd.mp hsxsd
          · rw [htxsd] at hl
            cases hl
          · exact iff_of_true hsuffix (hspace (by simp [xsdUri]) htype)
        | none => exact not_congr hclose

theorem PrintsBack.parse {schema : Schema} (h : PrintsBack schema) :
    Turtle.parse (toShaclTurtle schema).toList =
      .ok ((statements schema 0 schema.nodeTypes.vals).flatMap Statement.triples) :=
  parse_toShaclTurtle schema fun ty hty =>
    ⟨readable_shapeIriFor_iff.mpr (h ty hty).1, (h ty hty).1, (h ty hty).2⟩

/-- A schema in normal form comes back as it is. -/
theorem NormalSchema.normalize_eq {schema : Schema} (h : NormalSchema schema)
    (hprints : PrintsBack schema) : normalize schema = .ok schema := by
  have hnames : (schema.nodeTypes.vals.map NodeType.name).Nodup := by
    rw [h.keyed.map_key_vals]
    exact Std.ExtTreeMap.nodup_keys
  obtain ⟨read, hread, hkeyed, hmem⟩ := buildSchema_statements schema
    (fun ty hty => (h.types ty hty).faithful) hnames
  have hnormal := normalSchema_of_buildSchema hread
  have htypes : read.nodeTypes = schema.nodeTypes := by
    refine hkeyed.eq_of_vals h.keyed fun ty => ?_
    rw [hmem]
    constructor
    · rintro ⟨ty', hty', rfl⟩
      rwa [(h.types ty' hty').same]
    · intro hty
      exact ⟨ty, hty, (h.types ty hty).same.symm⟩
  have hsame : read = schema := by
    cases read
    cases schema
    cases htypes
    cases hnormal.edges
    cases h.edges
    rfl
  rw [normalize, fromShaclTurtle, hprints.parse, ← hsame]
  rw [← hsame] at hread
  exact hread

theorem forall_mem_statements {schema : Schema} {P : Statement → Prop} {types : List NodeType}
    (hshape : ∀ ty ∈ types, ∀ labels, P (shapeStatement ty labels))
    (hblock : ∀ ty ∈ types, ∀ b ∈ blocksOf schema ty, ∀ n, P (blockStatement schema n b))
    (counter : Nat) : ∀ s ∈ statements schema counter types, P s := by
  induction types generalizing counter with
  | nil => exact fun s hs => (by cases hs)
  | cons ty types ih =>
    intro s hs
    rw [statements] at hs
    rcases List.mem_cons.mp hs with rfl | hs
    · exact hshape ty List.mem_cons_self _
    · rcases List.mem_append.mp hs with hs | hs
      · obtain ⟨b, hb, rfl⟩ := List.mem_map.mp hs
        exact hblock ty List.mem_cons_self b.1 (List.fst_mem_of_mem_zipIdx hb) b.2
      · exact ih (fun ty hty => hshape ty (List.mem_cons_of_mem _ hty))
          (fun ty hty => hblock ty (List.mem_cons_of_mem _ hty)) _ s hs

/-- Every IRI that a document points to reads back. -/
theorem PrintsBack.readable_object {schema : Schema} (h : PrintsBack schema) {t : Triple}
    (ht : t ∈ (statements schema 0 schema.nodeTypes.vals).flatMap Statement.triples) {i : Iri}
    (hi : t.object = .iri i) : Readable i := by
  obtain ⟨s, hs, ht⟩ := List.mem_flatMap.mp ht
  obtain ⟨c, hc, rfl⟩ := List.mem_map.mp ht
  have hbounds : ∀ bounds : Cardinality, c ∈ cardinalityClauses bounds → Readable i := by
    intro bounds hc
    obtain ⟨n, hn⟩ : ∃ n, c.2 = integerLiteral n := by
      rcases List.mem_append.mp hc with hc | hc
      · split at hc
        · exact ⟨_, by rw [List.mem_singleton.mp hc]⟩
        · cases hc
      · cases hmax : bounds.max with
        | none =>
          rw [hmax] at hc
          cases hc
        | some max =>
          rw [hmax] at hc
          exact ⟨max, by rw [List.mem_singleton.mp hc]⟩
    exact absurd (hn.symm.trans hi) nofun
  revert hc
  refine forall_mem_statements (P := fun s => c ∈ s.clauses → Readable i) ?_ ?_ 0 s hs
  · intro ty hty labels hc
    rcases List.mem_cons.mp hc with rfl | hc
    · cases hi
      exact readable_terms _ (by simp)
    · rcases List.mem_cons.mp hc with rfl | hc
      · cases hi
        exact (h ty hty).1
      · obtain ⟨n, -, rfl⟩ := List.mem_map.mp hc
        cases hi
  · intro ty hty b hb n hc
    have hb := (h ty hty).2 b hb
    cases b with
    | property prop =>
      rcases List.mem_cons.mp hc with rfl | hc
      · cases hi
        exact hb
      · rcases List.mem_append.mp hc with hc | hc
        · exact hbounds _ hc
        · rw [List.mem_singleton.mp hc] at hi
          cases hi
          exact readable_xsdForDatatype _
    | edge edge =>
      rcases List.mem_cons.mp hc with rfl | hc
      · cases hi
        exact hb.1
      · rcases List.mem_append.mp hc with hc | hc
        · exact hbounds _ hc
        · rcases List.mem_cons.mp hc with rfl | hc
          · cases hi
            exact readable_terms _ (by simp)
          · obtain ⟨target, htarget, rfl⟩ := List.mem_map.mp hc
            cases hi
            exact hb.2 target htarget

/-- What is in the index is in the document. -/
theorem mem_of_get_bySubject {k : SubjectKey} {block : List Triple}
    (h : (bySubject triples)[k]? = some block) {t : Triple} : t ∈ block ↔
      t ∈ triples ∧ subjectKey t.subject = k := by
  rw [get_bySubject] at h
  split at h
  · cases h
  · cases h
    rw [List.mem_filter, decide_eq_true_eq]

/-- A shape with a target gives a node type. -/
theorem shapeType_ok {t : Triple} (ht : t ∈ triples)
    (hpredicate : t.predicate = shaclIri "targetClass") {i : Iri} (hobject : t.object = .iri i) :
    ∃ ty, shapeType index triples = .ok ty := by
  unfold shapeType
  split
  · next hnone =>
    have hfound := List.findSome?_eq_none_iff.mp hnone t ht
    rw [if_pos hpredicate, hobject] at hfound
    cases hfound
  · exact ⟨_, rfl⟩

/-- Every shape of a document has a target. -/
theorem buildSchema_statements_ok (schema : Schema) :
    ∃ read, buildSchema ((statements schema 0 schema.nodeTypes.vals).flatMap Statement.triples) =
      .ok read := by
  generalize hall : (statements schema 0 schema.nodeTypes.vals).flatMap Statement.triples = all
  have hshapes : ∀ k ∈ (shapeSubjects all).toList, ∃ triples ty,
      (bySubject all)[k]? = some triples ∧ shapeType (bySubject all) triples = .ok ty ∧ True := by
    intro k hk
    rw [← hall] at hk
    obtain ⟨ty, hty, rfl⟩ := mem_shapeSubjects_statements.mp (Std.ExtTreeSet.mem_toList.mp hk)
    obtain ⟨start, hshape, -⟩ := shapeStatement_mem_statements schema hty 0
    have htarget : ⟨.iri (shapeIriFor ty), shaclIri "targetClass", .iri (typeIri ty)⟩ ∈ all := by
      rw [← hall]
      refine List.mem_flatMap.mpr ⟨_, hshape, ?_⟩
      rw [triples_shapeStatement]
      exact List.mem_cons_of_mem _ List.mem_cons_self
    cases hget : (bySubject all)[subjectKey (.iri (shapeIriFor ty))]? with
    | none =>
      rw [get_bySubject] at hget
      split at hget
      · next hnil =>
        rw [List.filter_eq_nil_iff] at hnil
        exact absurd (decide_eq_true rfl) (hnil _ htarget)
      · cases hget
    | some block =>
      obtain ⟨ty', hty'⟩ := @shapeType_ok (bySubject all) _ _
        ((mem_of_get_bySubject hget).mpr ⟨htarget, rfl⟩) rfl _ rfl
      exact ⟨block, ty', rfl, hty', trivial⟩
  obtain ⟨types, hread, -⟩ := declareShapes_eq hshapes .empty
  exact ⟨_, hread⟩

/-- The IRIs of what is read are IRIs of the document. -/
theorem PrintsBack.of_buildSchema {schema read : Schema} (h : PrintsBack schema)
    (hread : buildSchema ((statements schema 0 schema.nodeTypes.vals).flatMap Statement.triples) =
      .ok read) : PrintsBack read := by
  have hiris : ∀ ty ∈ read.nodeTypes.vals, Readable (typeIri ty) ∧
      ∀ prop ∈ ty.properties, Readable (propertyPathIri prop) := by
    refine declareShapes_induction (P := fun schema => ∀ ty ∈ schema.nodeTypes.vals,
      Readable (typeIri ty) ∧ ∀ prop ∈ ty.properties, Readable (propertyPathIri prop)) ?_ ?_ hread
    · intro schema' k triples ty hget hty hschema
      refine forall_mem_declareNodeType hschema ?_
      obtain ⟨-, ⟨t, ht, -, hobject⟩, hproperties⟩ := shapeType_cases hty
      refine ⟨h.readable_object ((mem_of_get_bySubject hget).mp ht).1 hobject, ?_⟩
      intro prop hprop
      obtain ⟨key, block, hblock, t, ht, hobject⟩ := hproperties prop hprop
      exact h.readable_object ((mem_of_get_bySubject hblock).mp ht).1 hobject
    · intro ty hty
      rw [Schema.empty, BTreeMap.vals_empty] at hty
      cases hty
  intro ty hty
  refine ⟨(hiris ty hty).1, ?_⟩
  intro b hb
  rw [blocksOf, (normalSchema_of_buildSchema hread).edges, BTreeMap.vals_empty] at hb
  obtain ⟨prop, hprop, rfl⟩ := List.mem_map.mp ((List.append_nil _) ▸ hb)
  exact (hiris ty hty).2 prop hprop

/-- What is read of a document that reads back comes back as it is. -/
theorem PrintsBack.normalizes {schema : Schema} (h : PrintsBack schema) : Normalizes schema := by
  obtain ⟨read, hread⟩ := buildSchema_statements_ok schema
  refine ⟨read, ?_, (normalSchema_of_buildSchema hread).normalize_eq (h.of_buildSchema hread)⟩
  rw [normalize, fromShaclTurtle, h.parse]
  exact hread

end Shacl

end AtomrOntology
