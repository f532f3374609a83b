import AtomrOntology.Rdf.Adapter

/-!
# Does the order of triples matter?

A class declaration replaces what subclass triples have collected for the class, so the
schema depends on the order of its triples exactly when some class is declared and has a
superclass as well.
-/

namespace AtomrOntology

/-- `s rdf:type owl:Class`. -/
def DeclaresClass (t : Triple) (s : Iri) : Prop := t = ⟨.iri s, rdfType, .iri owlClass⟩

/-- `s rdf:type owl:ObjectProperty`. -/
def DeclaresProperty (t : Triple) (s : Iri) : Prop := t = ⟨.iri s, rdfType, .iri owlObjectProperty⟩

/-- `s rdfs:subClassOf sup`. -/
def StatesSubclass (t : Triple) (s sup : Iri) : Prop := t = ⟨.iri s, rdfsSubclass, .iri sup⟩

/-- The import of one more triple. -/
def importStep (schema : Schema) (t : Triple) : Schema :=
  match t.subject with
  | .iri subject => importTriple schema subject t.predicate t.object
  | .blank _ => schema

/-- The schema read from triples. -/
def importSchema (triples : List Triple) : Schema := triples.foldl importStep .empty

/-- A further triple is imported after the others. -/
@[simp] theorem importSchema_snoc (triples : List Triple) (t : Triple) :
    importSchema (triples ++ [t]) = importStep (importSchema triples) t := by
  simp [importSchema]

theorem fromRdf_schema (triples : List Triple) : (fromRdf triples).schema = importSchema triples :=
  rfl

/-- A class as it is first declared. -/
def freshClass (s : Iri) : NodeType := { NodeType.new (localName s) with iri := some s }

/-- A property as it is declared. -/
def freshProperty (s : Iri) : EdgeType := { EdgeType.new (localName s) with iri := some s }

/-- What a subclass triple makes of the class it is about. -/
def withSuper (ty : NodeType) (sup : String) : NodeType :=
  if ty.supertypes.any (· == sup) then ty else { ty with supertypes := ty.supertypes ++ [sup] }

/-- A further supertype is added. -/
theorem mem_withSuper {ty : NodeType} {sup x : String} :
    x ∈ (withSuper ty sup).supertypes ↔ x ∈ ty.supertypes ∨ x = sup := by
  unfold withSuper
  by_cases h : ty.supertypes.any (· == sup)
  · rw [if_pos h]
    have hmem : sup ∈ ty.supertypes := by simpa using h
    constructor
    · exact Or.inl
    · intro hx
      rcases hx with hx | rfl
      · exact hx
      · exact hmem
  · rw [if_neg h]
    simp

/-- The class that a subclass triple starts from. -/
def classOr (schema : Schema) (s : Iri) : NodeType :=
  schema.nodeTypes[localName s]?.getD (freshClass s)

/-- All a triple can do to the schema. -/
theorem importStep_cases (schema : Schema) (t : Triple) :
    (∃ s, DeclaresClass t s ∧ importStep schema t = schema.declareNodeType (freshClass s)) ∨
    (∃ s, DeclaresProperty t s ∧ importStep schema t = schema.declareEdgeType (freshProperty s)) ∨
    (∃ s sup, StatesSubclass t s sup ∧ importStep schema t =
      schema.declareNodeType (withSuper (classOr schema s) (localName sup))) ∨
    (importStep schema t = schema ∧ (∀ s, ¬DeclaresClass t s) ∧ (∀ s, ¬DeclaresProperty t s) ∧
      ∀ s sup, ¬StatesSubclass t s sup) := by
  obtain ⟨subject, predicate, object⟩ := t
  cases subject with
  | blank label => simp [importStep, DeclaresClass, DeclaresProperty, StatesSubclass]
  | iri s =>
    have hne : rdfType ≠ rdfsSubclass := by decide
    have hcls : owlObjectProperty ≠ owlClass := by decide
    by_cases htype : predicate = rdfType
    · subst htype
      cases object with
      | blank label =>
        simp [importStep, importTriple, DeclaresClass, DeclaresProperty, StatesSubclass]
      | literal lexical datatype language =>
        simp [importStep, importTriple, DeclaresClass, DeclaresProperty, StatesSubclass]
      | iri obj =>
        by_cases hclass : obj = owlClass
        · subst hclass
          exact Or.inl ⟨s, rfl, rfl⟩
        · by_cases hproperty : obj = owlObjectProperty
          · subst hproperty
            refine Or.inr (Or.inl ⟨s, rfl, ?_⟩)
            simp only [importStep, importTriple, if_true, if_neg hcls]
            rfl
          · right; right; right
            simp [importStep, importTriple, DeclaresClass, DeclaresProperty, StatesSubclass, hclass,
              hproperty, hne]
    · by_cases hsub : predicate = rdfsSubclass
      · subst hsub
        cases object with
        | blank label =>
          simp [importStep, importTriple, DeclaresClass, DeclaresProperty, StatesSubclass]
        | literal lexical datatype language =>
          simp [importStep, importTriple, DeclaresClass, DeclaresProperty, StatesSubclass]
        | iri sup =>
          refine Or.inr (Or.inr (Or.inl ⟨s, sup, rfl, ?_⟩))
          simp only [importStep, importTriple, if_neg htype, if_true]
          rfl
      · right; right; right
        simp [importStep, importTriple, DeclaresClass, DeclaresProperty, StatesSubclass,
          htype, hsub]

/-- An IRI is declared a class or stated to have a superclass. -/
def MentionsClass (triples : List Triple) (s : Iri) : Prop :=
  ∃ t ∈ triples, DeclaresClass t s ∨ ∃ sup, StatesSubclass t s sup

/-- The import found a superclass of the class. -/
def HasSuper (triples : List Triple) (s : Iri) (sup : String) : Prop :=
  ∃ t ∈ triples, ∃ i, StatesSubclass t s i ∧ localName i = sup

/-- Subject IRIs with one local name are one IRI. -/
def LocalNamesApart (triples : List Triple) : Prop :=
  ∀ t ∈ triples, ∀ u ∈ triples, ∀ s r, t.subject = .iri s → u.subject = .iri r →
    localName s = localName r → s = r

/-- No class is both declared and given a superclass. -/
def DeclaredOrSub (triples : List Triple) : Prop :=
  ∀ s sup, (∃ t ∈ triples, DeclaresClass t s) → ¬∃ t ∈ triples, StatesSubclass t s sup

/-- The schema holds what the triples say, in whatever order. -/
structure Imported (triples : List Triple) (schema : Schema) : Prop where
  sound : ∀ (name : String) (ty : NodeType), schema.nodeTypes[name]? = some ty →
    ∃ s, localName s = name ∧ MentionsClass triples s ∧ ty.name = name ∧ ty.iri = some s ∧
      ty.properties = [] ∧ ty.description = none ∧
      ∀ sup, sup ∈ ty.supertypes ↔ HasSuper triples s sup
  complete : ∀ s, MentionsClass triples s → ∃ ty, schema.nodeTypes[localName s]? = some ty
  edges : ∀ (name : String) (ty : EdgeType), schema.edgeTypes[name]? = some ty ↔
    ∃ s, localName s = name ∧ ty = freshProperty s ∧ ∃ t ∈ triples, DeclaresProperty t s

section Snoc

variable {triples : List Triple} {t : Triple}

/-- A further triple mentions its class. -/
theorem mentionsClass_snoc {s : Iri} : MentionsClass (triples ++ [t]) s ↔
    MentionsClass triples s ∨ DeclaresClass t s ∨ ∃ sup, StatesSubclass t s sup := by
  simp [MentionsClass, or_and_right, exists_or]

/-- A further triple gives its superclass. -/
theorem hasSuper_snoc {s : Iri} {sup : String} : HasSuper (triples ++ [t]) s sup ↔
    HasSuper triples s sup ∨ ∃ i, StatesSubclass t s i ∧ localName i = sup := by
  simp [HasSuper, or_and_right, exists_or]

/-- Fewer triples keep names apart. -/
theorem LocalNamesApart.of_snoc (h : LocalNamesApart (triples ++ [t])) : LocalNamesApart triples :=
  fun u hu v hv => h u (List.mem_append_left _ hu) v (List.mem_append_left _ hv)

/-- Fewer triples declare and derive no class. -/
theorem DeclaredOrSub.of_snoc (h : DeclaredOrSub (triples ++ [t])) : DeclaredOrSub triples := by
  intro s sup hdeclared hsub
  obtain ⟨u, hu, hus⟩ := hdeclared
  obtain ⟨v, hv, hvs⟩ := hsub
  exact h s sup ⟨u, List.mem_append_left _ hu, hus⟩ ⟨v, List.mem_append_left _ hv, hvs⟩

/-- Classes of one local name are one class. -/
theorem LocalNamesApart.eq_of_mentions {s r : Iri} (h : LocalNamesApart triples)
    (hs : MentionsClass triples s) (hr : MentionsClass triples r)
    (hname : localName s = localName r) :
    s = r := by
  have hsubject : ∀ {i : Iri}, MentionsClass triples i → ∃ t ∈ triples, t.subject = .iri i := by
    intro i hi
    obtain ⟨t, ht, rfl | ⟨sup, rfl⟩⟩ := hi
    · exact ⟨_, ht, rfl⟩
    · exact ⟨_, ht, rfl⟩
  obtain ⟨t, ht, hts⟩ := hsubject hs
  obtain ⟨u, hu, hur⟩ := hsubject hr
  exact h t ht u hu s r hts hur hname

/-- A triple about properties only. -/
private theorem Imported.declareProperty {schema : Schema} {s : Iri} (h : Imported triples schema)
    (ht : DeclaresProperty t s) (hapart : LocalNamesApart (triples ++ [t])) :
    Imported (triples ++ [t]) (schema.declareEdgeType (freshProperty s)) := by
  have hclass : ∀ r, ¬DeclaresClass t r := by
    intro r hr
    rw [DeclaresProperty] at ht
    rw [DeclaresClass, ht, Triple.mk.injEq] at hr
    exact absurd hr.2.2 (by decide)
  have hsub : ∀ r sup, ¬StatesSubclass t r sup := by
    intro r sup hr
    rw [DeclaresProperty] at ht
    rw [StatesSubclass, ht, Triple.mk.injEq] at hr
    exact absurd hr.2.1 (by decide)
  have hmentions : ∀ r, MentionsClass (triples ++ [t]) r ↔ MentionsClass triples r := by
    intro r
    simp [mentionsClass_snoc, hclass, hsub]
  have hsupers : ∀ r sup, HasSuper (triples ++ [t]) r sup ↔ HasSuper triples r sup := by
    intro r sup
    simp [hasSuper_snoc, hsub]
  refine ⟨?_, ?_, ?_⟩
  · simp only [hmentions, hsupers]
    exact h.sound
  · simp only [hmentions]
    exact h.complete
  · intro name ty
    simp only [Schema.declareEdgeType, BTreeMap.get_insert]
    by_cases hname : (freshProperty s).name = name
    · rw [if_pos hname, Option.some.injEq]
      constructor
      · intro hty
        exact ⟨s, hname, hty.symm, t, by simp, ht⟩
      · intro hr
        obtain ⟨r, hr, rfl, u, hu, hur⟩ := hr
        have hsr : s = r := by
          rw [DeclaresProperty] at ht hur
          exact hapart t (by simp) u hu s r (by rw [ht]) (by rw [hur]) (Eq.trans hname hr.symm)
        rw [hsr]
    · rw [if_neg hname, h.edges name ty]
      constructor
      · intro hr
        obtain ⟨r, hr, hty, u, hu, hur⟩ := hr
        exact ⟨r, hr, hty, u, List.mem_append_left _ hu, hur⟩
      · intro hr
        obtain ⟨r, hr, hty, u, hu, hur⟩ := hr
        rcases List.mem_append.mp hu with hu | hu
        · exact ⟨r, hr, hty, u, hu, hur⟩
        · obtain rfl := List.mem_singleton.mp hu
          have hsr : s = r := by
            rw [DeclaresProperty] at ht
            rw [DeclaresProperty, ht, Triple.mk.injEq, Subject.iri.injEq] at hur
            exact hur.1
          exact absurd (hsr ▸ hr) hname

/-- A triple about classes: the entry it writes must hold what the triples say. -/
private theorem Imported.declareClass {schema : Schema} {s : Iri} {ty : NodeType}
    (h : Imported triples schema) (hproperty : ∀ r, ¬DeclaresProperty t r)
    (hothers : ∀ r, r ≠ s → ¬DeclaresClass t r ∧ ∀ sup, ¬StatesSubclass t r sup)
    (hs : MentionsClass (triples ++ [t]) s)
    (hty : ty.name = localName s ∧ ty.iri = some s ∧ ty.properties = [] ∧ ty.description = none ∧
      ∀ sup, sup ∈ ty.supertypes ↔ HasSuper (triples ++ [t]) s sup) :
    Imported (triples ++ [t]) (schema.declareNodeType ty) := by
  obtain ⟨hname, hiri, hproperties, hdescription, hsupers⟩ := hty
  refine ⟨?_, ?_, ?_⟩
  · intro name ty' hget
    simp only [Schema.declareNodeType, BTreeMap.get_insert, hname] at hget
    by_cases heq : localName s = name
    · rw [if_pos heq, Option.some.injEq] at hget
      subst hget
      exact ⟨s, heq, hs, hname.trans heq, hiri, hproperties, hdescription, hsupers⟩
    · rw [if_neg heq] at hget
      obtain ⟨r, hr, hmentions, hrest⟩ := h.sound name ty' hget
      have hne : r ≠ s := fun hrs => heq (hrs ▸ hr)
      refine ⟨r, hr, mentionsClass_snoc.mpr (Or.inl hmentions), ?_⟩
      simpa only [hasSuper_snoc, (hothers r hne).2, false_and, exists_false, or_false] using hrest
  · intro r hr
    simp only [Schema.declareNodeType, BTreeMap.get_insert, hname]
    by_cases heq : localName s = localName r
    · exact ⟨ty, by rw [if_pos heq]⟩
    · rw [if_neg heq]
      have hne : r ≠ s := fun hrs => heq (by rw [hrs])
      apply h.complete
      rcases mentionsClass_snoc.mp hr with hold | hd | ⟨sup, hsub⟩
      · exact hold
      · exact absurd hd (hothers r hne).1
      · exact absurd hsub ((hothers r hne).2 sup)
  · intro name ty'
    simp only [Schema.declareNodeType, h.edges name ty']
    simp [hproperty]

end Snoc

/-- The import of triples that declare no class with superclasses holds what they say. -/
theorem imported_importSchema {triples : List Triple} (hapart : LocalNamesApart triples)
    (hclasses : DeclaredOrSub triples) : Imported triples (importSchema triples) := by
  induction triples using List.reverseRecOn with
  | nil => exact ⟨by simp [importSchema, Schema.empty], by simp [MentionsClass],
      by simp [importSchema, Schema.empty]⟩
  | append_singleton triples t ih =>
    have hold := ih hapart.of_snoc hclasses.of_snoc
    rw [importSchema_snoc]
    rcases importStep_cases (importSchema triples) t with
      ⟨s, ht, hstep⟩ | ⟨s, ht, hstep⟩ | ⟨s, sup, ht, hstep⟩ | ⟨hstep, hc, hp, hsub⟩
    · rw [hstep]
      rw [DeclaresClass] at ht
      have hnone : ∀ sup, ¬HasSuper (triples ++ [t]) s sup := by
        intro sup hsuper
        obtain ⟨u, hu, i, hui, -⟩ := hsuper
        exact hclasses s i ⟨t, by simp, ht⟩ ⟨u, hu, hui⟩
      apply hold.declareClass (s := s)
      · intro r hr
        rw [DeclaresProperty, ht, Triple.mk.injEq] at hr
        exact absurd hr.2.2 (by decide)
      · intro r hr
        constructor
        · intro hd
          rw [DeclaresClass, ht, Triple.mk.injEq, Subject.iri.injEq] at hd
          exact hr hd.1.symm
        · intro sup hs
          rw [StatesSubclass, ht, Triple.mk.injEq] at hs
          exact absurd hs.2.1 (by decide)
      · exact mentionsClass_snoc.mpr (Or.inr (Or.inl ht))
      · refine ⟨rfl, rfl, rfl, rfl, fun sup => ?_⟩
        simp [freshClass, NodeType.new, hnone]
    · rw [hstep]
      exact hold.declareProperty ht hapart
    · rw [hstep]
      have hs : MentionsClass (triples ++ [t]) s :=
        mentionsClass_snoc.mpr (Or.inr (Or.inr ⟨sup, ht⟩))
      rw [StatesSubclass] at ht
      have hsupers :
        ∀ x, HasSuper (triples ++ [t]) s x ↔ HasSuper triples s x ∨ x = localName sup := by
        intro x
        rw [hasSuper_snoc]
        simp [StatesSubclass, ht, eq_comm]
      apply hold.declareClass (s := s)
      · intro r hr
        rw [DeclaresProperty, ht, Triple.mk.injEq] at hr
        exact absurd hr.2.1 (by decide)
      · intro r hr
        constructor
        · intro hd
          rw [DeclaresClass, ht, Triple.mk.injEq] at hd
          exact absurd hd.2.1 (by decide)
        · intro x hx
          rw [StatesSubclass, ht, Triple.mk.injEq, Subject.iri.injEq] at hx
          exact hr hx.1.symm
      · exact hs
      · -- The entry the triple starts from is a fresh class or what the earlier triples say.
        have hstart : (classOr (importSchema triples) s).name = localName s ∧
            (classOr (importSchema triples) s).iri = some s ∧
            (classOr (importSchema triples) s).properties = [] ∧
            (classOr (importSchema triples) s).description = none ∧
            ∀ x, x ∈ (classOr (importSchema triples) s).supertypes ↔ HasSuper triples s x := by
          unfold classOr
          cases hget : (importSchema triples).nodeTypes[localName s]? with
          | none =>
            refine ⟨rfl, rfl, rfl, rfl, fun x => ?_⟩
            have hfresh : ¬HasSuper triples s x := by
              intro hx
              obtain ⟨u, hu, i, hui, -⟩ := hx
              obtain ⟨ty, hty⟩ := hold.complete s ⟨u, hu, Or.inr ⟨i, hui⟩⟩
              rw [hget] at hty
              cases hty
            simp [freshClass, NodeType.new, hfresh]
          | some ty =>
            obtain ⟨r, hr, hmentions, hname, hiri, hrest⟩ := hold.sound _ ty hget
            have hrs : r = s :=
              hapart.eq_of_mentions (mentionsClass_snoc.mpr (Or.inl hmentions)) hs hr
            subst hrs
            exact ⟨hname, hiri, hrest⟩
        obtain ⟨hname, hiri, hproperties, hdescription, hsuper⟩ := hstart
        have hsame : ∀ ty : NodeType, (withSuper ty (localName sup)).name = ty.name ∧
            (withSuper ty (localName sup)).iri = ty.iri ∧
            (withSuper ty (localName sup)).properties = ty.properties ∧
            (withSuper ty (localName sup)).description = ty.description := by
          intro ty
          unfold withSuper
          split <;> exact ⟨rfl, rfl, rfl, rfl⟩
        obtain ⟨h₁, h₂, h₃, h₄⟩ := hsame (classOr (importSchema triples) s)
        refine ⟨h₁.trans hname, h₂.trans hiri, h₃.trans hproperties, h₄.trans hdescription,
          fun x => ?_⟩
        rw [mem_withSuper, hsuper, hsupers]
    · rw [hstep]
      refine ⟨?_, ?_, ?_⟩
      · simpa only [mentionsClass_snoc, hasSuper_snoc, hc, hsub, exists_false, false_and, or_false]
          using hold.sound
      · simpa only [mentionsClass_snoc, hc, hsub, exists_false, or_false] using hold.complete
      · intro name ty
        rw [hold.edges name ty]
        simp [hp]

/-- Two declarations of one node type, up to the order of the supertypes. -/
structure SameNodeType (a b : NodeType) : Prop where
  name : a.name = b.name
  iri : a.iri = b.iri
  properties : a.properties = b.properties
  description : a.description = b.description
  supertypes : ∀ sup, sup ∈ a.supertypes ↔ sup ∈ b.supertypes

/-- The same node types with the same sets of supertypes, and the same edge types. -/
structure SameTypes (o p : Ontology) : Prop where
  nodeTypes :
      ∀ name : String, Option.Rel SameNodeType o.schema.nodeTypes[name]? p.schema.nodeTypes[name]?
  edgeTypes : o.schema.edgeTypes = p.schema.edgeTypes

/-- Two lists of the same triples, in any order and any number. -/
def SameGraph (triples others : List Triple) : Prop := ∀ t, t ∈ others ↔ t ∈ triples

/-- Every list of the same triples is imported as the same types. -/
def OrderFree (triples : List Triple) : Prop :=
  ∀ others, SameGraph triples others → SameTypes (fromRdf others) (fromRdf triples)

/-- What is imported from the same triples agrees. -/
private theorem sameTypes_of_imported {triples others : List Triple} (h : SameGraph triples others)
    (hapart : LocalNamesApart triples) (himported : Imported triples (importSchema triples))
    (hothers : Imported others (importSchema others)) :
    SameTypes (fromRdf others) (fromRdf triples) := by
  have hmentions : ∀ s, MentionsClass others s ↔ MentionsClass triples s := by
    intro s
    simp only [MentionsClass, h _]
  have hsupers : ∀ s sup, HasSuper others s sup ↔ HasSuper triples s sup := by
    intro s sup
    simp only [HasSuper, h _]
  constructor
  · intro name
    rw [fromRdf_schema, fromRdf_schema]
    cases hother : (importSchema others).nodeTypes[name]? with
    | none =>
      cases hmine : (importSchema triples).nodeTypes[name]? with
      | none => exact .none
      | some ty =>
        obtain ⟨s, rfl, hs, -⟩ := himported.sound name ty hmine
        obtain ⟨ty', hty'⟩ := hothers.complete s ((hmentions s).mpr hs)
        rw [hother] at hty'
        cases hty'
    | some ty' =>
      obtain ⟨s, rfl, hs, hname, hiri, hproperties, hdescription, hsuper⟩ :=
        hothers.sound name ty' hother
      obtain ⟨ty, hty⟩ := himported.complete s ((hmentions s).mp hs)
      obtain ⟨r, hr, hrm, hname', hiri', hproperties', hdescription', hsuper'⟩ :=
        himported.sound _ ty hty
      obtain rfl := hapart.eq_of_mentions hrm ((hmentions s).mp hs) hr
      rw [hty]
      refine .some ⟨hname.trans hname'.symm, hiri.trans hiri'.symm,
        hproperties.trans hproperties'.symm, hdescription.trans hdescription'.symm, fun sup => ?_⟩
      rw [hsuper, hsuper', hsupers]
  · rw [fromRdf_schema, fromRdf_schema]
    apply Std.ExtTreeMap.ext_getElem?
    intro name
    apply Option.ext
    intro ty
    rw [hothers.edges name ty, himported.edges name ty]
    simp only [h _]

/-- The entry of a class after a triple that declares it. -/
private theorem importSchema_declared {triples : List Triple} {t : Triple} {s : Iri}
    (h : DeclaresClass t s) :
    (importSchema (triples ++ [t])).nodeTypes[localName s]? = some (freshClass s) := by
  rw [DeclaresClass] at h
  rw [importSchema_snoc, h]
  simp only [importStep, importTriple, if_true, Schema.declareNodeType]
  exact (BTreeMap.get_insert _ _ _ _).trans (if_pos rfl)

/-- The entry of a class after a triple that gives it a superclass. -/
private theorem importSchema_subclassed {triples : List Triple} {t : Triple} {s sup : Iri}
    (h : StatesSubclass t s sup) (hname : (classOr (importSchema triples) s).name = localName s) :
    ∃ ty, (importSchema (triples ++ [t])).nodeTypes[localName s]? = some ty ∧
      localName sup ∈ ty.supertypes := by
  refine ⟨withSuper (classOr (importSchema triples) s) (localName sup), ?_,
    mem_withSuper.mpr (Or.inr rfl)⟩
  have hstep : importSchema (triples ++ [t]) =
      (importSchema triples).declareNodeType (withSuper (classOr (importSchema triples) s)
        (localName sup)) := by
    rw [StatesSubclass] at h
    have hne : rdfsSubclass ≠ rdfType := by decide
    rw [importSchema_snoc, h]
    simp only [importStep, importTriple, if_neg hne, if_true]
    rfl
  have hkept :
    (withSuper (classOr (importSchema triples) s) (localName sup)).name = localName s := by
    unfold withSuper
    split <;> exact hname
  rw [hstep, Schema.declareNodeType, hkept, BTreeMap.get_insert, if_pos rfl]

/-- Node types are stored under their names. -/
private theorem importSchema_keyed (triples : List Triple) :
    (importSchema triples).nodeTypes.KeyedBy NodeType.name := by
  induction triples using List.reverseRecOn with
  | nil => exact .empty _
  | append_singleton triples t ih =>
    rw [importSchema_snoc]
    rcases importStep_cases (importSchema triples) t with
      ⟨s, -, hstep⟩ | ⟨s, -, hstep⟩ | ⟨s, sup, -, hstep⟩ | ⟨hstep, -⟩
    · rw [hstep]
      exact ih.insert _
    · rw [hstep]
      exact ih
    · rw [hstep]
      exact ih.insert _
    · rwa [hstep]

private theorem classOr_name (triples : List Triple) (s : Iri) :
    (classOr (importSchema triples) s).name = localName s := by
  unfold classOr
  cases hget : (importSchema triples).nodeTypes[localName s]? with
  | none => rfl
  | some ty => exact importSchema_keyed triples _ ty hget

/-- Provided different subject IRIs have different local names, the order and repetition of
triples do not matter exactly when no class is both declared and given a superclass. -/
theorem orderFree_iff_declaredOrSub (triples : List Triple) (hapart : LocalNamesApart triples) :
    OrderFree triples ↔ DeclaredOrSub triples := by
  constructor
  · intro hfree s sup hdeclared hsub
    obtain ⟨t, ht, hts⟩ := hdeclared
    obtain ⟨u, hu, hus⟩ := hsub
    have hsame : ∀ v ∈ triples, SameGraph triples (triples ++ [v]) := by
      intro v hv w
      simp only [List.mem_append, List.mem_singleton]
      constructor
      · intro hw
        rcases hw with hw | rfl
        · exact hw
        · exact hv
      · exact Or.inl
    -- A declaration repeated last forgets the superclasses, a subclass triple does not.
    have hforgets := (hfree _ (hsame t ht)).nodeTypes (localName s)
    have hkeeps := (hfree _ (hsame u hu)).nodeTypes (localName s)
    obtain ⟨ty, hty, hmem⟩ := importSchema_subclassed hus (classOr_name triples s)
    rw [fromRdf_schema, fromRdf_schema, importSchema_declared hts] at hforgets
    rw [fromRdf_schema, fromRdf_schema, hty] at hkeeps
    cases hmine : (importSchema triples).nodeTypes[localName s]? with
    | none =>
      rw [hmine] at hforgets
      cases hforgets
    | some mine =>
      rw [hmine] at hforgets hkeeps
      cases hforgets with
      | some hforgets =>
        cases hkeeps with
        | some hkeeps =>
          have hin := (hforgets.supertypes _).mpr ((hkeeps.supertypes _).mp hmem)
          exact absurd hin List.not_mem_nil
  · intro hclasses others h
    have hapart' : LocalNamesApart others :=
      fun t ht u hu => hapart t ((h t).mp ht) u ((h u).mp hu)
    have hclasses' : DeclaredOrSub others := by
      intro s sup
      simp only [h _]
      exact hclasses s sup
    exact sameTypes_of_imported h hapart (imported_importSchema hapart hclasses)
      (imported_importSchema hapart' hclasses')

/-- `Person` is a subclass of `Agent`, and a class. -/
private def personGraph : List Triple :=
  [⟨.iri ⟨"http://x.org/Person"⟩, rdfsSubclass, .iri ⟨"http://x.org/Agent"⟩⟩,
    ⟨.iri ⟨"http://x.org/Person"⟩, rdfType, .iri owlClass⟩]

private theorem personGraph_apart : LocalNamesApart personGraph := by
  intro t ht u hu s r hs hr _
  simp only [personGraph, List.mem_cons, List.not_mem_nil, or_false] at ht hu
  rcases ht with rfl | rfl <;> rcases hu with rfl | rfl <;>
    exact (Subject.iri.inj hs).symm.trans (Subject.iri.inj hr)

/-- In the other order `Person` keeps its superclass. -/
theorem personGraph_depends_on_order : LocalNamesApart personGraph ∧ ¬OrderFree personGraph := by
  refine ⟨personGraph_apart, fun h => ?_⟩
  have hreversed : SameGraph personGraph personGraph.reverse := fun t => List.mem_reverse
  have hrel := (h _ hreversed).nodeTypes "Person"
  have hkept : (fromRdf personGraph.reverse).schema.nodeTypes["Person"]?.map NodeType.supertypes =
      some ["Agent"] := by
    decide +kernel
  have hlost :
    (fromRdf personGraph).schema.nodeTypes["Person"]?.map NodeType.supertypes = some [] := by
    decide +kernel
  obtain ⟨kept, hk, hks⟩ := Option.map_eq_some_iff.mp hkept
  obtain ⟨lost, hl, hls⟩ := Option.map_eq_some_iff.mp hlost
  rw [hk, hl] at hrel
  cases hrel with
  | some hsame =>
    have hmem : "Agent" ∈ lost.supertypes := (hsame.supertypes "Agent").mp (by rw [hks]; simp)
    rw [hls] at hmem
    exact absurd hmem List.not_mem_nil

/-- Two classes with superclasses, one of them with two, and a class without any. -/
private def subclassGraph : List Triple :=
  [⟨.iri ⟨"http://x.org/Person"⟩, rdfsSubclass, .iri ⟨"http://x.org/Agent"⟩⟩,
    ⟨.iri ⟨"http://x.org/Robot"⟩, rdfsSubclass, .iri ⟨"http://x.org/Agent"⟩⟩,
    ⟨.iri ⟨"http://x.org/Person"⟩, rdfsSubclass, .iri ⟨"http://x.org/Animal"⟩⟩,
    ⟨.iri ⟨"http://x.org/Place"⟩, rdfType, .iri owlClass⟩]

private theorem subclassGraph_apart : LocalNamesApart subclassGraph := by
  have hsubject : ∀ t ∈ subclassGraph, ∃ x ∈ ["Person", "Robot", "Place"],
      t.subject = .iri ⟨"http://x.org/" ++ x⟩ := by
    decide +kernel
  have hnames : ∀ x ∈ ["Person", "Robot", "Place"], ∀ y ∈ ["Person", "Robot", "Place"],
      localName ⟨"http://x.org/" ++ x⟩ = localName ⟨"http://x.org/" ++ y⟩ → x = y := by
    decide +kernel
  intro t ht u hu s r hs hr hname
  obtain ⟨x, hx, hxs⟩ := hsubject t ht
  obtain ⟨y, hy, hyr⟩ := hsubject u hu
  obtain rfl := Subject.iri.inj (hs.symm.trans hxs)
  obtain rfl := Subject.iri.inj (hr.symm.trans hyr)
  rw [hnames x hx y hy hname]

/-- Where no class is both declared and a subclass, every order is imported alike. -/
theorem orderFree_subclassGraph : OrderFree subclassGraph := by
  apply (orderFree_iff_declaredOrSub subclassGraph subclassGraph_apart).mpr
  intro s sup hdeclared hsub
  have hclass : ∀ t ∈ subclassGraph, t.predicate = rdfType →
      t.subject = .iri ⟨"http://x.org/Place"⟩ := by
    decide +kernel
  have hsubclass : ∀ t ∈ subclassGraph, t.predicate = rdfsSubclass →
      t.subject ≠ .iri ⟨"http://x.org/Place"⟩ := by
    decide +kernel
  obtain ⟨t, ht, rfl⟩ := hdeclared
  obtain ⟨u, hu, rfl⟩ := hsub
  have hplace : Subject.iri s = .iri ⟨"http://x.org/Place"⟩ := hclass _ ht rfl
  exact hsubclass _ hu rfl hplace

end AtomrOntology
