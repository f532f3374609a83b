import AtomrOntology.Rdf.JsonLdWriter

/-!
# Ontologies that survive JSON-LD

The writer spells every term out, but the reader takes some spellings for something else: names
behind a bound prefix, ids of blank nodes and keywords. Which triples are read as themselves is
said term by term. An ontology whose triples all are is read back as its projection, and no other
one is, unless prefixes lead back to each other and misread triples make up for one another.
-/

namespace AtomrOntology

section

variable {α : Type*} {f : α → α} {xs : List α} {x : α}

/-- A function that permutes the members of a list leads each of them back to itself. -/
theorem mem_periodicPts_of_map_perm (h : (xs.map f).Perm xs) (hx : x ∈ xs) :
    x ∈ Function.periodicPts f := by
  have hmaps : ∀ y ∈ xs, f y ∈ xs := fun y hy => h.mem_iff.mp (List.mem_map_of_mem hy)
  let g : {y // y ∈ xs} → {y // y ∈ xs} := fun y => ⟨f y.1, hmaps y.1 y.2⟩
  have hfinite : Finite {y // y ∈ xs} := List.finite_toSet xs
  have hsurjective : Function.Surjective g := by
    intro y
    obtain ⟨z, hz, hfz⟩ := List.mem_map.mp (h.mem_iff.mpr y.2)
    exact ⟨⟨z, hz⟩, Subtype.ext hfz⟩
  have hinjective : Function.Injective g := Finite.injective_iff_surjective.mpr hsurjective
  obtain ⟨n, hn, hperiod⟩ := Function.mem_periodicPts.mp (hinjective.mem_periodicPts ⟨x, hx⟩)
  have hiterate : ∀ (k : Nat) (y : {y // y ∈ xs}), (g^[k] y).1 = f^[k] y.1 := by
    intro k
    induction k with
    | zero => exact fun _ => rfl
    | succ k ih =>
      intro y
      rw [Function.iterate_succ_apply, Function.iterate_succ_apply, ih]
  refine Function.mem_periodicPts.mpr ⟨n, hn, ?_⟩
  exact (hiterate n ⟨x, hx⟩).symm.trans (congrArg Subtype.val hperiod)

/-- A point whose image is kept leads back to itself only if it is kept as well. -/
theorem eq_self_of_mem_periodicPts (hkept : f (f x) = f x) (h : x ∈ Function.periodicPts f) :
    f x = x := by
  obtain ⟨n, hn, hperiod⟩ := Function.mem_periodicPts.mp h
  obtain ⟨k, rfl⟩ := Nat.exists_eq_succ_of_ne_zero hn.ne'
  have hlast : f^[k] (f x) = x := hperiod
  rwa [Function.iterate_fixed hkept] at hlast

end

namespace JsonLd

section

variable {vocab : Vocabulary} {s : String}

/-- A name that the reader does not expand: a full IRI, or a name behind no bound prefix, but for
a prefix that stands for itself. -/
def Verbatim (vocab : Vocabulary) (s : String) : Prop :=
  Absolute s ∨ ∀ (pre loc : String) (base : Iri), s = pre ++ ":" ++ loc → ':' ∉ pre.toList →
    vocab.namespaces[pre]? = some base → base.value = pre ++ ":"

/-- A name behind a bound prefix. -/
theorem expandCurie_eq {pre loc : String} (hpre : ':' ∉ pre.toList) :
    vocab.expandCurie (pre ++ ":" ++ loc) =
      vocab.namespaces[pre]?.map fun base => ⟨base.value ++ loc⟩ := by
  have hlist : (pre ++ ":" ++ loc).toList = pre.toList ++ ':' :: loc.toList := by simp
  rw [Vocabulary.expandCurie, hlist, splitOnce_append _ hpre]
  cases hbase : vocab.namespaces[pre]? with
  | none => simp [hbase]
  | some base => simp [hbase]

/-- Verbatim names are those that the reader leaves. -/
theorem expandIri_eq_self_iff : expandIri s vocab = ⟨s⟩ ↔ Verbatim vocab s := by
  by_cases habs : Absolute s
  · exact ⟨fun _ => Or.inl habs, fun _ => expandIri_of_absolute habs⟩
  · have hexpand : expandIri s vocab = (vocab.expandCurie s).getD ⟨s⟩ := by
      unfold expandIri
      refine (if_neg habs).trans ?_
      cases vocab.expandCurie s <;> rfl
    rw [hexpand, Verbatim, or_iff_right habs]
    constructor
    · rintro h pre loc base rfl hpre hbase
      rw [expandCurie_eq hpre, hbase] at h
      exact (String.append_left_inj loc).mp (congrArg Iri.value h)
    · intro h
      cases hcurie : vocab.expandCurie s with
      | none => rfl
      | some iri =>
        simp only [Vocabulary.expandCurie, Option.bind_eq_bind, Option.bind_eq_some_iff] at hcurie
        obtain ⟨⟨pre, loc⟩, hparts, base, hbase, hiri⟩ := hcurie
        obtain rfl := Option.some.inj hiri
        obtain ⟨hpre, hs⟩ := splitOnce_some hparts
        have hs : s = .ofList pre ++ ":" ++ .ofList loc := by
          rw [← String.toList_inj, hs]
          simp
        rw [Option.getD_some, h _ _ base hs (by simpa using hpre) hbase, hs]

/-- An object that is read as itself. Ids of blank nodes start with `_:`, and a literal with a
language has one datatype. -/
def IntactObject (vocab : Vocabulary) : Object → Prop
  | .iri i => ¬['_', ':'] <+: i.value.toList ∧ Verbatim vocab i.value
  | .blank _ => True
  | .literal _ datatype (some _) => datatype = rdfLangString
  | .literal _ datatype none => Verbatim vocab datatype.value

/-- A triple whose terms are read as themselves, under a predicate that is no keyword. -/
structure Intact (vocab : Vocabulary) (t : Triple) : Prop where
  subject : ∀ i, t.subject = .iri i → ¬['_', ':'] <+: i.value.toList
  keywords : t.predicate.value ≠ "@id" ∧ t.predicate.value ≠ "@type"
  predicate : Verbatim vocab t.predicate.value
  object : IntactObject vocab t.object

/-- A subject is read as itself unless it is an IRI that starts like a blank node. -/
theorem subjectFromId_eq_self_iff {subject : Subject} :
    subjectFromId (subjectKey subject) = subject ↔
      ∀ i, subject = .iri i → ¬['_', ':'] <+: i.value.toList := by
  cases subject with
  | iri i =>
    constructor
    · intro h j hj hblank
      obtain rfl := Subject.iri.inj hj
      obtain ⟨label, hlabel⟩ := hblank
      rw [subjectKey, subjectFromId, ← hlabel, stripPrefix_append] at h
      cases h
    · intro h
      have hstrip : stripPrefix ['_', ':'] i.value.toList = none := if_neg (h i rfl)
      rw [subjectKey, subjectFromId, hstrip]
  | blank label =>
    have hstrip : stripPrefix ['_', ':'] ("_:" ++ label).toList = some label.toList := by
      rw [String.toList_append]
      exact stripPrefix_append ['_', ':'] label.toList
    rw [subjectKey, subjectFromId, hstrip]
    simp

/-- Intact objects are those that the reader takes for themselves. -/
theorem objectBack_eq_self_iff {object : Object} :
    objectBack vocab object = object ↔ IntactObject vocab object := by
  cases object with
  | iri i =>
    by_cases hblank : ['_', ':'] <+: i.value.toList
    · obtain ⟨label, hlabel⟩ := hblank
      have hstrip : stripPrefix ['_', ':'] i.value.toList = some label := by
        rw [← hlabel, stripPrefix_append]
      have hback : objectBack vocab (.iri i) = .blank (.ofList label) := by
        simp only [objectBack, hstrip]
      rw [hback]
      simp [IntactObject, ← hlabel]
    · have hstrip : stripPrefix ['_', ':'] i.value.toList = none := if_neg hblank
      simp [objectBack, IntactObject, hstrip, hblank, ← expandIri_eq_self_iff]
  | blank label => simp [objectBack, IntactObject]
  | literal lexical datatype language =>
    cases language with
    | none => simp [objectBack, IntactObject, ← expandIri_eq_self_iff]
    | some lang => simp [objectBack, IntactObject, eq_comm]

/-- What a triple is read as, if it is not under a keyword. -/
def readAs (vocab : Vocabulary) (t : Triple) : Triple :=
  ⟨subjectFromId (subjectKey t.subject), expandIri t.predicate.value vocab,
    objectBack vocab t.object⟩

/-- Intact triples are those that are read as themselves. -/
theorem intact_iff {t : Triple} : Intact vocab t ↔
    (t.predicate.value ≠ "@id" ∧ t.predicate.value ≠ "@type") ∧ readAs vocab t = t := by
  have hparts : readAs vocab t = t ↔ subjectFromId (subjectKey t.subject) = t.subject ∧
      expandIri t.predicate.value vocab = t.predicate ∧ objectBack vocab t.object = t.object := by
    obtain ⟨subject, predicate, object⟩ := t
    simp [readAs]
  rw [hparts, subjectFromId_eq_self_iff, objectBack_eq_self_iff, ← expandIri_eq_self_iff.symm]
  constructor
  · exact fun h => ⟨h.keywords, h.subject, h.predicate, h.object⟩
  · exact fun h => ⟨h.2.1, h.1, h.2.2.1, h.2.2.2⟩

/-- No prefixes lead back to each other: a name that expanding leads back to is not expanded. -/
def Loopless (vocab : Vocabulary) : Prop := ∀ i : Iri,
  i ∈ Function.periodicPts (fun i : Iri => expandIri i.value vocab) → expandIri i.value vocab = i

/-- There are no loops where every base is a full IRI. -/
theorem loopless_of_absolute (habs : ∀ base ∈ vocab.namespaces.vals, Absolute base.value) :
    Loopless vocab :=
  fun i hi => eq_self_of_mem_periodicPts (expandIri_expandIri habs i.value) hi

/-- An IRI that reading leads back to is never read as a blank node, and expanding leads back to
it. -/
theorem expand_of_iterate_objectBack {i j : Iri} {n : Nat}
    (h : (objectBack vocab)^[n] (.iri i) = .iri j) :
    (fun i : Iri => expandIri i.value vocab)^[n] i = j := by
  induction n generalizing j with
  | zero => exact Object.iri.inj h
  | succ n ih =>
    rw [Function.iterate_succ_apply'] at h ⊢
    cases hlast : (objectBack vocab)^[n] (.iri i) with
    | iri k =>
      rw [hlast] at h
      rw [ih hlast]
      by_cases hblank : ['_', ':'] <+: k.value.toList
      · obtain ⟨label, hlabel⟩ := hblank
        simp [objectBack, ← hlabel, stripPrefix] at h
      · have hstrip : stripPrefix ['_', ':'] k.value.toList = none := if_neg hblank
        simpa [objectBack, hstrip] using h
    | blank label =>
      rw [hlast] at h
      cases h
    | literal lexical datatype language =>
      rw [hlast] at h
      cases language <;> cases h

/-- Without loops, an object that reading leads back to is read as itself. -/
theorem objectBack_of_mem_periodicPts (hloopless : Loopless vocab) {object : Object}
    (h : object ∈ Function.periodicPts (objectBack vocab)) :
    objectBack vocab object = object := by
  obtain ⟨n, hn, hperiod⟩ := Function.mem_periodicPts.mp h
  cases object with
  | iri i =>
    cases hstrip : stripPrefix ['_', ':'] i.value.toList with
    | none =>
      have hexpand := expand_of_iterate_objectBack hperiod
      have hi := hloopless i (Function.mem_periodicPts.mpr ⟨n, hn, hexpand⟩)
      simp only [objectBack, hstrip, hi]
    | some label =>
      refine eq_self_of_mem_periodicPts ?_ h
      simp only [objectBack, hstrip]
  | blank label => rfl
  | literal lexical datatype language =>
    cases language with
    | none =>
      have hsemiconj : Function.Semiconj (Object.literal lexical · none)
          (fun i : Iri => expandIri i.value vocab) (objectBack vocab) := fun _ => rfl
      have hback := (hsemiconj.iterate_right n datatype).trans hperiod
      have hdatatype : (fun i : Iri => expandIri i.value vocab)^[n] datatype = datatype :=
        (Object.literal.inj hback).2.1
      have hi := hloopless datatype (Function.mem_periodicPts.mpr ⟨n, hn, hdatatype⟩)
      simp only [objectBack, hi]
    | some lang => exact eq_self_of_mem_periodicPts rfl h

/-- Without loops, a triple that reading leads back to is read as itself. -/
theorem readAs_of_mem_periodicPts (hloopless : Loopless vocab) {t : Triple}
    (h : t ∈ Function.periodicPts (readAs vocab)) : readAs vocab t = t := by
  obtain ⟨n, hn, hperiod⟩ := Function.mem_periodicPts.mp h
  have hsubject : Function.Semiconj Triple.subject (readAs vocab)
      fun s => subjectFromId (subjectKey s) := fun _ => rfl
  have hpredicate : Function.Semiconj Triple.predicate (readAs vocab)
      fun i => expandIri i.value vocab := fun _ => rfl
  have hobject : Function.Semiconj Triple.object (readAs vocab) (objectBack vocab) := fun _ => rfl
  have hs : subjectFromId (subjectKey t.subject) = t.subject :=
    eq_self_of_mem_periodicPts (congrArg subjectFromId (subjectKey_subjectFromId _))
      (Function.mem_periodicPts.mpr ⟨n, hn, hperiod.map hsubject⟩)
  have hp := hloopless t.predicate
    (Function.mem_periodicPts.mpr ⟨n, hn, hperiod.map hpredicate⟩)
  have ho := objectBack_of_mem_periodicPts hloopless
    (Function.mem_periodicPts.mpr ⟨n, hn, hperiod.map hobject⟩)
  obtain ⟨subject, predicate, object⟩ := t
  simp only [readAs, hs, hp, ho]

end

section

variable [SerdeJson] [RdfText] [JsonReader]

/-- An ontology that is written, and whose document is read as its projection up to order. -/
def RoundTrips (o : Ontology) : Prop :=
  ∃ bytes triples, write o = some bytes ∧ parseText bytes = .ok triples ∧ triples.Perm (toRdf o)

/-- An ontology round trips exactly if no triple is under a keyword and reading its triples permutes
them. -/
theorem roundTrips_iff_perm {o : Ontology} : RoundTrips o ↔
    (∀ t ∈ toRdf o, t.predicate.value ≠ "@id" ∧ t.predicate.value ≠ "@type") ∧
      ((toRdf o).map (readAs o.projectionVocabulary)).Perm (toRdf o) := by
  have hmap : (∀ t ∈ toRdf o, t.predicate.value ≠ "@type") →
      (toRdf o).filterMap (tripleBack o.projectionVocabulary) =
        (toRdf o).map (readAs o.projectionVocabulary) := by
    intro htypes
    rw [← List.filterMap_eq_map]
    refine List.filterMap_congr fun t ht => ?_
    rw [tripleBack, if_neg (htypes t ht)]
    rfl
  constructor
  · rintro ⟨bytes, triples, hwrite, hparse, hperm⟩
    have hids : ∀ t ∈ toRdf o, t.predicate.value ≠ "@id" := by
      intro t ht hid
      rw [(write_eq_none_iff o).mpr ⟨t, ht, hid⟩] at hwrite
      cases hwrite
    obtain ⟨read, hread, hback⟩ := parseText_write hwrite
    obtain rfl := Except.ok.inj (hparse.symm.trans hread)
    have hsame := hback.symm.trans hperm
    have htypes : ∀ t ∈ toRdf o, t.predicate.value ≠ "@type" := by
      -- none is left out
      intro t ht htype
      have hsome := List.filterMap_length_eq_length.mp hsame.length_eq t ht
      rw [tripleBack, if_pos htype] at hsome
      cases hsome
    exact ⟨fun t ht => ⟨hids t ht, htypes t ht⟩, hmap htypes ▸ hsame⟩
  · rintro ⟨hkeywords, hperm⟩
    cases hwrite : write o with
    | none =>
      obtain ⟨t, ht, hid⟩ := (write_eq_none_iff o).mp hwrite
      exact absurd hid (hkeywords t ht).1
    | some bytes =>
      obtain ⟨triples, hparse, hback⟩ := parseText_write hwrite
      rw [hmap fun t ht => (hkeywords t ht).2] at hback
      exact ⟨bytes, triples, hwrite, hparse, hback.trans hperm⟩

/-- Intact triples are read back. -/
theorem roundTrips_of_intact {o : Ontology} (h : ∀ t ∈ toRdf o, Intact o.projectionVocabulary t) :
    RoundTrips o := by
  refine roundTrips_iff_perm.mpr ⟨fun t ht => (h t ht).keywords, ?_⟩
  rw [List.map_congr_left fun t ht => (intact_iff.mp (h t ht)).2, List.map_id']

/-- Without loops of prefixes, only intact triples are. -/
theorem intact_of_roundTrips {o : Ontology} (hloopless : Loopless o.projectionVocabulary)
    (h : RoundTrips o) : ∀ t ∈ toRdf o, Intact o.projectionVocabulary t := by
  obtain ⟨hkeywords, hperm⟩ := roundTrips_iff_perm.mp h
  intro t ht
  exact intact_iff.mpr ⟨hkeywords t ht,
    readAs_of_mem_periodicPts hloopless (mem_periodicPts_of_map_perm hperm ht)⟩

/-- An ontology is read back as its projection if each term is read as itself. No other one is,
unless its prefixes lead back to each other. -/
theorem roundTrips_iff_intact (o : Ontology) :
    ((∀ t ∈ toRdf o, Intact o.projectionVocabulary t) → RoundTrips o) ∧
    (Loopless o.projectionVocabulary →
      (RoundTrips o ↔ ∀ t ∈ toRdf o, Intact o.projectionVocabulary t)) :=
  ⟨roundTrips_of_intact,
    fun hloopless => ⟨intact_of_roundTrips hloopless, roundTrips_of_intact⟩⟩

end

/-- A node whose IRI has an unbound prefix, and an edge to it. -/
private def mailbox : Ontology :=
  ((Ontology.empty.upsertNode ⟨.filled 1, some ⟨"https://example.org/a"⟩, ["Person"], ∅⟩).upsertNode
    ⟨.filled 2, some ⟨"mailto:a@example.org"⟩, [], ∅⟩).upsertEdge
      ⟨.filled 3, "mbox", .filled 1, .filled 2, ∅⟩

/-- A name behind an unbound prefix is read as itself. -/
theorem mailbox_roundTrips :
    let _ := SerdeJson.plain
    let _ := RdfText.plain
    let _ := JsonReader.plain
    RoundTrips mailbox := by
  intro _ _ _
  have hread : ∀ t ∈ toRdf mailbox, (t.predicate.value ≠ "@id" ∧ t.predicate.value ≠ "@type") ∧
      readAs mailbox.projectionVocabulary t = t := by decide +kernel
  exact (roundTrips_iff_intact mailbox).1 fun t ht => intact_iff.mpr (hread t ht)

/-- A node whose IRI looks like a prefixed name, and an edge to it. -/
private def employer : Ontology :=
  ((Ontology.empty.upsertNode ⟨.filled 1, some ⟨"https://example.org/a"⟩, ["Person"], ∅⟩).upsertNode
    ⟨.filled 2, some ⟨"org:Acme"⟩, ["Organization"], ∅⟩).upsertEdge
      ⟨.filled 3, "worksFor", .filled 1, .filled 2, ∅⟩

/-- The edge is read with another target, while the node itself stays. -/
theorem employer_is_expanded :
    let _ := SerdeJson.plain
    let _ := RdfText.plain
    let _ := JsonReader.plain
    ¬RoundTrips employer := by
  intro _ _ _ h
  have hfull : ∀ base ∈ employer.projectionVocabulary.namespaces.vals, Absolute base.value := by
    unfold Absolute
    decide +kernel
  have hexpanded : ∃ t ∈ toRdf employer,
      readAs employer.projectionVocabulary t ≠ t := by decide +kernel
  obtain ⟨t, ht, hne⟩ := hexpanded
  exact hne (intact_iff.mp (intact_of_roundTrips (loopless_of_absolute hfull) h t ht)).2

end JsonLd

end AtomrOntology
