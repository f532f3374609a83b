import AtomrOntology.Import.Nodes
import AtomrOntology.Core.Settle

/-!
# The order of the triples

An import is described by what its triples say, so it does not matter in which order they come and
how often, as long as no two of them give a subject different values under one key.
-/

namespace AtomrOntology.Mapping

variable {m : Mapping} {triples triples' : List Triple} {types : SubjectTypes}

/-- Nodes are stored under the addresses of their IRIs, and edges lead between stored nodes. -/
structure WellFormed [Blake3] (o : Ontology) : Prop where
  nodes : ∀ id n, o.nodes[id]? = some n → n.id = id ∧ ∃ iri, n.iri = some ⟨iri⟩ ∧ id = address iri
  edges : ∀ e ∈ o.edges.vals, e.source ∈ o.nodes ∧ e.target ∈ o.nodes

/-- Two nodes are the same up to the order of their labels. -/
structure SameNode (n n' : Node) : Prop where
  id : n.id = n'.id
  iri : n.iri = n'.iri
  types : ∀ ty, ty ∈ n.types ↔ ty ∈ n'.types
  properties : n.properties = n'.properties

/-- The same edges, and under each id the same node or none. -/
structure SameContent (o o' : Ontology) : Prop where
  nodes : ∀ id : NodeId, Option.Rel SameNode o.nodes[id]? o'.nodes[id]?
  edges : o.edges = o'.edges

/-- No subject has two different recognized values under one key. -/
def SingleValued (m : Mapping) (triples : List Triple) : Prop :=
  ∀ t ∈ triples, ∀ t' ∈ triples, ∀ iri key v v', m.valueOf t = some (iri, key, v) →
    m.valueOf t' = some (iri, key, v') → v = v'

/-- The hash keeps the IRIs of some triples apart, and the edges between them. -/
structure NoCollisions [Blake3] (m : Mapping) (triples : List Triple) : Prop where
  iris : ∀ iri iri', Mentioned triples iri → Mentioned triples iri' →
    address iri = address iri' → iri = iri'
  edges : ∀ t ∈ triples, ∀ t' ∈ triples, ∀ r r', m.linkOf t = some r → m.linkOf t' = some r' →
    (edgeOf r).id = (edgeOf r').id → edgeOf r = edgeOf r'

/-- What is imported is well formed. -/
theorem Describes.wellFormed [Blake3] {o : Ontology} (h : m.Describes types triples o) :
    WellFormed o := by
  have hmem : ∀ {iri}, m.Stored types triples iri → address iri ∈ o.nodes := fun hiri =>
    Std.ExtTreeMap.isSome_getElem?_iff_mem.mp (by rw [h.nodes.present _ hiri]; rfl)
  constructor
  · intro id n hn
    obtain ⟨iri, hiri, rfl⟩ := h.nodes.only id n hn
    obtain rfl := Option.some.inj (hn.symm.trans (h.nodes.present iri hiri))
    exact ⟨rfl, iri, rfl, rfl⟩
  · intro e he
    rw [h.edges] at he
    obtain he | he := BTreeMap.mem_vals_of_insertAll he
    · obtain ⟨⟨src, label, tgt⟩, hr, rfl⟩ := List.mem_map.mp he
      obtain ⟨t, ht, hlinked⟩ := List.mem_filterMap.mp hr
      have hsrc := (of_decide_eq_true (Option.filter_eq_some_iff.mp hlinked).2).1
      exact ⟨hmem (Or.inl hsrc), hmem (Or.inr ⟨t, ht, src, label, hlinked⟩)⟩
    · simp at he

/-- Which types a subject has does not depend on the order of triples. -/
theorem HasType.congr (hsame : ∀ t, t ∈ triples ↔ t ∈ triples') (iri ty : String) :
    m.HasType triples iri ty ↔ m.HasType triples' iri ty := by
  simp only [HasType, hsame]

/-- Nor does which subjects are typed. -/
theorem mem_subjectTypes_congr (hsame : ∀ t, t ∈ triples ↔ t ∈ triples') (iri : String) :
    iri ∈ m.subjectTypes triples ↔ iri ∈ m.subjectTypes triples' := by
  simp only [mem_subjectTypes_iff, HasType.congr hsame]

/-- Nor does which property a triple assigns. -/
theorem assigned_congr (hsame : ∀ t, t ∈ triples ↔ t ∈ triples') (t : Triple) :
    m.assigned (m.subjectTypes triples) t = m.assigned (m.subjectTypes triples') t := by
  simp only [assigned, mem_subjectTypes_congr hsame]

/-- Nor does which edge a triple makes. -/
theorem linked_congr (hsame : ∀ t, t ∈ triples ↔ t ∈ triples') (t : Triple) :
    m.linked (m.subjectTypes triples) t = m.linked (m.subjectTypes triples') t := by
  simp only [linked, mem_subjectTypes_congr hsame]

/-- Nor does which nodes are stored. -/
theorem stored_congr (hsame : ∀ t, t ∈ triples ↔ t ∈ triples') (iri : String) :
    m.Stored (m.subjectTypes triples) triples iri ↔
      m.Stored (m.subjectTypes triples') triples' iri := by
  simp only [Stored, mem_subjectTypes_congr hsame, linked_congr hsame, hsame]

/-- Nor does which labels a node has. -/
theorem mem_labelsFor_congr (hsame : ∀ t, t ∈ triples ↔ t ∈ triples') (fallback : Option String)
    (iri ty : String) : ty ∈ labelsFor (m.subjectTypes triples) fallback iri ↔
      ty ∈ labelsFor (m.subjectTypes triples') fallback iri := by
  by_cases hmem : iri ∈ m.subjectTypes triples
  · have hmem' := (mem_subjectTypes_congr hsame iri).mp hmem
    rw [labelsFor_of_mem hmem fallback none, labelsFor_of_mem hmem' fallback none]
    exact (m.mem_subjectTypes triples iri ty).trans
      ((HasType.congr hsame iri ty).trans (m.mem_subjectTypes triples' iri ty).symm)
  · have hmem' : iri ∉ m.subjectTypes triples' := fun h =>
      hmem ((mem_subjectTypes_congr hsame iri).mpr h)
    have hnone : (m.subjectTypes triples)[iri]? = none := by simpa using hmem
    have hnone' : (m.subjectTypes triples')[iri]? = none := by simpa using hmem'
    rw [labelsFor, labelsFor, hnone, hnone']

/-- Where a subject has one value under each key, its properties are those values. -/
theorem get_propsAt {done : List Triple} (hsingle : m.SingleValued done) (iri key : String)
    (v : PropertyValue) : (m.propsAt types done iri)[key]? = some v ↔
      ∃ t ∈ done, m.assigned types t = some (iri, key, v) := by
  induction done using List.reverseRecOn with
  | nil => simp [propsAt]
  | append_singleton done t ih =>
    have ih := ih fun t ht t' ht' => hsingle t (List.mem_append_left _ ht) t'
      (List.mem_append_left _ ht')
    have hconcat : (∃ t' ∈ done ++ [t], m.assigned types t' = some (iri, key, v)) ↔
        (∃ t' ∈ done, m.assigned types t' = some (iri, key, v)) ∨
          m.assigned types t = some (iri, key, v) := by
      simp [or_and_right, exists_or]
    rw [hconcat, ← ih, propsAt_concat]
    cases hassigned : m.assigned types t with
    | none => simp
    | some r =>
      obtain ⟨iri', key', v'⟩ := r
      dsimp only
      by_cases hiri : iri' = iri
      · subst hiri
        rw [if_pos rfl, BTreeMap.get_insert]
        by_cases hkey : key' = key
        · subst hkey
          simp only [if_true, Option.some.injEq, Prod.mk.injEq, true_and]
          refine ⟨Or.inr, fun h => h.elim (fun hold => ?_) id⟩
          -- an earlier value of the same subject and key is the same one
          obtain ⟨t', ht', hassigned'⟩ := ih.mp hold
          exact hsingle t (by simp) t' (by simp [ht']) iri' key' v' v
            (Option.filter_eq_some_iff.mp hassigned).1 (Option.filter_eq_some_iff.mp hassigned').1
        · simp [hkey]
      · simp [hiri]

/-- Two imports of the same triples have the same content. -/
theorem sameContent_imported [Blake3] (hcollisions : m.NoCollisions triples)
    (hsingle : m.SingleValued triples) (hsame : ∀ t, t ∈ triples ↔ t ∈ triples') :
    SameContent (m.imported triples) (m.imported triples') := by
  have hmentioned : ∀ iri, Mentioned triples iri ↔ Mentioned triples' iri := by
    simp only [Mentioned, hsame, implies_true]
  have hsingle' : m.SingleValued triples' := fun t ht t' ht' =>
    hsingle t ((hsame t).mpr ht) t' ((hsame t').mpr ht')
  have h := m.describes_imported triples hcollisions.iris
  have h' := m.describes_imported triples' fun iri iri' hiri hiri' =>
    hcollisions.iris iri iri' ((hmentioned iri).mpr hiri) ((hmentioned iri').mpr hiri')
  constructor
  · intro id
    by_cases hstored : ∃ iri, m.Stored (m.subjectTypes triples) triples iri ∧ id = address iri
    · obtain ⟨iri, hiri, rfl⟩ := hstored
      rw [h.nodes.present iri hiri, h'.nodes.present iri ((stored_congr hsame iri).mp hiri)]
      refine .some ⟨rfl, rfl, mem_labelsFor_congr hsame _ iri, ?_⟩
      ext key v : 2
      simp only [get_propsAt hsingle, get_propsAt hsingle', assigned_congr hsame, hsame]
    · have hnone : (m.imported triples).nodes[id]? = none := by
        rw [Option.eq_none_iff_forall_ne_some]
        exact fun n hn => hstored (h.nodes.only id n hn)
      have hnone' : (m.imported triples').nodes[id]? = none := by
        rw [Option.eq_none_iff_forall_ne_some]
        intro n hn
        obtain ⟨iri, hiri, hid⟩ := h'.nodes.only id n hn
        exact hstored ⟨iri, (stored_congr hsame iri).mpr hiri, hid⟩
      rw [hnone, hnone']
      exact .none
  · rw [h.edges, h'.edges]
    refine BTreeMap.insertAll_eq_of_mem_iff (fun e => ?_) fun e he e' he' hid => ?_
    · simp only [List.mem_map, List.mem_filterMap, hsame, linked_congr hsame]
    · obtain ⟨r, hr, rfl⟩ := List.mem_map.mp he
      obtain ⟨r', hr', rfl⟩ := List.mem_map.mp he'
      obtain ⟨t, ht, hlinked⟩ := List.mem_filterMap.mp hr
      obtain ⟨t', ht', hlinked'⟩ := List.mem_filterMap.mp hr'
      exact hcollisions.edges t ht t' ht' r r' (Option.filter_eq_some_iff.mp hlinked).1
        (Option.filter_eq_some_iff.mp hlinked').1 hid

/-- An import holds the nodes and edges that the triples describe, it is well formed, and it is the
same for all orders and repetitions of the triples, provided no subject has two different
recognized values under one key. -/
theorem imported_wellFormed_and_orderFree [Blake3] (m : Mapping) (triples : List Triple)
    (hcollisions : m.NoCollisions triples) :
    m.Describes (m.subjectTypes triples) triples (m.imported triples) ∧
      WellFormed (m.imported triples) ∧
      ∀ triples', (∀ t, t ∈ triples ↔ t ∈ triples') → m.SingleValued triples →
        SameContent (m.imported triples) (m.imported triples') :=
  ⟨m.describes_imported triples hcollisions.iris,
    (m.describes_imported triples hcollisions.iris).wellFormed,
    fun _ hsame hsingle => sameContent_imported hcollisions hsingle hsame⟩

private def named : Triple :=
  ⟨.iri ⟨"urn:a"⟩, ⟨"http://xmlns.com/foaf/0.1/name"⟩, .literal "Ann" xsdString none⟩

private def knows : Triple :=
  ⟨.iri ⟨"urn:a"⟩, ⟨"http://xmlns.com/foaf/0.1/knows"⟩, .iri ⟨"urn:b"⟩⟩

/-- A person with a name who knows somebody. -/
private def acquainted : List Triple :=
  [⟨.iri ⟨"urn:a"⟩, rdfType, .iri ⟨"http://xmlns.com/foaf/0.1/Person"⟩⟩, named, knows]

private theorem noCollisions_acquainted :
    @NoCollisions Blake3.beginning Foaf.mapping acquainted := by
  have hlink : ∀ t ∈ acquainted, Foaf.mapping.linkOf t = none ∨ t = knows := by decide
  refine @NoCollisions.mk Blake3.beginning _ _ ?_ ?_
  · have hmentioned : ∀ iri, Mentioned acquainted iri →
        iri ∈ ["urn:a", "http://xmlns.com/foaf/0.1/Person", "urn:b"] := by
      rintro iri ⟨t, ht, hiri⟩
      revert iri
      revert t
      decide
    have hapart : ∀ iri ∈ ["urn:a", "http://xmlns.com/foaf/0.1/Person", "urn:b"],
        ∀ iri' ∈ ["urn:a", "http://xmlns.com/foaf/0.1/Person", "urn:b"],
          @address Blake3.beginning iri = @address Blake3.beginning iri' → iri = iri' := by
            decide +kernel
    exact fun iri iri' h h' => hapart iri (hmentioned iri h) iri' (hmentioned iri' h')
  · intro t ht t' ht' r r' hr hr' _
    obtain hnone | rfl := hlink t ht
    · cases hnone.symm.trans hr
    · obtain hnone | rfl := hlink t' ht'
      · cases hnone.symm.trans hr'
      · rw [Option.some.inj (hr.symm.trans hr')]

private theorem singleValued_acquainted : Foaf.mapping.SingleValued acquainted := by
  have hvalue : ∀ t ∈ acquainted, (Foaf.mapping.valueOf t).isNone ∨ t = named := by decide
  intro t ht t' ht' iri key v v' hv hv'
  obtain hnone | rfl := hvalue t ht
  · simp [hv] at hnone
  · obtain hnone | rfl := hvalue t' ht'
    · simp [hv'] at hnone
    · cases hv.symm.trans hv'
      rfl

/-- The triples backwards, one of them twice, give the same import. -/
theorem imported_acquainted :
    @WellFormed Blake3.beginning (@imported Blake3.beginning Foaf.mapping acquainted) ∧
      SameContent (@imported Blake3.beginning Foaf.mapping acquainted)
        (@imported Blake3.beginning Foaf.mapping (knows :: acquainted.reverse)) := by
  have h := @imported_wellFormed_and_orderFree Blake3.beginning Foaf.mapping acquainted
    noCollisions_acquainted
  exact ⟨h.2.1, h.2.2 _ (by simp [acquainted]; tauto) singleValued_acquainted⟩

end AtomrOntology.Mapping
