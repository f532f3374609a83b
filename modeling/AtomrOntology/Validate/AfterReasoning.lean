import AtomrOntology.Reason.Semantics
import AtomrOntology.Validate.Consistency

/-!
# Checking what was derived

The consistency checks on an ontology into which the reasoner merged its conclusions. The
merged ontology is clean exactly if the stated one keeps its disjoint classes apart, the
closure keeps the functional properties functional, no classes are stated to be
equivalent and no subclass cycle is stated: an equivalence comes back as a cycle. What is
found of disjoint classes and functional properties excludes models; what is found of a
cycle holds in all of them.
-/

namespace AtomrOntology

open Consistency

universe u

section

variable {o : Ontology} {rules : RuleSet}

/-- What is stated is a fact. -/
theorem Consistency.states_iff {k : AxiomKind} : States o k ↔ .holds k ∈ o.facts :=
  mem_facts_holds.symm

/-- Disjointness is never derived. -/
theorem disjointWith_mem_closure {left right : String} :
    .holds (.disjointWith left right) ∈ o.closure rules ↔ States o (.disjointWith left right) := by
  rw [states_iff]
  refine Saturation.Rules.mem_closure_of_underived fun r _ G hf => ?_
  have hf : r.Concludes G (.holds (.disjointWith left right)) := hf
  cases hf

/-- Without stated equivalences, a derived subclass axiom is a way along stated ones. -/
theorem subClass_of_closure (hnone : ∀ a b, ¬States o (.equivalentClass a b)) {a b : String}
    (h : .holds (.subClassOf a b) ∈ o.closure rules) : Relation.TransGen (SubClass o) a b := by
  let G : Set Fact := {f | (∀ a b, f ≠ .holds (.equivalentClass a b)) ∧
    ∀ a b, f = .holds (.subClassOf a b) → Relation.TransGen (SubClass o) a b}
  have hstated : o.facts ⊆ G := by
    intro f hf
    refine ⟨fun a b heq => hnone a b (states_iff.mpr (heq ▸ hf)), fun a b heq => ?_⟩
    exact .single (states_iff.mpr (heq ▸ hf))
  have hclosed : documentedRules.Closed {r | r ∈ rules.rules} G := by
    intro r _ f hf
    have hf : r.Concludes G f := hf
    cases hf with
    | subClassTransitivity hab hbc =>
      refine ⟨by simp, fun a c heq => ?_⟩
      obtain ⟨rfl, rfl⟩ := AxiomKind.subClassOf.inj (Fact.holds.inj heq)
      exact (hab.2 _ _ rfl).trans (hbc.2 _ _ rfl)
    | equivalentSymmetry hab => exact absurd rfl (hab.1 _ _)
    | equivalentToSubClass hab => exact absurd rfl (hab.1 _ _)
    | equivalentToSuperClass hab => exact absurd rfl (hab.1 _ _)
    | inverseOfSymmetry => exact ⟨by simp, by simp⟩
    | propertySymmetry => exact ⟨by simp, by simp⟩
    | propertyTransitivity => exact ⟨by simp, by simp⟩
    | inverseForwards => exact ⟨by simp, by simp⟩
    | inverseBackwards => exact ⟨by simp, by simp⟩
  exact (Saturation.Rules.closure_subset hstated hclosed h).2 a b rfl

variable {w : Ontology}

theorem subClass_iff_of_closure (hw : w.facts = o.closure rules) {a b : String} :
    SubClass w a b ↔ .holds (.subClassOf a b) ∈ o.closure rules := hw ▸ states_iff

/-- Of an equivalence a subclass axiom is derived in each direction. -/
theorem subClass_of_equivalent (hrules : ∀ r, r ∈ rules.rules) (hw : w.facts = o.closure rules)
    {a b : String} (hab : States o (.equivalentClass a b)) : SubClass w a b ∧ SubClass w b a := by
  have hequiv : .holds (.equivalentClass a b) ∈ o.closure rules :=
    Saturation.Rules.subset_closure (states_iff.mp hab)
  have hrule : documentedRules.concl .equivalentToSubClass (o.closure rules) ⊆ o.closure rules :=
    Saturation.Rules.closed_closure _ (hrules _)
  constructor
  · exact (subClass_iff_of_closure hw).mpr (hrule (.equivalentToSubClass hequiv))
  · exact (subClass_iff_of_closure hw).mpr (hrule (.equivalentToSuperClass hequiv))

/-- The merged ontology has no cycle exactly if no cycle and no equivalence is stated. -/
theorem acyclic_closure_iff (hrules : ∀ r, r ∈ rules.rules) (hw : w.facts = o.closure rules) :
    (∀ c, ¬OnCycle w c) ↔ (∀ a b, ¬States o (.equivalentClass a b)) ∧ ∀ c, ¬OnCycle o c := by
  constructor
  · intro h
    refine ⟨fun a b hab => ?_, fun c hc => ?_⟩
    · -- the two axioms lead back to where they start
      obtain ⟨hforth, hback⟩ := subClass_of_equivalent hrules hw hab
      exact h a (.tail (.single hforth) hback)
    have hle : SubClass o ≤ SubClass w := fun a b hab =>
      (subClass_iff_of_closure hw).mpr (Saturation.Rules.subset_closure (states_iff.mp hab))
    exact h c (Relation.TransGen.mono hle c c hc)
  · rintro ⟨hnone, hacyclic⟩ c hc
    have hle : SubClass w ≤ Relation.TransGen (SubClass o) := fun a b hab =>
      subClass_of_closure hnone ((subClass_iff_of_closure hw).mp hab)
    exact hacyclic c (Relation.TransGen.closed hle c c hc)

end

/-- A functional property relates a node to one node at most. -/
def FunctionalIn (F : Set Fact) : Prop :=
  ∀ p, .holds (.functional p) ∈ F → ∀ a b c, .relates a p b ∈ F → .relates a p c ∈ F → b = c

section

variable [Blake3] {o w : Ontology}

/-- Under computed ids, two edges of one functional label and source have different targets. -/
theorem functionalKept_iff (hids : o.IdsComputed) : FunctionalKept o ↔ FunctionalIn o.facts := by
  have hkeyed : o.edges.KeyedBy Edge.id := fun k e he => (hids.edges k e he).1
  have hnodup : o.edges.vals.Nodup := by
    refine List.Nodup.of_map Edge.id ?_
    rw [hkeyed.map_key_vals]
    exact Std.ExtTreeMap.nodup_keys
  have hfact : ∀ e ∈ o.edges.vals, ∀ f ∈ o.edges.vals, e.fact = f.fact → e = f := by
    intro e he f hf heq
    obtain ⟨k, hk⟩ := BTreeMap.mem_vals.mp he
    obtain ⟨l, hl⟩ := BTreeMap.mem_vals.mp hf
    have hkl : k = l := by
      have hid := (hids.edges k e hk).2
      rw [heq, (hids.edges l f hl).2] at hid
      exact (Sum.inr.inj hid).symm
    rw [hkl, hl] at hk
    exact (Option.some.inj hk).symm
  constructor
  · intro h p hp a b c hab hac
    by_contra hne
    obtain ⟨e, he, rfl, rfl, rfl⟩ := mem_facts_relates.mp hab
    obtain ⟨f, hf, hsource, hlabel, rfl⟩ := mem_facts_relates.mp hac
    have hsymm : Std.Symm fun e f : Edge =>
        States o (.functional e.label) → (e.label, e.source) ≠ (f.label, f.source) := by
      refine ⟨fun e f hef hstated heq => ?_⟩
      rw [(Prod.mk.inj heq).1] at hstated
      exact hef hstated heq.symm
    have hkept := h.forall he hf fun heq => hne (by rw [heq])
    exact hkept (states_iff.mpr hp) (by rw [hsource, hlabel])
  · intro h
    refine hnodup.pairwise_of_forall_ne fun e he f hf hne hstated heq => hne ?_
    obtain ⟨hlabel, hsource⟩ := Prod.mk.inj heq
    have htarget : e.target = f.target :=
      h e.label (states_iff.mp hstated) e.source e.target f.target
        (mem_facts_relates.mpr ⟨e, he, rfl, rfl, rfl⟩)
        (mem_facts_relates.mpr ⟨f, hf, hsource.symm, hlabel.symm, rfl⟩)
    exact hfact e he f hf (by rw [Edge.fact, Edge.fact, hsource, hlabel, htarget])

/-- A further axiom with the id of its contents keeps ids computed. -/
theorem Ontology.IdsComputed.upsertAxiom (h : o.IdsComputed) {a : Axiom}
    (ha : a.fact.id = .inl a.id) : (o.upsertAxiom a).IdsComputed := by
  refine ⟨fun k b hb => ?_, h.edges⟩
  rw [Ontology.upsertAxiom, BTreeMap.get_insert] at hb
  split at hb
  · next hk =>
    obtain rfl := Option.some.inj hb
    exact ⟨hk, hk ▸ ha⟩
  · exact h.axioms k b hb

/-- So does a further edge. -/
theorem Ontology.IdsComputed.upsertEdge (h : o.IdsComputed) {e : Edge}
    (he : e.fact.id = .inr e.id) : (o.upsertEdge e).IdsComputed := by
  refine ⟨h.axioms, fun k f hf => ?_⟩
  rw [Ontology.upsertEdge, BTreeMap.get_insert] at hf
  split at hf
  · next hk =>
    obtain rfl := Option.some.inj hf
    exact ⟨hk, hk ▸ he⟩
  · exact h.edges k f hf

namespace Reasoner

variable {self : Reasoner} {prov : ProvenanceId} {s : Ontology × Bool}

/-- So does a rule. -/
theorem idsComputed_applyRule (h : s.1.IdsComputed) (rule : Rule) :
    (applyRule prov s rule).1.IdsComputed := by
  have hfresh := rule.fresh s.1
  have haxioms : ∀ (as : List Axiom) (t : Ontology × Bool), t.1.IdsComputed →
      (∀ a ∈ as, a = Axiom.new a.kind) → (as.foldl (addAxiom prov) t).1.IdsComputed := by
    intro as
    induction as with
    | nil => exact fun _ ht _ => ht
    | cons a as ih =>
      intro t ht has
      refine ih _ ?_ fun b hb => has b (List.mem_cons_of_mem _ hb)
      rw [addAxiom]
      split
      · exact ht
      · refine ht.upsertAxiom ?_
        have ha := congrArg Axiom.id (has a List.mem_cons_self)
        exact congrArg Sum.inl ha.symm
  have hedges : ∀ (es : List Edge) (t : Ontology × Bool), t.1.IdsComputed →
      (∀ e ∈ es, e = Edge.between e.source e.label e.target) →
      (es.foldl addEdge t).1.IdsComputed := by
    intro es
    induction es with
    | nil => exact fun _ ht _ => ht
    | cons e es ih =>
      intro t ht hes
      refine ih _ ?_ fun f hf => hes f (List.mem_cons_of_mem _ hf)
      rw [addEdge]
      split
      · exact ht
      · refine ht.upsertEdge ?_
        have he := congrArg Edge.id (hes e List.mem_cons_self)
        exact congrArg Sum.inr he.symm
  exact hedges _ _ (haxioms _ _ h hfresh.axioms) hfresh.edges

/-- Whatever the digest, the loop stores what it adds under computed ids. -/
theorem idsComputed_saturate {left done n : Nat} (hw : w.IdsComputed)
    (h : self.saturate prov left done w = .ok (o, n)) : o.IdsComputed := by
  have hpass : ∀ (rules : List Rule) (s : Ontology × Bool), s.1.IdsComputed →
      (rules.foldl (applyRule prov) s).1.IdsComputed := by
    intro rules
    induction rules with
    | nil => exact fun _ hs => hs
    | cons r rules ih => exact fun s hs => ih _ (idsComputed_applyRule hs r)
  induction left generalizing done w with
  | zero => cases h
  | succ left ih =>
    have hids : (self.pass prov w).1.IdsComputed := hpass _ _ hw
    rw [saturate] at h
    split at h
    · next hp =>
      rw [hp] at hids
      exact ih hids h
    · next hp =>
      rw [hp] at hids
      obtain ⟨rfl, -⟩ := Prod.mk.inj (Except.ok.inj h)
      exact hids

end Reasoner

omit [Blake3] in
theorem Consistency.severity_of_mem_disjointFindings {node : Node} {pair : String × String}
    {f : ValidationFinding} (hf : f ∈ disjointFindings node pair) : f.severity = .error := by
  unfold disjointFindings at hf
  split at hf
  · rw [List.mem_singleton.mp hf]
    rfl
  · cases hf

omit [Blake3] in
theorem Consistency.severity_of_mem_functionalFindings {functional : BTreeSet String}
    {edges : List Edge} {bySource : BTreeMap (String × NodeId) Nat} {f : ValidationFinding}
    (hf : f ∈ functionalFindings functional edges bySource) : f.severity = .error := by
  induction edges generalizing bySource with
  | nil => cases hf
  | cons edge rest ih =>
    rw [functionalFindings] at hf
    split at hf
    · rcases List.mem_append.mp hf with hf | hf
      · split at hf
        · rw [List.mem_singleton.mp hf]
          rfl
        · cases hf
      · exact ih hf
    · exact ih hf

omit [Blake3] in
/-- A node of two disjoint types leaves no model. -/
theorem Interpretation.IsModel.disjointKept {I : Interpretation.{u}} (hI : I.IsModel o) :
    DisjointKept o := by
  rintro n hn left right hstated ⟨hleft, hright⟩
  obtain ⟨id, hid⟩ := BTreeMap.mem_vals.mp hn
  have hdisjoint : Disjoint (I.classes left) (I.classes right) :=
    hI.facts _ (states_iff.mp hstated)
  have hmember : ∀ t ∈ n.types, I.node id ∈ I.classes t := hI.typed id n hid
  exact Set.disjoint_left.mp hdisjoint (hmember left hleft) (hmember right hright)

omit [Blake3] in
/-- Two targets of a functional property leave no model that tells the nodes apart. -/
theorem Interpretation.IsModel.functionalIn {I : Interpretation.{u}} (hI : I.IsModel o)
    (hnode : Function.Injective I.node) : FunctionalIn o.facts := by
  intro p hp a b c hab hac
  have hfunctional : I.Holds (.functional p) := hI.facts _ hp
  exact hnode (hfunctional _ _ _ (hI.facts _ hab) (hI.facts _ hac))

omit [Blake3] in
/-- Along subclass axioms the classes grow. -/
theorem Interpretation.IsModel.subset {I : Interpretation.{u}} (hI : I.IsModel o) {c d : String}
    (h : Relation.TransGen (SubClass o) c d) : I.classes c ⊆ I.classes d := by
  induction h with
  | single hcd => exact hI.facts _ (states_iff.mp hcd)
  | tail _ hcd ih =>
    have hstep : I.Holds (.subClassOf _ _) := hI.facts _ (states_iff.mp hcd)
    exact ih.trans hstep

end

section

variable [Blake3] {o o' : Ontology} {self : Reasoner} {report : ReasoningReport}
  {id : ProvenanceId} {now later : DateTime}

namespace Reasoner

/-- What is materialized was run. -/
theorem materialize_run (h : self.materialize o id now later = (.ok report, o')) :
    self.run o id now later = .ok report := by
  rw [materialize] at h
  split at h
  · cases h
  · next hrun =>
    obtain ⟨hok, -⟩ := Prod.mk.inj h
    rw [hrun, Except.ok.inj hok]

/-- Materializing leaves the closure, under computed ids. -/
theorem facts_materialize (hids : o.IdsComputed) (hinj : Set.InjOn Fact.id (o.closure self.rules))
    (h : self.materialize o id now later = (.ok report, o')) :
    o'.facts = o.closure self.rules ∧ o'.IdsComputed := by
  obtain ⟨n, hsat⟩ := materialize_ok h
  obtain ⟨hwithin, hle, hclosed⟩ := saturate_spec hinj _ Saturation.Rules.closed_closure
    ⟨hids, Saturation.Rules.subset_closure⟩ hsat
  exact ⟨Saturation.Rules.eq_closure hle hclosed hwithin.facts, hwithin.ids⟩

/-- Materializing leaves the nodes as they are. -/
theorem nodes_materialize (h : self.materialize o id now later = (.ok report, o')) :
    o'.nodes = o.nodes := by
  obtain ⟨n, hsat⟩ := materialize_ok h
  obtain ⟨hext, -⟩ := saturate_extended (.refl o) hsat
  rw [hext.others]

/-- With every rule active, an ontology is clean after materializing exactly if it kept disjoint
types apart, the functional properties are functional on all edges, no equivalence is stated and
no class is stated to lie on a cycle. -/
theorem checkConsistency_materialize_iff (hrules : ∀ r, r ∈ self.rules.rules)
    (hids : o.IdsComputed) (hinj : Set.InjOn Fact.id (o.closure self.rules))
    (h : self.materialize o id now later = (.ok report, o')) (order : KeyOrder) :
    (checkConsistency order o').isClean = true ↔
      DisjointKept o ∧ FunctionalIn (o.facts ∪ report.facts) ∧
        (∀ a b, ¬States o (.equivalentClass a b)) ∧ ∀ c, ¬OnCycle o c := by
  obtain ⟨hfacts, hids'⟩ := facts_materialize hids hinj h
  obtain ⟨hunion, -⟩ := run_facts hids hinj (materialize_run h)
  have hdisjoint : DisjointKept o' ↔ DisjointKept o := by
    have hstates : ∀ left right, States o' (.disjointWith left right) ↔
        States o (.disjointWith left right) := by
      intro left right
      rw [states_iff, hfacts, disjointWith_mem_closure]
    simp only [DisjointKept, nodes_materialize h, hstates]
  rw [checkConsistency_clean, hdisjoint, functionalKept_iff hids', hfacts, hunion,
    acyclic_closure_iff hrules hfacts]

/-- Whatever its rules and its cap, what is found after materializing is so in the models of
the stated ontology: of disjoint types, there is none; of a functional property, none tells the
nodes apart; of a cycle, the classes on it have the same members in each. -/
theorem findings_materialize_sound (hids : o.IdsComputed)
    (h : self.materialize o id now later = (.ok report, o')) {order : KeyOrder}
    {f : ValidationFinding} (hf : f ∈ (checkConsistency order o').findings) :
    (f.code = "axiom.disjoint" ∧ ¬∃ I : Interpretation.{u}, I.IsModel o) ∨
      (f.code = "axiom.functional" ∧
        ¬∃ I : Interpretation.{u}, I.IsModel o ∧ Function.Injective I.node) ∨
      ∃ c, f = cycleFinding c ∧ OnCycle o' c ∧ ∀ I : Interpretation.{u}, I.IsModel o →
        ∀ d, Relation.TransGen (SubClass o') c d → Relation.TransGen (SubClass o') d c →
          I.classes c = I.classes d := by
  obtain ⟨n, hsat⟩ := materialize_ok h
  have hids' : o'.IdsComputed := idsComputed_saturate hids hsat
  have hmodels : ∀ I : Interpretation.{u}, I.IsModel o → I.IsModel o' := by
    intro I hI
    refine ⟨(Interpretation.satisfies_closure hI.facts).mono (facts_saturate hsat), ?_⟩
    rw [Interpretation.Typed, nodes_materialize h]
    exact hI.typed
  simp only [checkConsistency, List.mem_append] at hf
  obtain (hf | hf) | hf := hf
  · refine Or.inl ⟨?_, ?_⟩
    · obtain ⟨node, -, hf⟩ := List.mem_flatMap.mp hf
      obtain ⟨pair, -, hf⟩ := List.mem_flatMap.mp hf
      exact code_of_mem_disjointFindings hf
    · rintro ⟨I, hI⟩
      obtain ⟨node, hnode, hf⟩ := List.mem_flatMap.mp hf
      obtain ⟨pair, hpair, hf⟩ := List.mem_flatMap.mp hf
      have hkept := (hmodels I hI).disjointKept node hnode _ _ (mem_disjointPairs.mp hpair)
      exact disjointFindings_clean.mpr hkept f hf (severity_of_mem_disjointFindings hf)
  · refine Or.inr (Or.inl ⟨code_of_mem_functionalFindings hf, ?_⟩)
    rintro ⟨I, hI, hnode⟩
    have hkept := (functionalKept_iff hids').mpr ((hmodels I hI).functionalIn hnode)
    have hone : OneEach (collect o').functional o'.edges.vals := by
      simp only [OneEach, mem_functional]
      exact hkept
    exact functionalFindings_clean.mpr ⟨hone, by simp⟩ f hf (severity_of_mem_functionalFindings hf)
  · obtain ⟨c, hc, rfl⟩ := List.mem_map.mp hf
    refine Or.inr (Or.inr ⟨c, rfl, (@mem_cycles o' order c).mp hc, fun I hI d hcd hdc => ?_⟩)
    exact ((hmodels I hI).subset hcd).antisymm ((hmodels I hI).subset hdc)

end Reasoner

end

private def synonyms : Ontology :=
  Ontology.empty.upsertAxiom (@Axiom.new Blake3.beginning (.equivalentClass "A" "B"))

private def statedSynonyms : List Fact :=
  [.holds (.equivalentClass "A" "B"), .holds (.equivalentClass "B" "A"),
    .holds (.subClassOf "A" "B"), .holds (.subClassOf "B" "A")]

private theorem get_synonyms {k : AxiomId} {a : Axiom} (ha : synonyms.axioms[k]? = some a) :
    a.id = k ∧ a = @Axiom.new Blake3.beginning (.equivalentClass "A" "B") := by
  simp only [synonyms, Ontology.upsertAxiom, Ontology.empty, BTreeMap.get_insert] at ha
  split at ha
  · next hk => exact ⟨Option.some.inj ha ▸ hk, (Option.some.inj ha).symm⟩
  · simp at ha

private theorem states_synonyms : States synonyms (.equivalentClass "A" "B") :=
  states_iff.mpr (mem_facts_iff.mpr (Or.inl ⟨_, _, Std.ExtTreeMap.getElem?_insert_self, rfl⟩))

private theorem idsComputed_synonyms : @Ontology.IdsComputed Blake3.beginning synonyms := by
  let _ := Blake3.beginning
  refine ⟨fun k a ha => ?_, fun k e he => ?_⟩
  · obtain ⟨hk, rfl⟩ := get_synonyms ha
    exact ⟨hk, congrArg Sum.inl hk⟩
  · simp [synonyms, Ontology.upsertAxiom, Ontology.empty] at he

private theorem closure_synonyms {f : Fact} (hf : f ∈ synonyms.closure Reasoner.new.rules) :
    f ∈ statedSynonyms := by
  let G : Set Fact := {f | f ∈ statedSynonyms}
  have hG : ∀ f, f ∈ G ↔ f ∈ statedSynonyms := fun _ => Iff.rfl
  have hstated : synonyms.facts ⊆ G := by
    intro f hf
    obtain ⟨k, a, ha, rfl⟩ | ⟨k, e, he, rfl⟩ := mem_facts_iff.mp hf
    · obtain ⟨-, rfl⟩ := get_synonyms ha
      exact List.mem_cons_self
    · simp [synonyms, Ontology.upsertAxiom, Ontology.empty] at he
  have hclosed : documentedRules.Closed {r | r ∈ Reasoner.new.rules.rules} G := by
    intro r _ f hf
    have hf : r.Concludes G f := hf
    cases hf with
    | subClassTransitivity hab hbc hne =>
      simp [hG, statedSynonyms] at hab hbc
      grind
    | equivalentSymmetry hab =>
      simp [hG, statedSynonyms] at hab
      obtain ⟨rfl, rfl⟩ | ⟨rfl, rfl⟩ := hab <;> simp [hG, statedSynonyms]
    | equivalentToSubClass hab =>
      simp [hG, statedSynonyms] at hab
      obtain ⟨rfl, rfl⟩ | ⟨rfl, rfl⟩ := hab <;> simp [hG, statedSynonyms]
    | equivalentToSuperClass hab =>
      simp [hG, statedSynonyms] at hab
      obtain ⟨rfl, rfl⟩ | ⟨rfl, rfl⟩ := hab <;> simp [hG, statedSynonyms]
    | inverseOfSymmetry hpq => simp [hG, statedSynonyms] at hpq
    | propertySymmetry hp => simp [hG, statedSynonyms] at hp
    | propertyTransitivity hp => simp [hG, statedSynonyms] at hp
    | inverseForwards hpq => simp [hG, statedSynonyms] at hpq
    | inverseBackwards hpq => simp [hG, statedSynonyms] at hpq
  exact Saturation.Rules.closure_subset hstated hclosed hf

private theorem injOn_synonyms :
    Set.InjOn (@Fact.id Blake3.beginning) (synonyms.closure Reasoner.new.rules) := by
  intro f hf g hg hid
  have hf := closure_synonyms hf
  have hg := closure_synonyms hg
  simp only [statedSynonyms, List.mem_cons, List.not_mem_nil, or_false] at hf hg
  obtain rfl | rfl | rfl | rfl := hf <;> obtain rfl | rfl | rfl | rfl := hg <;>
    first | rfl | exact absurd hid (by decide +kernel)

/-- The result of materializing over a digest. -/
private def merged (o : Ontology) : Except ReasonerError ReasoningReport × Ontology :=
  @Reasoner.materialize Blake3.beginning .new o ⟨Vector.replicate 32 0⟩ .epoch .epoch

private theorem merged_ok {o : Ontology} (h : (merged o).1.toOption.isSome = true) :
    ∃ report, merged o = (.ok report, (merged o).2) := by
  cases hmerged : merged o with
  | mk result o' =>
    rw [hmerged] at h
    cases result with
    | ok report => exact ⟨report, rfl⟩
    | error e => cases h

/-- Two equivalent classes are no longer clean once the reasoner has been at them. -/
theorem Reasoner.checkConsistency_materialize_synonyms :
    (checkConsistency .sorted (merged synonyms).2).isClean = false := by
  obtain ⟨report, hmerged⟩ := merged_ok (o := synonyms) (by decide +kernel)
  let _ := Blake3.beginning
  have hiff := Reasoner.checkConsistency_materialize_iff Reasoner.mem_rules_new idsComputed_synonyms
    injOn_synonyms hmerged .sorted
  refine Bool.eq_false_iff.mpr fun hclean => ?_
  obtain ⟨-, -, hnone, -⟩ := hiff.mp hclean
  exact hnone "A" "B" states_synonyms

/-- The first of the two classes is found on a cycle, and so has the members of the second. -/
theorem Reasoner.findings_materialize_synonyms :
    cycleFinding "A" ∈ (checkConsistency .sorted (merged synonyms).2).findings ∧
      ∀ I : Interpretation.{0}, I.IsModel synonyms → I.classes "A" = I.classes "B" := by
  obtain ⟨report, hmerged⟩ := merged_ok (o := synonyms) (by decide +kernel)
  let _ := Blake3.beginning
  obtain ⟨hfacts, -⟩ := Reasoner.facts_materialize idsComputed_synonyms injOn_synonyms hmerged
  obtain ⟨hforth, hback⟩ := subClass_of_equivalent Reasoner.mem_rules_new hfacts states_synonyms
  have hmem : cycleFinding "A" ∈ (checkConsistency .sorted (merged synonyms).2).findings :=
    List.mem_append_right _ (List.mem_map_of_mem (mem_cycles.mpr (.tail (.single hforth) hback)))
  obtain ⟨hcode, -⟩ | ⟨hcode, -⟩ | ⟨c, hc, -, hmodels⟩ :=
    Reasoner.findings_materialize_sound.{0} idsComputed_synonyms hmerged hmem
  · exact absurd hcode (by decide)
  · exact absurd hcode (by decide)
  · obtain rfl := cycleFinding_injective hc
    exact ⟨hmem, fun I hI => hmodels I hI "B" (.single hforth) (.single hback)⟩

end AtomrOntology
