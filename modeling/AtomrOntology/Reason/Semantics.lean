import AtomrOntology.Reason.Materialize
import AtomrOntology.Reason.Termination

/-!
# What the reasoner's conclusions mean

Classes are read as sets and properties as relations over a domain, and a node names a
point of it. Every rule keeps a model a model, so a run derives nothing that fails in a
model of the ontology. Conversely a subclass axiom or an edge that is not derived by all
rules together fails in some model, built from any model of the ontology: beside it
stands a further point that is exactly in what was derived of a class, or a property
keeps only the pairs that were derived.
-/

namespace AtomrOntology

universe u

/-- A reading of classes, properties and nodes over a domain. -/
structure Interpretation where
  Point : Type u
  classes : String → Set Point
  properties : String → Point → Point → Prop
  node : NodeId → Point

namespace Interpretation

/-- What an axiom says about the domain. -/
def Holds (I : Interpretation.{u}) : AxiomKind → Prop
  | .subClassOf sub sup => I.classes sub ⊆ I.classes sup
  | .equivalentClass left right => I.classes left = I.classes right
  | .disjointWith left right => Disjoint (I.classes left) (I.classes right)
  | .domain property cls => ∀ x y, I.properties property x y → x ∈ I.classes cls
  | .range property cls => ∀ x y, I.properties property x y → y ∈ I.classes cls
  | .functional property => ∀ x y z, I.properties property x y → I.properties property x z → y = z
  | .inverseFunctional property =>
    ∀ x y z, I.properties property x z → I.properties property y z → x = y
  | .inverseOf left right => ∀ x y, I.properties left x y ↔ I.properties right y x
  | .symmetric property => ∀ x y, I.properties property x y → I.properties property y x
  | .transitive property =>
    ∀ x y z, I.properties property x y → I.properties property y z → I.properties property x z

/-- What a fact says about the domain. -/
def Satisfies (I : Interpretation.{u}) : Fact → Prop
  | .holds kind => I.Holds kind
  | .relates source label target => I.properties label (I.node source) (I.node target)

/-- Every node is in the classes it is labelled with. -/
def Typed (o : Ontology) (I : Interpretation.{u}) : Prop :=
  ∀ (id : NodeId) (n : Node), o.nodes[id]? = some n → ∀ t ∈ n.types, I.node id ∈ I.classes t

/-- A model of an ontology. -/
structure IsModel (I : Interpretation.{u}) (o : Ontology) : Prop where
  facts : Saturation.Satisfies Satisfies I o.facts
  typed : I.Typed o

end Interpretation

section

variable {I : Interpretation.{u}} {F : Set Fact} {o : Ontology}

/-- What a rule concludes holds in every model of its premises. -/
theorem Rule.Concludes.sound {r : Rule} {f : Fact} (hf : r.Concludes F f)
    (h : Saturation.Satisfies Interpretation.Satisfies I F) : I.Satisfies f := by
  cases hf with
  | subClassTransitivity hab hbc => exact (h _ hab).trans (h _ hbc)
  | equivalentSymmetry hab => exact (h _ hab).symm
  | equivalentToSubClass hab => exact (h _ hab).subset
  | equivalentToSuperClass hab => exact (h _ hab).symm.subset
  | inverseOfSymmetry hpq => exact fun x y => (h _ hpq y x).symm
  | propertySymmetry hp hab => exact h _ hp _ _ (h _ hab)
  | propertyTransitivity hp hab hbc => exact h _ hp _ _ _ (h _ hab) (h _ hbc)
  | inverseForwards hpq hab => exact (h _ hpq _ _).mp (h _ hab)
  | inverseBackwards hpq hab => exact (h _ hpq _ _).mpr (h _ hab)

/-- A model satisfies everything that follows. -/
theorem Interpretation.satisfies_closure {active : Set Rule}
    (h : Saturation.Satisfies Interpretation.Satisfies I F) :
    Saturation.Satisfies Interpretation.Satisfies I (documentedRules.closure active F) :=
  h.closure fun _ _ _ hF _ hf => Rule.Concludes.sound hf hF

end

section

variable [Blake3] {o w : Ontology} {self : Reasoner} {report : ReasoningReport}
  {id : ProvenanceId} {now later : DateTime}

namespace Reasoner

/-- Whatever the ids, a working copy states nothing but what follows. -/
theorem facts_saturate {prov : ProvenanceId} {left done n : Nat}
    (h : self.saturate prov left done w = .ok (o, n)) : o.facts ⊆ w.closure self.rules := by
  suffices hstep : ∀ C, documentedRules.Closed {r | r ∈ self.rules.rules} C → w.facts ⊆ C →
      o.facts ⊆ C from
    hstep _ Saturation.Rules.closed_closure Saturation.Rules.subset_closure
  intro C hC hw
  induction left generalizing done w with
  | zero => cases h
  | succ left ih =>
    have hpass := (pass_grown hC hw prov).within
    rw [saturate] at h
    cases hp : self.pass prov w with
    | mk w' flag =>
      rw [hp] at h hpass
      cases flag with
      | true => exact ih h hpass
      | false =>
        obtain ⟨rfl, -⟩ := Prod.mk.inj (Except.ok.inj h)
        exact hpass

omit [Blake3] in
/-- What a report adds is stated by the working copy it was read off. -/
theorem facts_report_subset
    (haxioms : report.derivedAxioms = derivedFrom Axiom.id o.axioms w.axioms)
    (hedges : report.derivedEdges = derivedFrom Edge.id o.edges w.edges) :
    report.facts ⊆ w.facts := by
  intro f hf
  rw [mem_facts_iff]
  obtain ⟨a, ha, rfl⟩ | ⟨e, he, rfl⟩ := hf
  · rw [haxioms] at ha
    obtain ⟨k, hk, -⟩ := mem_derivedFrom.mp ha
    exact Or.inl ⟨k, a, hk, rfl⟩
  · rw [hedges] at he
    obtain ⟨k, hk, -⟩ := mem_derivedFrom.mp he
    exact Or.inr ⟨k, e, hk, rfl⟩

/-- Materializing leaves the working copy of the run. -/
theorem materialize_ok {o' : Ontology} (h : self.materialize o id now later = (.ok report, o')) :
    ∃ n, self.saturate id self.maxIterations 0 o = .ok (o', n) := by
  rw [materialize] at h
  cases hrun : self.run o id now later with
  | error e => simp [hrun] at h
  | ok report' =>
    simp only [hrun, Prod.mk.injEq, Except.ok.injEq] at h
    obtain ⟨rfl, rfl⟩ := h
    obtain ⟨w, n, hsat, haxioms, hedges, -, -⟩ := run_ok hrun
    refine ⟨n, ?_⟩
    obtain ⟨hext, -⟩ := saturate_extended (.refl o) hsat
    rw [haxioms, hedges, Ontology.foldl_upsertAxiom, Ontology.foldl_upsertEdge,
      hext.axioms.insertAll_derived, hext.edges.insertAll_derived, hsat]
    rw [← hext.others]

end Reasoner

omit [Blake3] in
/-- Adding entries loses no fact. -/
theorem Ontology.Extended.facts_subset {prov : ProvenanceId} (h : Ontology.Extended prov o w) :
    o.facts ⊆ w.facts := by
  intro f hf
  rw [mem_facts_iff] at hf ⊢
  obtain ⟨k, a, ha, rfl⟩ | ⟨k, e, he, rfl⟩ := hf
  · exact Or.inl ⟨k, a, h.axioms.kept k a ha, rfl⟩
  · exact Or.inr ⟨k, e, h.edges.kept k e he, rfl⟩

/-- Whatever its rules, its cap and the ids of the stored entries, a run derives only what holds
in every model of the ontology, and materializing leaves the models as they are. -/
theorem Reasoner.run_sound (h : self.run o id now later = .ok report) :
    (∀ I : Interpretation.{u}, I.IsModel o → ∀ f ∈ report.facts, I.Satisfies f) ∧
      ∀ o', self.materialize o id now later = (.ok report, o') →
        ∀ I : Interpretation.{u}, I.IsModel o' ↔ I.IsModel o := by
  constructor
  · intro I hI f hf
    obtain ⟨w, n, hsat, haxioms, hedges, -, -⟩ := run_ok h
    have hclosure := facts_saturate hsat (facts_report_subset haxioms hedges hf)
    exact Interpretation.satisfies_closure hI.facts f hclosure
  · intro o' hmat I
    obtain ⟨n, hsat⟩ := materialize_ok hmat
    obtain ⟨hext, -⟩ := saturate_extended (.refl o) hsat
    have hnodes : o'.nodes = o.nodes := by rw [hext.others]
    constructor
    · intro hI
      refine ⟨hI.facts.mono hext.facts_subset, ?_⟩
      have htyped := hI.typed
      rwa [Interpretation.Typed, hnodes] at htyped
    · intro hI
      refine ⟨(Interpretation.satisfies_closure hI.facts).mono (facts_saturate hsat), ?_⟩
      rw [Interpretation.Typed, hnodes]
      exact hI.typed

end

/-- The classes a class was derived to be contained in, itself included. -/
def Above (C : Set Fact) (a : String) : Set String := {b | a = b ∨ .holds (.subClassOf a b) ∈ C}

namespace Interpretation

/-- A further point, in the given classes and unrelated to any other. -/
def adjoin (I : Interpretation.{u}) (P : Set String) : Interpretation.{u} where
  Point := Option I.Point
  classes c := {x | x.elim (c ∈ P) (· ∈ I.classes c)}
  properties p x y := ∃ a b, x = some a ∧ y = some b ∧ I.properties p a b
  node n := some (I.node n)

/-- What an axiom asks of the classes of a single point. -/
def Admits (P : Set String) : AxiomKind → Prop
  | .subClassOf sub sup => sub ∈ P → sup ∈ P
  | .equivalentClass left right => left ∈ P ↔ right ∈ P
  | .disjointWith left right => ¬(left ∈ P ∧ right ∈ P)
  | _ => True

variable {I : Interpretation.{u}} {P : Set String}

@[simp] theorem none_mem_adjoin {c : String} : none ∈ (I.adjoin P).classes c ↔ c ∈ P := Iff.rfl

@[simp] theorem some_mem_adjoin {c : String} {x : I.Point} :
    some x ∈ (I.adjoin P).classes c ↔ x ∈ I.classes c := Iff.rfl

theorem Holds.adjoin {k : AxiomKind} (hk : I.Holds k) (hP : Admits P k) : (I.adjoin P).Holds k := by
  cases k with
  | subClassOf sub sup =>
    rintro (_ | x) hx
    · exact hP hx
    · exact hk hx
  | equivalentClass left right =>
    ext x
    cases x with
    | none => exact hP
    | some x => exact Set.ext_iff.mp hk x
  | disjointWith left right =>
    refine Set.disjoint_left.mpr ?_
    rintro (_ | x) hl hr
    · exact hP ⟨hl, hr⟩
    · exact Set.disjoint_left.mp hk hl hr
  | domain property cls =>
    rintro _ _ ⟨x, y, rfl, rfl, hxy⟩
    exact hk x y hxy
  | range property cls =>
    rintro _ _ ⟨x, y, rfl, rfl, hxy⟩
    exact hk x y hxy
  | functional property =>
    rintro _ _ _ ⟨x, y, rfl, rfl, hxy⟩ ⟨x', z, hx, rfl, hxz⟩
    obtain rfl := Option.some.inj hx
    exact congrArg some (hk _ y z hxy hxz)
  | inverseFunctional property =>
    rintro _ _ _ ⟨x, z, rfl, rfl, hxz⟩ ⟨y, z', rfl, hz, hyz⟩
    obtain rfl := Option.some.inj hz
    exact congrArg some (hk x y _ hxz hyz)
  | inverseOf left right =>
    intro x y
    constructor
    · rintro ⟨a, b, rfl, rfl, hab⟩
      exact ⟨b, a, rfl, rfl, (hk a b).mp hab⟩
    · rintro ⟨b, a, rfl, rfl, hba⟩
      exact ⟨a, b, rfl, rfl, (hk a b).mpr hba⟩
  | symmetric property =>
    rintro _ _ ⟨x, y, rfl, rfl, hxy⟩
    exact ⟨y, x, rfl, rfl, hk x y hxy⟩
  | transitive property =>
    rintro _ _ _ ⟨x, y, rfl, rfl, hxy⟩ ⟨y', z, hy, rfl, hyz⟩
    obtain rfl := Option.some.inj hy
    exact ⟨x, z, rfl, rfl, hk x _ z hxy hyz⟩

/-- A model stays a model beside a point that every axiom admits. -/
theorem IsModel.adjoin {o : Ontology} (h : I.IsModel o)
    (hP : ∀ k, .holds k ∈ o.facts → Admits P k) : (I.adjoin P).IsModel o := by
  refine ⟨fun f hf => ?_, fun id n hn t ht => h.typed id n hn t ht⟩
  cases f with
  | holds k => exact Holds.adjoin (h.facts _ hf) (hP k hf)
  | relates s l t => exact ⟨_, _, rfl, rfl, h.facts _ hf⟩

end Interpretation

section

variable {F C : Set Fact} {A : String}

/-- What is above a class is closed under the subclass axioms. -/
theorem Above.step (hC : ∀ r : Rule, documentedRules.concl r C ⊆ C) {b c : String}
    (hb : b ∈ Above C A)
    (hbc : .holds (.subClassOf b c) ∈ C) : c ∈ Above C A := by
  obtain rfl | hab := hb
  · exact Or.inr hbc
  by_cases hac : A = c
  · exact Or.inl hac
  · exact Or.inr (hC .subClassTransitivity (.subClassTransitivity hab hbc hac))

/-- A point in the classes above a class is admitted unless two of them are disjoint. -/
theorem Above.admits (hC : ∀ r : Rule, documentedRules.concl r C ⊆ C) (hFC : F ⊆ C)
    (hclash : ∀ b ∈ Above C A, ∀ c ∈ Above C A, .holds (.disjointWith b c) ∉ F)
    {k : AxiomKind} (hk : .holds k ∈ F) : Interpretation.Admits (Above C A) k := by
  cases k with
  | subClassOf sub sup => exact fun hsub => Above.step hC hsub (hFC hk)
  | equivalentClass left right =>
    constructor
    · intro hl
      exact Above.step hC hl (hC .equivalentToSubClass (.equivalentToSubClass (hFC hk)))
    · intro hr
      exact Above.step hC hr (hC .equivalentToSubClass (.equivalentToSuperClass (hFC hk)))
  | disjointWith left right => exact fun h => hclash _ h.1 _ h.2 hk
  | _ => trivial

/-- In a model of what was derived, a class is contained in those above it. -/
theorem Above.subset {I : Interpretation.{u}} {b : String}
    (hI : Saturation.Satisfies Interpretation.Satisfies I C) (hb : b ∈ Above C A) :
    I.classes A ⊆ I.classes b := by
  obtain rfl | hab := hb
  · exact subset_rfl
  · exact hI _ hab

end

namespace Interpretation

/-- The pairs of named points that are equal or related by the given edges. -/
def restrict (I : Interpretation.{u}) (E : NodeId → String → NodeId → Prop) :
    Interpretation.{u} where
  Point := I.Point
  classes := I.classes
  properties p x y := I.properties p x y ∧ ∃ a b, x = I.node a ∧ y = I.node b ∧ (a = b ∨ E a p b)
  node := I.node

/-- What an axiom asks of the edges. -/
def Respects (E : NodeId → String → NodeId → Prop) : AxiomKind → Prop
  | .inverseOf left right => ∀ a b, E a left b ↔ E b right a
  | .symmetric property => ∀ a b, E a property b → E b property a
  | .transitive property => ∀ a b c, E a property b → E b property c → a ≠ c → E a property c
  | _ => True

variable {I : Interpretation.{u}} {E : NodeId → String → NodeId → Prop}

theorem Holds.restrict (hinj : Function.Injective I.node) {k : AxiomKind} (hk : I.Holds k)
    (hE : Respects E k) : (I.restrict E).Holds k := by
  cases k with
  | subClassOf sub sup => exact hk
  | equivalentClass left right => exact hk
  | disjointWith left right => exact hk
  | domain property cls => exact fun x y hxy => hk x y hxy.1
  | range property cls => exact fun x y hxy => hk x y hxy.1
  | functional property => exact fun x y z hxy hxz => hk x y z hxy.1 hxz.1
  | inverseFunctional property => exact fun x y z hxz hyz => hk x y z hxz.1 hyz.1
  | inverseOf left right =>
    intro x y
    constructor
    · rintro ⟨hxy, a, b, hx, hy, hab⟩
      exact ⟨(hk x y).mp hxy, b, a, hy, hx, hab.imp Eq.symm (hE a b).mp⟩
    · rintro ⟨hyx, b, a, hy, hx, hba⟩
      exact ⟨(hk x y).mpr hyx, a, b, hx, hy, hba.imp Eq.symm (hE a b).mpr⟩
  | symmetric property =>
    rintro x y ⟨hxy, a, b, hx, hy, hab⟩
    exact ⟨hk x y hxy, b, a, hy, hx, hab.imp Eq.symm (hE a b)⟩
  | transitive property =>
    rintro x y z ⟨hxy, a, b, hx, hy, hab⟩ ⟨hyz, b', c, hy', hz, hbc⟩
    obtain rfl := hinj (hy.symm.trans hy')
    refine ⟨hk x y z hxy hyz, a, c, hx, hz, ?_⟩
    obtain rfl | hab := hab
    · exact hbc
    obtain rfl | hbc := hbc
    · exact Or.inr hab
    by_cases hac : a = c
    · exact Or.inl hac
    · exact Or.inr (hE a b c hab hbc hac)

/-- A model in which nodes are told apart stays a model with only the given edges, if they
include the stated ones and respect the axioms. -/
theorem IsModel.restrict {o : Ontology} (h : I.IsModel o) (hinj : Function.Injective I.node)
    (hstated : ∀ a p b, .relates a p b ∈ o.facts → E a p b)
    (hE : ∀ k, .holds k ∈ o.facts → Respects E k) : (I.restrict E).IsModel o := by
  refine ⟨fun f hf => ?_, h.typed⟩
  cases f with
  | holds k => exact Holds.restrict hinj (h.facts _ hf) (hE k hf)
  | relates a p b => exact ⟨h.facts _ hf, a, b, rfl, rfl, Or.inr (hstated a p b hf)⟩

end Interpretation

/-- The derived edges respect every axiom. -/
theorem respects_closed {C : Set Fact} (hC : ∀ r : Rule, documentedRules.concl r C ⊆ C)
    {k : AxiomKind} (hk : .holds k ∈ C) :
    Interpretation.Respects (fun a p b => .relates a p b ∈ C) k := by
  cases k with
  | inverseOf left right =>
    intro a b
    exact ⟨fun h => hC .inverseOfMaterializes (.inverseForwards hk h),
      fun h => hC .inverseOfMaterializes (.inverseBackwards hk h)⟩
  | symmetric property => exact fun a b h => hC .propertySymmetry (.propertySymmetry hk h)
  | transitive property =>
    exact fun a b c hab hbc hac => hC .propertyTransitivity (.propertyTransitivity hk hab hbc hac)
  | _ => trivial

section

variable [Blake3] {o : Ontology} {self : Reasoner} {report : ReasoningReport}
  {id : ProvenanceId} {now later : DateTime}

/-- With every rule active, a run over a consistent ontology reports exactly the subclass axioms
that hold in all models, but for what holds of a class because two classes above it are disjoint. -/
theorem Reasoner.subClassOf_entailed_iff (hrules : ∀ r, r ∈ self.rules.rules) (hids : o.IdsComputed)
    (hinj : Set.InjOn Fact.id (o.closure self.rules)) (h : self.run o id now later = .ok report)
    (hmodel : ∃ I : Interpretation.{u}, I.IsModel o) (A B : String) :
    (∀ I : Interpretation.{u}, I.IsModel o → I.classes A ⊆ I.classes B) ↔
      B ∈ Above (o.facts ∪ report.facts) A ∨
        ∃ b ∈ Above (o.facts ∪ report.facts) A, ∃ c ∈ Above (o.facts ∪ report.facts) A,
          .holds (.disjointWith b c) ∈ o.facts := by
  obtain ⟨hunion, -⟩ := run_facts hids hinj h
  have hC : ∀ r : Rule, documentedRules.concl r (o.closure self.rules) ⊆ o.closure self.rules :=
    fun r => Saturation.Rules.closed_closure r (hrules r)
  have hstated : o.facts ⊆ o.closure self.rules := Saturation.Rules.subset_closure
  rw [hunion]
  constructor
  · intro hall
    by_contra hnot
    push Not at hnot
    obtain ⟨hB, hclash⟩ := hnot
    obtain ⟨I, hI⟩ := hmodel
    have hJ := hI.adjoin fun k hk => Above.admits hC hstated hclash hk
    have hA : none ∈ (I.adjoin (Above (o.closure self.rules) A)).classes A := Or.inl rfl
    exact hB (hall _ hJ hA)
  · rintro (hB | ⟨b, hb, c, hc, hbc⟩) I hI
    · exact Above.subset (Interpretation.satisfies_closure hI.facts) hB
    · have hsat : ∀ f ∈ o.closure self.rules, I.Satisfies f :=
        Interpretation.satisfies_closure hI.facts
      intro x hx
      have hdisjoint : Disjoint (I.classes b) (I.classes c) := hI.facts _ hbc
      exact absurd (Above.subset hsat hc hx)
        (Set.disjoint_left.mp hdisjoint (Above.subset hsat hb hx))

/-- With every rule active, a run over an ontology that has a model telling its nodes apart reports
exactly the edges between distinct nodes that hold in all models. -/
theorem Reasoner.relates_entailed_iff (hrules : ∀ r, r ∈ self.rules.rules) (hids : o.IdsComputed)
    (hinj : Set.InjOn Fact.id (o.closure self.rules)) (h : self.run o id now later = .ok report)
    (hmodel : ∃ I : Interpretation.{u}, I.IsModel o ∧ Function.Injective I.node) {a b : NodeId}
    (hab : a ≠ b) (p : String) :
    (∀ I : Interpretation.{u}, I.IsModel o → I.properties p (I.node a) (I.node b)) ↔
      .relates a p b ∈ o.facts ∪ report.facts := by
  obtain ⟨hunion, -⟩ := run_facts hids hinj h
  have hC : ∀ r : Rule, documentedRules.concl r (o.closure self.rules) ⊆ o.closure self.rules :=
    fun r => Saturation.Rules.closed_closure r (hrules r)
  have hstated : o.facts ⊆ o.closure self.rules := Saturation.Rules.subset_closure
  rw [hunion]
  constructor
  · intro hall
    obtain ⟨I, hI, hnode⟩ := hmodel
    have hJ :=
      hI.restrict hnode (fun _ _ _ hf => hstated hf) fun k hk => respects_closed hC (hstated hk)
    obtain ⟨-, a', b', ha, hb, hrel⟩ := hall _ hJ
    obtain rfl := hnode ha
    obtain rfl := hnode hb
    exact hrel.resolve_left hab
  · intro hf I hI
    exact Interpretation.satisfies_closure hI.facts _ hf

end

private def ada : NodeId := ⟨Vector.replicate 32 1⟩

private def ben : NodeId := ⟨Vector.replicate 32 2⟩

/-- Students are persons and no cities, and a symmetric edge is stated in one direction. -/
private def acquaintances : Ontology :=
  (((Ontology.empty.upsertAxiom
    (@Axiom.new Blake3.beginning (.subClassOf "Student" "Person"))).upsertAxiom
    (@Axiom.new Blake3.beginning (.disjointWith "Person" "City"))).upsertAxiom
      (@Axiom.new Blake3.beginning (.symmetric "knows"))).upsertEdge
        (@Edge.between Blake3.beginning ada "knows" ben)

private def statedAcquaintances : List Fact :=
  [.holds (.subClassOf "Student" "Person"), .holds (.disjointWith "Person" "City"),
    .holds (.symmetric "knows"), .relates ada "knows" ben]

private theorem get_acquaintances :
    (∀ (k : AxiomId) (a : Axiom), acquaintances.axioms[k]? = some a →
      a.id = k ∧ a = @Axiom.new Blake3.beginning a.kind ∧ a.fact ∈ statedAcquaintances) ∧
    ∀ (k : EdgeId) (e : Edge), acquaintances.edges[k]? = some e →
      e.id = k ∧ e = @Edge.between Blake3.beginning ada "knows" ben := by
  constructor
  · intro k a ha
    simp only [acquaintances, Ontology.upsertAxiom, Ontology.upsertEdge, Ontology.empty,
      BTreeMap.get_insert] at ha
    split at ha
    · next hk =>
      obtain rfl := Option.some.inj ha
      exact ⟨hk, rfl, by simp [statedAcquaintances, Axiom.fact, Axiom.new]⟩
    · split at ha
      · next hk =>
        obtain rfl := Option.some.inj ha
        exact ⟨hk, rfl, by simp [statedAcquaintances, Axiom.fact, Axiom.new]⟩
      · split at ha
        · next hk =>
          obtain rfl := Option.some.inj ha
          exact ⟨hk, rfl, by simp [statedAcquaintances, Axiom.fact, Axiom.new]⟩
        · simp at ha
  · intro k e he
    simp only [acquaintances, Ontology.upsertAxiom, Ontology.upsertEdge, Ontology.empty,
      BTreeMap.get_insert] at he
    split at he
    · next hk => exact ⟨Option.some.inj he ▸ hk, (Option.some.inj he).symm⟩
    · simp at he

private theorem idsComputed_acquaintances :
    @Ontology.IdsComputed Blake3.beginning acquaintances := by
  let _ := Blake3.beginning
  refine ⟨fun k a ha => ?_, fun k e he => ?_⟩
  · obtain ⟨hk, hnew, -⟩ := get_acquaintances.1 k a ha
    refine ⟨hk, congrArg Sum.inl ?_⟩
    rw [← hk]
    exact (congrArg Axiom.id hnew).symm
  · obtain ⟨hk, rfl⟩ := get_acquaintances.2 k e he
    exact ⟨hk, congrArg Sum.inr hk⟩

private theorem facts_acquaintances {f : Fact} (hf : f ∈ acquaintances.facts) :
    f ∈ statedAcquaintances := by
  obtain ⟨k, a, ha, rfl⟩ | ⟨k, e, he, rfl⟩ := mem_facts_iff.mp hf
  · exact (get_acquaintances.1 k a ha).2.2
  · obtain ⟨-, rfl⟩ := get_acquaintances.2 k e he
    simp [statedAcquaintances, Edge.fact, Edge.between]

private theorem closure_acquaintances {f : Fact}
    (hf : f ∈ acquaintances.closure Reasoner.new.rules) :
    f ∈ statedAcquaintances ++ [.relates ben "knows" ada] := by
  let G : Set Fact := {f | f ∈ statedAcquaintances ++ [.relates ben "knows" ada]}
  have hG : ∀ f, f ∈ G ↔ f ∈ statedAcquaintances ++ [.relates ben "knows" ada] := fun _ => Iff.rfl
  have hclosed : documentedRules.Closed {r | r ∈ Reasoner.new.rules.rules} G := by
    intro r _ f hf
    have hf : r.Concludes G f := hf
    cases hf with
    | subClassTransitivity hab hbc =>
      simp only [hG, statedAcquaintances, List.cons_append, List.nil_append, List.mem_cons,
        Fact.holds.injEq, AxiomKind.subClassOf.injEq, reduceCtorEq, List.not_mem_nil,
        or_false] at hab hbc
      obtain ⟨-, hb⟩ := hab
      rw [hb] at hbc
      exact absurd hbc.1 (by decide)
    | equivalentSymmetry hab => simp [hG, statedAcquaintances] at hab
    | equivalentToSubClass hab => simp [hG, statedAcquaintances] at hab
    | equivalentToSuperClass hab => simp [hG, statedAcquaintances] at hab
    | inverseOfSymmetry hpq => simp [hG, statedAcquaintances] at hpq
    | propertySymmetry hp hab =>
      simp [hG, statedAcquaintances] at hp hab
      obtain ⟨rfl, rfl, rfl⟩ | ⟨rfl, rfl, rfl⟩ := hab <;> simp [hG, statedAcquaintances]
    | propertyTransitivity hp => simp [hG, statedAcquaintances] at hp
    | inverseForwards hpq => simp [hG, statedAcquaintances] at hpq
    | inverseBackwards hpq => simp [hG, statedAcquaintances] at hpq
  exact Saturation.Rules.closure_subset
    (fun f hf => List.mem_append_left _ (facts_acquaintances hf)) hclosed hf

private theorem injOn_acquaintances :
    Set.InjOn (@Fact.id Blake3.beginning) (acquaintances.closure Reasoner.new.rules) := by
  intro f hf g hg hid
  have hf := closure_acquaintances hf
  have hg := closure_acquaintances hg
  simp only [statedAcquaintances, List.cons_append, List.nil_append, List.mem_cons,
    List.not_mem_nil, or_false] at hf hg
  obtain rfl | rfl | rfl | rfl | rfl := hf <;> obtain rfl | rfl | rfl | rfl | rfl := hg <;>
    first | rfl | exact absurd hid (by decide +kernel)

private theorem run_acquaintances : ∃ report,
    @Reasoner.run Blake3.beginning .new acquaintances ⟨Vector.replicate 32 0⟩ .epoch .epoch =
      .ok report := by
  have hok : (@Reasoner.run Blake3.beginning .new acquaintances ⟨Vector.replicate 32 0⟩ .epoch
      .epoch).toOption.isSome = true := by decide +kernel
  cases hrun : @Reasoner.run Blake3.beginning .new acquaintances ⟨Vector.replicate 32 0⟩ .epoch
    .epoch with
  | ok report => exact ⟨report, rfl⟩
  | error e =>
    rw [hrun] at hok
    cases hok

/-- Everybody knows everybody, and there are no cities. -/
private def village : Interpretation.{0} where
  Point := NodeId
  classes c := {_x | c ≠ "City"}
  properties _ _ _ := True
  node n := n

private theorem village_isModel : village.IsModel acquaintances := by
  constructor
  · intro f hf
    have hf := facts_acquaintances hf
    simp only [statedAcquaintances, List.mem_cons, List.not_mem_nil, or_false] at hf
    obtain rfl | rfl | rfl | rfl := hf
    · exact fun x _ => (by decide : "Person" ≠ "City")
    · exact Set.disjoint_left.mpr fun x _ hx => hx rfl
    · exact fun _ _ _ => trivial
    · trivial
  · intro id n hn
    simp [acquaintances, Ontology.upsertAxiom, Ontology.upsertEdge, Ontology.empty] at hn

/-- What is derived of the acquaintances holds in the village. -/
theorem Reasoner.run_sound_acquaintances : ∃ report,
    @Reasoner.run Blake3.beginning .new acquaintances ⟨Vector.replicate 32 0⟩ .epoch .epoch =
    .ok report ∧
      ∀ f ∈ report.facts, village.Satisfies f := by
  obtain ⟨report, hrun⟩ := run_acquaintances
  let _ := Blake3.beginning
  exact ⟨report, hrun, (Reasoner.run_sound hrun).1 village village_isModel⟩

/-- Students are no cities. -/
theorem Reasoner.subClassOf_entailed_acquaintances : ∃ report,
    @Reasoner.run Blake3.beginning .new acquaintances ⟨Vector.replicate 32 0⟩ .epoch .epoch =
    .ok report ∧
      "City" ∉ Above (acquaintances.facts ∪ report.facts) "Student" := by
  obtain ⟨report, hrun⟩ := run_acquaintances
  let _ := Blake3.beginning
  have hiff := Reasoner.subClassOf_entailed_iff Reasoner.mem_rules_new idsComputed_acquaintances
    injOn_acquaintances hrun ⟨village, village_isModel⟩ "Student" "City"
  refine ⟨report, hrun, fun hcity => ?_⟩
  have hstudent : ada ∈ village.classes "Student" := (by decide : "Student" ≠ "City")
  exact hiff.mpr (Or.inl hcity) village village_isModel hstudent rfl

/-- Who is known knows. -/
theorem Reasoner.relates_entailed_acquaintances : ∃ report,
    @Reasoner.run Blake3.beginning .new acquaintances ⟨Vector.replicate 32 0⟩ .epoch .epoch =
    .ok report ∧
      .relates ben "knows" ada ∈ acquaintances.facts ∪ report.facts := by
  obtain ⟨report, hrun⟩ := run_acquaintances
  let _ := Blake3.beginning
  have hiff := Reasoner.relates_entailed_iff Reasoner.mem_rules_new idsComputed_acquaintances
    injOn_acquaintances hrun ⟨village, village_isModel, fun _ _ h => h⟩ 
    (by decide : ben ≠ ada) "knows"
  refine ⟨report, hrun, hiff.mp fun I hI => ?_⟩
  have hknows :=
    hI.facts _ (mem_facts_iff.mpr (Or.inr ⟨_, _, Std.ExtTreeMap.getElem?_insert_self, rfl⟩))
  have hsymmetric :=
    hI.facts _ (mem_facts_iff.mpr (Or.inl ⟨_, _, Std.ExtTreeMap.getElem?_insert_self, rfl⟩))
  exact hsymmetric _ _ hknows

end AtomrOntology
