import AtomrOntology.Reason.Materialize

/-!
# How many passes a run takes

The rules form no name of their own, so all they derive lies among the axioms and edges
that the names of the ontology form. A pass that reports something new has stated a fact
that was not stated before it, whatever ids the stored entries have.
-/

namespace AtomrOntology

/-- The operands of an axiom that name classes. -/
def AxiomKind.classes : AxiomKind → List String
  | .subClassOf sub sup => [sub, sup]
  | .equivalentClass left right => [left, right]
  | .disjointWith left right => [left, right]
  | .domain _ cls => [cls]
  | .range _ cls => [cls]
  | _ => []

/-- The operands of an axiom that name properties. -/
def AxiomKind.properties : AxiomKind → List String
  | .domain property _ => [property]
  | .range property _ => [property]
  | .functional property => [property]
  | .inverseFunctional property => [property]
  | .inverseOf left right => [left, right]
  | .symmetric property => [property]
  | .transitive property => [property]
  | _ => []

/-- Names of classes and properties, and node ids. -/
structure Names where
  classes : Set String
  properties : Set String
  nodes : Set NodeId

/-- The names that occur in the axioms and edges of an ontology. -/
def Ontology.names (o : Ontology) : Names where
  classes := {c | ∃ a ∈ o.axioms.vals, c ∈ a.kind.classes}
  properties := {p | (∃ a ∈ o.axioms.vals, p ∈ a.kind.properties) ∨ ∃ e ∈ o.edges.vals, e.label = p}
  nodes := {n | ∃ e ∈ o.edges.vals, e.source = n ∨ e.target = n}

namespace Names

/-- The axioms that names form. -/
def axioms (n : Names) : Set AxiomKind :=
  {k | (∀ c ∈ k.classes, c ∈ n.classes) ∧ ∀ p ∈ k.properties, p ∈ n.properties}

/-- The axioms and edges that names form. -/
def facts (n : Names) : Set Fact :=
  Fact.holds '' n.axioms ∪
    {f | ∃ s ∈ n.nodes, ∃ l ∈ n.properties, ∃ t ∈ n.nodes, f = .relates s l t}

variable {n : Names}

@[simp] theorem holds_mem_facts {k : AxiomKind} : .holds k ∈ n.facts ↔
    (∀ c ∈ k.classes, c ∈ n.classes) ∧ ∀ p ∈ k.properties, p ∈ n.properties := by
  simp [facts, axioms]

@[simp] theorem relates_mem_facts {s t : NodeId} {l : String} :
    .relates s l t ∈ n.facts ↔ s ∈ n.nodes ∧ l ∈ n.properties ∧ t ∈ n.nodes := by
  simp [facts]

/-- The axiom of the given shape on two names, of which the shapes of one operand use the
first. -/
private def shape : Fin 10 → String → String → AxiomKind
  | 0, a, b => .subClassOf a b
  | 1, a, b => .equivalentClass a b
  | 2, a, b => .disjointWith a b
  | 3, a, b => .domain a b
  | 4, a, b => .range a b
  | 5, a, _ => .functional a
  | 6, a, _ => .inverseFunctional a
  | 7, a, b => .inverseOf a b
  | 8, a, _ => .symmetric a
  | 9, a, _ => .transitive a

private theorem exists_shape (k : AxiomKind) : ∃ i a b, shape i a b = k ∧
    a ∈ k.classes ++ k.properties ∧ b ∈ k.classes ++ k.properties := by
  cases k with
  | subClassOf a b => exact ⟨0, a, b, rfl, by simp [AxiomKind.classes], by simp [AxiomKind.classes]⟩
  | equivalentClass a b =>
    exact ⟨1, a, b, rfl, by simp [AxiomKind.classes], by simp [AxiomKind.classes]⟩
  | disjointWith a b =>
    exact ⟨2, a, b, rfl, by simp [AxiomKind.classes], by simp [AxiomKind.classes]⟩
  | domain a b => exact ⟨3, a, b, rfl, by simp [AxiomKind.properties], by simp [AxiomKind.classes]⟩
  | range a b => exact ⟨4, a, b, rfl, by simp [AxiomKind.properties], by simp [AxiomKind.classes]⟩
  | functional a =>
    exact ⟨5, a, a, rfl, by simp [AxiomKind.properties], by simp [AxiomKind.properties]⟩
  | inverseFunctional a =>
    exact ⟨6, a, a, rfl, by simp [AxiomKind.properties], by simp [AxiomKind.properties]⟩
  | inverseOf a b =>
    exact ⟨7, a, b, rfl, by simp [AxiomKind.properties], by simp [AxiomKind.properties]⟩
  | symmetric a =>
    exact ⟨8, a, a, rfl, by simp [AxiomKind.properties], by simp [AxiomKind.properties]⟩
  | transitive a =>
    exact ⟨9, a, a, rfl, by simp [AxiomKind.properties], by simp [AxiomKind.properties]⟩

/-- Finitely many names form finitely many axioms. -/
theorem finite_axioms (hc : n.classes.Finite) (hp : n.properties.Finite) : n.axioms.Finite := by
  have hnames := hc.union hp
  refine ((Set.finite_univ.prod (hnames.prod hnames)).image
    fun x : Fin 10 × String × String => shape x.1 x.2.1 x.2.2).subset ?_
  intro k hk
  have hoperands : ∀ s ∈ k.classes ++ k.properties, s ∈ n.classes ∪ n.properties := by
    intro s hs
    obtain hs | hs := List.mem_append.mp hs
    · exact Or.inl (hk.1 s hs)
    · exact Or.inr (hk.2 s hs)
  obtain ⟨i, a, b, hk, ha, hb⟩ := exists_shape k
  exact ⟨(i, a, b), ⟨trivial, hoperands a ha, hoperands b hb⟩, hk⟩

/-- Finitely many names form finitely many facts. -/
theorem finite_facts (hc : n.classes.Finite) (hp : n.properties.Finite) (hn : n.nodes.Finite) :
    n.facts.Finite := by
  refine ((finite_axioms hc hp).image Fact.holds).union ?_
  refine ((hn.prod (hp.prod hn)).image
    fun x : NodeId × String × NodeId => Fact.relates x.1 x.2.1 x.2.2).subset ?_
  intro f hf
  obtain ⟨s, hs, l, hl, t, ht, rfl⟩ := hf
  exact ⟨(s, l, t), ⟨hs, hl, ht⟩, rfl⟩

/-- No rule leaves what names form. -/
theorem closed_facts (rules : Set Rule) : documentedRules.Closed rules n.facts := by
  intro r _ f hf
  have hf : r.Concludes n.facts f := hf
  cases hf with
  | subClassTransitivity hab hbc hne =>
    simp only [holds_mem_facts, AxiomKind.classes, AxiomKind.properties] at hab hbc ⊢
    grind
  | equivalentSymmetry hab =>
    simp only [holds_mem_facts, AxiomKind.classes, AxiomKind.properties] at hab ⊢
    grind
  | equivalentToSubClass hab =>
    simp only [holds_mem_facts, AxiomKind.classes, AxiomKind.properties] at hab ⊢
    exact hab
  | equivalentToSuperClass hab =>
    simp only [holds_mem_facts, AxiomKind.classes, AxiomKind.properties] at hab ⊢
    grind
  | inverseOfSymmetry hpq =>
    simp only [holds_mem_facts, AxiomKind.classes, AxiomKind.properties] at hpq ⊢
    grind
  | propertySymmetry hp hab =>
    obtain ⟨ha, hp, hb⟩ := relates_mem_facts.mp hab
    exact relates_mem_facts.mpr ⟨hb, hp, ha⟩
  | propertyTransitivity hp hab hbc hne =>
    obtain ⟨ha, hp, -⟩ := relates_mem_facts.mp hab
    obtain ⟨-, -, hc⟩ := relates_mem_facts.mp hbc
    exact relates_mem_facts.mpr ⟨ha, hp, hc⟩
  | inverseForwards hpq hab =>
    obtain ⟨ha, -, hb⟩ := relates_mem_facts.mp hab
    exact relates_mem_facts.mpr ⟨hb, (holds_mem_facts.mp hpq).2 _ (by simp [AxiomKind.properties]),
      ha⟩
  | inverseBackwards hpq hab =>
    obtain ⟨ha, -, hb⟩ := relates_mem_facts.mp hab
    exact relates_mem_facts.mpr ⟨hb, (holds_mem_facts.mp hpq).2 _ (by simp [AxiomKind.properties]),
      ha⟩

end Names

namespace Ontology

variable (o : Ontology)

theorem finite_names_facts : o.names.facts.Finite := by
  have haxioms : ∀ names : AxiomKind → List String,
      {c | ∃ a ∈ o.axioms.vals, c ∈ names a.kind}.Finite := by
    intro names
    refine (o.axioms.vals.flatMap fun a => names a.kind).finite_toSet.subset fun c hc => ?_
    exact List.mem_flatMap.mpr hc
  refine Names.finite_facts (haxioms AxiomKind.classes) ?_ ?_
  · refine (haxioms AxiomKind.properties).union ?_
    refine (o.edges.vals.map Edge.label).finite_toSet.subset fun p hp => ?_
    exact List.mem_map.mpr hp
  · refine (o.edges.vals.flatMap fun e => [e.source, e.target]).finite_toSet.subset fun n hn => ?_
    obtain ⟨e, he, hn⟩ := hn
    exact List.mem_flatMap.mpr ⟨e, he, by simpa [eq_comm] using hn⟩

/-- The facts an ontology states are formed from its names. -/
theorem facts_subset_names : o.facts ⊆ o.names.facts := by
  intro f hf
  obtain ⟨a, ha, rfl⟩ | ⟨e, he, rfl⟩ := hf
  · exact Names.holds_mem_facts.mpr ⟨fun c hc => ⟨a, ha, hc⟩, fun p hp => Or.inl ⟨a, ha, hp⟩⟩
  · exact Names.relates_mem_facts.mpr ⟨⟨e, he, Or.inl rfl⟩, Or.inr ⟨e, he, rfl⟩, e, he, Or.inr rfl⟩

end Ontology

variable [Blake3] {o : Ontology} {F C : Set Fact} {self : Reasoner}

/-- A working copy that states `F` within `C`, and more than `F` once the flag is up. -/
structure Grown (F C : Set Fact) (s : Ontology × Bool) : Prop where
  within : s.1.facts ⊆ C
  keeps : F ⊆ s.1.facts
  news : s.2 = true → ∃ f ∈ s.1.facts, f ∉ F

theorem Grown.addAxiom {s : Ontology × Bool} {k : AxiomKind} (h : Grown F C s)
    (prov : ProvenanceId) (hk : .holds k ∈ C) (hnew : .holds k ∉ F) :
    Grown F C (Reasoner.addAxiom prov s (Axiom.new k)) := by
  have hid : ((Axiom.new k).withProvenance prov).id = (Axiom.new k).id := rfl
  simp only [Reasoner.addAxiom, hid]
  cases hc : s.1.axioms.contains (Axiom.new k).id with
  | true => exact h
  | false =>
    rw [if_neg (by simp)]
    have hmem : ∀ f, f ∈ (s.1.upsertAxiom ((Axiom.new k).withProvenance prov)).facts ↔
        .holds k = f ∨ f ∈ s.1.facts := fun f => mem_facts_upsertAxiom hc
    refine ⟨fun f hf => ?_, fun f hf => (hmem f).mpr (Or.inr (h.keeps hf)),
      fun _ => ⟨_, (hmem _).mpr (Or.inl rfl), hnew⟩⟩
    obtain rfl | hf := (hmem f).mp hf
    · exact hk
    · exact h.within hf

theorem Grown.addEdge {s : Ontology × Bool} {a b : NodeId} {l : String} (h : Grown F C s)
    (hf : .relates a l b ∈ C) (hnew : .relates a l b ∉ F) :
    Grown F C (Reasoner.addEdge s (Edge.between a l b)) := by
  simp only [Reasoner.addEdge]
  cases hc : s.1.edges.contains (Edge.between a l b).id with
  | true => exact h
  | false =>
    rw [if_neg (by simp)]
    have hmem : ∀ f, f ∈ (s.1.upsertEdge (Edge.between a l b)).facts ↔
        .relates a l b = f ∨ f ∈ s.1.facts := fun f => mem_facts_upsertEdge hc
    refine ⟨fun f hf' => ?_, fun f hf' => (hmem f).mpr (Or.inr (h.keeps hf')),
      fun _ => ⟨_, (hmem _).mpr (Or.inl rfl), hnew⟩⟩
    obtain rfl | hf' := (hmem f).mp hf'
    · exact hf
    · exact h.within hf'

omit [Blake3] in
private theorem foldl_grown {β : Type} {add : Ontology × Bool → β → Ontology × Bool} {xs : List β}
    {s : Ontology × Bool} (hs : Grown F C s)
    (hadd : ∀ x ∈ xs, ∀ s, Grown F C s → Grown F C (add s x)) : Grown F C (xs.foldl add s) := by
  induction xs generalizing s with
  | nil => exact hs
  | cons x xs ih =>
    exact ih (hadd x List.mem_cons_self s hs) fun y hy => hadd y (List.mem_cons_of_mem x hy)

/-- What a rule adds was not stated before the pass: it emits nothing that is stated when it
is applied. -/
theorem applyRule_grown {s : Ontology × Bool} (h : Grown F C s) (prov : ProvenanceId) {rule : Rule}
    (hC : ∀ f, rule.Concludes C f → f ∈ C) : Grown F C (Reasoner.applyRule prov s rule) := by
  have hout : ∀ f ∈ (rule.apply s.1).facts, f ∈ C ∧ f ∉ F := by
    intro f hf
    obtain ⟨hconcl, hnew⟩ := (rule.exact s.1 f).mp hf
    exact ⟨hC f (hconcl.mono h.within), fun hF => hnew (h.keeps hF)⟩
  have hfresh := rule.fresh s.1
  refine foldl_grown (foldl_grown h ?_) ?_
  · intro a ha s hs
    obtain ⟨hin, hnew⟩ := hout a.fact (Or.inl ⟨a, ha, rfl⟩)
    rw [hfresh.axioms a ha]
    exact hs.addAxiom prov hin hnew
  · intro e he s hs
    obtain ⟨hin, hnew⟩ := hout e.fact (Or.inr ⟨e, he, rfl⟩)
    rw [hfresh.edges e he]
    exact hs.addEdge hin hnew

theorem pass_grown (hC : documentedRules.Closed {r | r ∈ self.rules.rules} C) (ho : o.facts ⊆ C)
    (prov : ProvenanceId) : Grown o.facts C (self.pass prov o) := by
  refine foldl_grown ⟨ho, subset_rfl, by simp⟩ fun r hr s hs => ?_
  exact applyRule_grown hs prov fun f hf => hC r hr hf

namespace Reasoner

/-- Pass after pass the facts that are left get fewer, so a cap above their number is not
reached. -/
theorem saturate_ok (hfin : C.Finite) (hC : documentedRules.Closed {r | r ∈ self.rules.rules} C)
    (prov : ProvenanceId) {left : Nat} (done : Nat) (ho : o.facts ⊆ C)
    (hleft : (C \ o.facts).ncard < left) :
    ∃ w n, self.saturate prov left done o = .ok (w, done + n) ∧ n ≤ 1 + (C \ o.facts).ncard ∧
      ∀ k, k + 1 < n → ∃ f ∈ C, f ∉ (self.working prov o k).facts ∧
        f ∈ (self.working prov o (k + 1)).facts := by
  induction left generalizing done o with
  | zero => omega
  | succ left ih =>
    have hgrown := pass_grown hC ho prov
    rw [saturate]
    cases hp : self.pass prov o with
    | mk o' flag =>
      rw [hp] at hgrown
      cases flag with
      | false => exact ⟨o', 1, rfl, by omega, fun k hk => by omega⟩
      | true =>
        have hwithin : o'.facts ⊆ C := hgrown.within
        obtain ⟨f, hf, hnew⟩ := hgrown.news rfl
        have hfewer : (C \ o'.facts).ncard < (C \ o.facts).ncard := by
          refine Set.ncard_lt_ncard ⟨Set.sdiff_subset_sdiff_right hgrown.keeps, fun hsub => ?_⟩
            (hfin.subset Set.sdiff_subset)
          exact (hsub ⟨hwithin hf, hnew⟩).2 hf
        obtain ⟨w, n, hsat, hn, hrounds⟩ := ih (done + 1) hwithin (by omega)
        refine ⟨w, n + 1, by rw [← Nat.add_assoc, Nat.add_right_comm]; exact hsat, by omega, ?_⟩
        intro k hk
        cases k with
        | zero => exact ⟨f, hgrown.within hf, hnew, by simpa [working, hp] using hf⟩
        | succ k =>
          have hstep : ∀ j, self.working prov o (j + 1) = self.working prov o' j := by
            intro j
            rw [working, Function.iterate_succ_apply, hp, working]
          rw [hstep, hstep]
          exact hrounds k (by omega)

/-- A run that finds its fixed point reports the passes it took, and what they added. -/
theorem run_of_saturate {id : ProvenanceId} {w : Ontology} {n : Nat} (now later : DateTime)
    (h : self.saturate id self.maxIterations 0 o = .ok (w, n)) :
    ∃ report, self.run o id now later = .ok report ∧ report.iterations = n ∧
      report.derivedAxioms = derivedFrom Axiom.id o.axioms w.axioms ∧
      report.derivedEdges = derivedFrom Edge.id o.edges w.edges := by
  have hid : (((Activity.started "reasoning" id now).by self.agent).withAttribute "rules"
      ⟨Codec.u64.ser (UInt64.ofNat self.rules.rules.length), rfl⟩).id = id := rfl
  simp only [run, hid, h]
  exact ⟨_, rfl, rfl, rfl, rfl⟩

/-- Whatever the rules and the ids of the stored entries, a cap above the number of facts
that the names of the ontology form is enough: every pass but the last states a new one. What
is derived is what the passes add, until a pass adds nothing. -/
theorem run_ok_of_names (self : Reasoner) (o : Ontology) : o.names.facts.Finite ∧
    ∃ N ≤ 1 + o.names.facts.ncard, ∀ cap ≥ N, ∀ (id : ProvenanceId) (now later : DateTime),
      ∃ report, (self.withMaxIterations cap).run o id now later = .ok report ∧
        report.iterations ≤ N ∧
        report.derivedAxioms =
          derivedFrom Axiom.id o.axioms (self.working id o report.iterations).axioms ∧
        report.derivedEdges =
          derivedFrom Edge.id o.edges (self.working id o report.iterations).edges ∧
        (self.pass id (self.working id o report.iterations)).2 = false ∧
        ∀ k, k + 1 < report.iterations → ∃ f ∈ o.names.facts,
          f ∉ (self.working id o k).facts ∧ f ∈ (self.working id o (k + 1)).facts := by
  have hfin := o.finite_names_facts
  have hle : (o.names.facts \ o.facts).ncard ≤ o.names.facts.ncard :=
    Set.ncard_le_ncard Set.sdiff_subset hfin
  refine ⟨hfin, 1 + (o.names.facts \ o.facts).ncard, by omega, fun cap hcap id now later => ?_⟩
  have hcap' : (o.names.facts \ o.facts).ncard < (self.withMaxIterations cap).maxIterations := by
    have hmax : (self.withMaxIterations cap).maxIterations = max cap 1 := rfl
    omega
  obtain ⟨w, n, hsat, hn, hrounds⟩ := saturate_ok hfin
    (Names.closed_facts {r | r ∈ (self.withMaxIterations cap).rules.rules}) id 0
    o.facts_subset_names hcap'
  obtain ⟨report, hrun, hiterations, haxioms, hedges⟩ := run_of_saturate now later hsat
  obtain ⟨-, hquiet⟩ := saturate_extended (.refl o) hsat
  obtain ⟨passes, hpasses, hworking⟩ := saturate_working hsat
  obtain rfl := Nat.add_left_cancel hpasses
  rw [Nat.zero_add] at hiterations
  rw [← hiterations] at hn hrounds hworking
  rw [hworking] at haxioms hedges hquiet
  exact ⟨report, hrun, hn, haxioms, hedges, hquiet, hrounds⟩

end Reasoner

end AtomrOntology
