import AtomrOntology.Reason.Conclusions
import AtomrOntology.Reason.Engine

/-!
# A run reaches the least fixed point

While ids are computed from bodies and never collide, adding an axiom or an edge adds
its fact, so every pass keeps the working copy between the original facts and their
closure, and a pass that adds nothing leaves a closed set.
-/

namespace AtomrOntology

section

variable [Blake3]

/-- The id computed for a fact. -/
def Fact.id : Fact → AxiomId ⊕ EdgeId
  | .holds k => .inl (Axiom.new k).id
  | .relates s l t => .inr (Edge.between s l t).id

/-- Every axiom and edge is stored under the id computed from its body. -/
structure Ontology.IdsComputed (o : Ontology) : Prop where
  axioms : ∀ (id : AxiomId) (a : Axiom), o.axioms[id]? = some a → a.id = id ∧ a.fact.id = .inl id
  edges : ∀ (id : EdgeId) (e : Edge), o.edges[id]? = some e → e.id = id ∧ e.fact.id = .inr id

/-- The facts that follow from an ontology by the active rules. -/
def Ontology.closure (o : Ontology) (rules : RuleSet) : Set Fact :=
  documentedRules.closure {r | r ∈ rules.rules} o.facts

/-- The facts a report adds. -/
def ReasoningReport.facts (report : ReasoningReport) : Set Fact :=
  {f | (∃ a ∈ report.derivedAxioms, a.fact = f) ∨ ∃ e ∈ report.derivedEdges, e.fact = f}

end

section

variable {o : Ontology}

/-- Facts are those of stored axioms and edges. -/
theorem mem_facts_iff {f : Fact} : f ∈ o.facts ↔
    (∃ (id : AxiomId) (a : Axiom), o.axioms[id]? = some a ∧ a.fact = f) ∨
      ∃ (id : EdgeId) (e : Edge), o.edges[id]? = some e ∧ e.fact = f := by
  rw [← BTreeMap.exists_mem_vals, ← BTreeMap.exists_mem_vals]
  exact Iff.rfl

/-- A new axiom adds its fact. -/
theorem mem_facts_upsertAxiom {a : Axiom} {f : Fact}
    (h : o.axioms.contains a.id = false) :
    f ∈ (o.upsertAxiom a).facts ↔ a.fact = f ∨ f ∈ o.facts := by
  rw [mem_facts_iff, mem_facts_iff, ← or_assoc, Ontology.upsertAxiom]
  exact or_congr_left (BTreeMap.exists_insert h)

/-- A new edge adds its fact. -/
theorem mem_facts_upsertEdge {e : Edge} {f : Fact} (h : o.edges.contains e.id = false) :
    f ∈ (o.upsertEdge e).facts ↔ e.fact = f ∨ f ∈ o.facts := by
  rw [mem_facts_iff, mem_facts_iff, or_left_comm, Ontology.upsertEdge]
  exact or_congr_right (BTreeMap.exists_insert h)

variable [Blake3] {C : Set Fact}

/-- A working copy that has ids computed from bodies and states no fact outside `C`. -/
structure Ontology.Within (o : Ontology) (C : Set Fact) : Prop where
  ids : o.IdsComputed
  facts : o.facts ⊆ C

/-- Under collision-free ids, a taken id means a stated fact. -/
theorem Ontology.Within.holds_of_contains (h : o.Within C) (hinj : Set.InjOn Fact.id C)
    {k : AxiomKind} (hk : .holds k ∈ C) (hc : o.axioms.contains (Axiom.new k).id) :
    .holds k ∈ o.facts := by
  obtain ⟨a, ha⟩ := Option.isSome_iff_exists.mp
    (Std.ExtTreeMap.isSome_getElem?_eq_contains.trans hc)
  have hstated : a.fact ∈ o.facts := mem_facts_iff.mpr (Or.inl ⟨_, a, ha, rfl⟩)
  have hid : a.fact.id = (Fact.holds k).id := (h.ids.axioms _ a ha).2
  rwa [hinj (h.facts hstated) hk hid] at hstated

/-- An edge whose id is stored is a fact. -/
theorem Ontology.Within.relates_of_contains (h : o.Within C) (hinj : Set.InjOn Fact.id C)
    {s t : NodeId} {l : String} (hf : .relates s l t ∈ C)
    (hc : o.edges.contains (Edge.between s l t).id) : .relates s l t ∈ o.facts := by
  obtain ⟨e, he⟩ := Option.isSome_iff_exists.mp
    (Std.ExtTreeMap.isSome_getElem?_eq_contains.trans hc)
  have hstated : e.fact ∈ o.facts := mem_facts_iff.mpr (Or.inr ⟨_, e, he, rfl⟩)
  have hid : e.fact.id = (Fact.relates s l t).id := (h.ids.edges _ e he).2
  rwa [hinj (h.facts hstated) hf hid] at hstated

/-- What adding does to a working copy and its flag: no fact is lost, and while the flag
is down nothing has changed. -/
structure Extends (s t : Ontology × Bool) : Prop where
  facts : s.1.facts ⊆ t.1.facts
  quiet : t.2 = false → t = s

omit [Blake3] in
theorem Extends.refl (s : Ontology × Bool) : Extends s s := ⟨subset_rfl, fun _ => rfl⟩

omit [Blake3] in
/-- Extending twice is extending. -/
theorem Extends.trans {s t u : Ontology × Bool} (h : Extends s t) (h' : Extends t u) :
    Extends s u := by
  refine ⟨h.facts.trans h'.facts, fun hu => ?_⟩
  obtain rfl := h'.quiet hu
  exact h.quiet hu

/-- A step towards stating a fact of `C`. -/
def Adds (C : Set Fact) (f : Fact) (s t : Ontology × Bool) : Prop :=
  s.1.Within C → t.1.Within C ∧ Extends s t ∧ f ∈ t.1.facts

/-- Adding an axiom adds its fact if it is new. -/
theorem addAxiom_adds (hinj : Set.InjOn Fact.id C) (prov : ProvenanceId) {k : AxiomKind}
    (hk : .holds k ∈ C) (s : Ontology × Bool) :
    Adds C (.holds k) s (Reasoner.addAxiom prov s (Axiom.new k)) := by
  intro hs
  have hid : ((Axiom.new k).withProvenance prov).id = (Axiom.new k).id := rfl
  have hfact : ((Axiom.new k).withProvenance prov).fact = .holds k := rfl
  simp only [Reasoner.addAxiom, hid]
  cases hc : s.1.axioms.contains (Axiom.new k).id with
  | true =>
    rw [if_pos rfl]
    exact ⟨hs, .refl s, hs.holds_of_contains hinj hk hc⟩
  | false =>
    rw [if_neg (by simp)]
    have hmem : ∀ f, f ∈ (s.1.upsertAxiom ((Axiom.new k).withProvenance prov)).facts ↔
        .holds k = f ∨ f ∈ s.1.facts := fun f => mem_facts_upsertAxiom hc
    refine ⟨⟨⟨fun id a ha => ?_, hs.ids.edges⟩, fun f hf => ?_⟩,
      ⟨fun f hf => (hmem f).mpr (Or.inr hf), fun h => by simp at h⟩, (hmem _).mpr (Or.inl rfl)⟩
    · rw [Ontology.upsertAxiom, BTreeMap.get_insert] at ha
      by_cases hnew : ((Axiom.new k).withProvenance prov).id = id
      · rw [if_pos hnew] at ha
        rw [← Option.some.inj ha]
        exact ⟨hnew, congrArg Sum.inl hnew⟩
      · rw [if_neg hnew] at ha
        exact hs.ids.axioms id a ha
    · obtain rfl | hf := (hmem f).mp hf
      · exact hk
      · exact hs.facts hf

/-- Adding an edge adds its fact if it is new. -/
theorem addEdge_adds (hinj : Set.InjOn Fact.id C) {a b : NodeId} {l : String}
    (hf : .relates a l b ∈ C) (s : Ontology × Bool) :
    Adds C (.relates a l b) s (Reasoner.addEdge s (Edge.between a l b)) := by
  intro hs
  simp only [Reasoner.addEdge]
  cases hc : s.1.edges.contains (Edge.between a l b).id with
  | true =>
    rw [if_pos rfl]
    exact ⟨hs, .refl s, hs.relates_of_contains hinj hf hc⟩
  | false =>
    rw [if_neg (by simp)]
    have hmem : ∀ f, f ∈ (s.1.upsertEdge (Edge.between a l b)).facts ↔
        .relates a l b = f ∨ f ∈ s.1.facts := fun f => mem_facts_upsertEdge hc
    refine ⟨⟨⟨hs.ids.axioms, fun id e he => ?_⟩, fun f hf' => ?_⟩,
      ⟨fun f hf => (hmem f).mpr (Or.inr hf), fun h => by simp at h⟩, (hmem _).mpr (Or.inl rfl)⟩
    · rw [Ontology.upsertEdge, BTreeMap.get_insert] at he
      by_cases hnew : (Edge.between a l b).id = id
      · rw [if_pos hnew] at he
        rw [← Option.some.inj he]
        exact ⟨hnew, congrArg Sum.inr hnew⟩
      · rw [if_neg hnew] at he
        exact hs.ids.edges id e he
    · obtain rfl | hf' := (hmem f).mp hf'
      · exact hf
      · exact hs.facts hf'

/-- Adding a list of items states the fact of each. -/
private theorem foldl_adds {β : Type} (add : Ontology × Bool → β → Ontology × Bool)
    (fact : β → Fact) {xs : List β} {s : Ontology × Bool} (hs : s.1.Within C)
    (h : ∀ x ∈ xs, ∀ s, Adds C (fact x) s (add s x)) :
    (xs.foldl add s).1.Within C ∧ Extends s (xs.foldl add s) ∧
      ∀ x ∈ xs, fact x ∈ (xs.foldl add s).1.facts := by
  induction xs generalizing s with
  | nil => exact ⟨hs, .refl s, by simp⟩
  | cons x xs ih =>
    obtain ⟨hwithin, hextends, hx⟩ := h x List.mem_cons_self s hs
    obtain ⟨hwithin', hextends', hxs⟩ := ih hwithin fun y hy => h y (List.mem_cons_of_mem x hy)
    refine ⟨hwithin', hextends.trans hextends', ?_⟩
    simp only [List.mem_cons, forall_eq_or_imp]
    exact ⟨hextends'.facts hx, hxs⟩

/-- Applying a rule states everything it concludes. -/
theorem applyRule_spec (hinj : Set.InjOn Fact.id C) (prov : ProvenanceId) {rule : Rule}
    {s : Ontology × Bool} (hs : s.1.Within C) (hC : ∀ f, rule.Concludes s.1.facts f → f ∈ C) :
    (Reasoner.applyRule prov s rule).1.Within C ∧ Extends s (Reasoner.applyRule prov s rule) ∧
      ∀ f, rule.Concludes s.1.facts f → f ∈ (Reasoner.applyRule prov s rule).1.facts := by
  have hout : ∀ f ∈ (rule.apply s.1).facts, f ∈ C := fun f hf => hC f ((rule.exact s.1 f).mp hf).1
  have hfresh := rule.fresh s.1
  have haxiom : ∀ a ∈ (rule.apply s.1).axioms, ∀ s,
      Adds C a.fact s (Reasoner.addAxiom prov s a) := by
    intro a ha s
    rw [hfresh.axioms a ha]
    exact addAxiom_adds hinj prov (hout _ (Or.inl ⟨a, ha, rfl⟩)) s
  have hedge : ∀ e ∈ (rule.apply s.1).edges, ∀ s, Adds C e.fact s (Reasoner.addEdge s e) := by
    intro e he s
    rw [hfresh.edges e he]
    exact addEdge_adds hinj (hout _ (Or.inr ⟨e, he, rfl⟩)) s
  obtain ⟨hw, he, hax⟩ := foldl_adds (Reasoner.addAxiom prov) Axiom.fact hs haxiom
  obtain ⟨hw', he', hed⟩ := foldl_adds Reasoner.addEdge Edge.fact hw hedge
  refine ⟨hw', he.trans he', fun f hf => ?_⟩
  by_cases hstated : f ∈ s.1.facts
  · exact (he.trans he').facts hstated
  · obtain ⟨a, ha, rfl⟩ | ⟨e, hm, rfl⟩ := (rule.exact s.1 f).mpr ⟨hf, hstated⟩
    · exact he'.facts (hax a ha)
    · exact hed e hm

/-- A pass stays within a set closed under its rules, and one that adds nothing has found
nothing to conclude. -/
theorem pass_spec {self : Reasoner} (hinj : Set.InjOn Fact.id C) (prov : ProvenanceId)
    (hC : documentedRules.Closed {r | r ∈ self.rules.rules} C) (ho : o.Within C) :
    (self.pass prov o).1.Within C ∧ o.facts ⊆ (self.pass prov o).1.facts ∧
      ((self.pass prov o).2 = false → (self.pass prov o).1 = o ∧
        documentedRules.Closed {r | r ∈ self.rules.rules} o.facts) := by
  have hfold : ∀ (rules : List Rule) (s : Ontology × Bool), (∀ r ∈ rules, r ∈ self.rules.rules) →
      s.1.Within C → (rules.foldl (Reasoner.applyRule prov) s).1.Within C ∧
        Extends s (rules.foldl (Reasoner.applyRule prov) s) ∧
        ((rules.foldl (Reasoner.applyRule prov) s).2 = false →
          ∀ r ∈ rules, ∀ f, r.Concludes s.1.facts f → f ∈ s.1.facts) := by
    intro rules
    induction rules with
    | nil => exact fun s _ hs => ⟨hs, .refl s, by simp⟩
    | cons r rules ih =>
      intro s hmem hs
      have hr : ∀ f, r.Concludes s.1.facts f → f ∈ C := fun f hf =>
        hC r (hmem r List.mem_cons_self) (hf.mono hs.facts)
      obtain ⟨hw, he, hconcl⟩ := applyRule_spec hinj prov hs hr
      obtain ⟨hw', he', hquiet⟩ :=
        ih (Reasoner.applyRule prov s r) (fun r' h => hmem r' (List.mem_cons_of_mem r h)) hw
      refine ⟨hw', he.trans he', fun hflag => ?_⟩
      -- nothing was added after this rule, hence nothing by it either
      have hsame : Reasoner.applyRule prov s r = s := by
        have hmid := he'.quiet hflag
        apply he.quiet
        rw [← hmid]
        exact hflag
      rw [hsame] at hconcl hquiet
      simp only [List.mem_cons, forall_eq_or_imp]
      exact ⟨hconcl, hquiet (by rw [List.foldl_cons, hsame] at hflag; exact hflag)⟩
  obtain ⟨hw, he, hquiet⟩ := hfold self.rules.rules (o, false) (fun _ h => h) ho
  exact ⟨hw, he.facts, fun hflag => ⟨congrArg Prod.fst (he.quiet hflag), hquiet hflag⟩⟩

/-- What the loop returns lies between the facts it started from and any closed set that
contains them, and is closed itself. -/
theorem saturate_spec {self : Reasoner} (hinj : Set.InjOn Fact.id C) (prov : ProvenanceId)
    (hC : documentedRules.Closed {r | r ∈ self.rules.rules} C) {left done n : Nat}
    {w : Ontology} (ho : o.Within C) (h : self.saturate prov left done o = .ok (w, n)) :
    w.Within C ∧ o.facts ⊆ w.facts ∧
      documentedRules.Closed {r | r ∈ self.rules.rules} w.facts := by
  induction left generalizing done o with
  | zero => cases h
  | succ left ih =>
    obtain ⟨hw, hle, hquiet⟩ := pass_spec hinj prov hC ho
    rw [Reasoner.saturate] at h
    cases hp : self.pass prov o with
    | mk o' flag =>
      rw [hp] at hw hle hquiet h
      cases flag with
      | true =>
        obtain ⟨hw', hle', hclosed⟩ := ih hw h
        exact ⟨hw', hle.trans hle', hclosed⟩
      | false =>
        obtain ⟨rfl, hclosed⟩ := hquiet rfl
        obtain ⟨rfl, -⟩ := Prod.mk.inj (Except.ok.inj h)
        exact ⟨ho, subset_rfl, hclosed⟩

omit [Blake3] in
private theorem exists_mem_derivedFrom {kind : IdKind} {α : Type} {key : α → Id kind}
    {original working : BTreeMap (Id kind) α} {P : α → Prop} :
    (∃ v ∈ Reasoner.derivedFrom key original working, P v) ↔
      ∃ (id : Id kind) (v : α), working[id]? = some v ∧ original.contains id = false ∧ P v := by
  simp only [Reasoner.derivedFrom, List.mem_mergeSort, List.mem_map, List.mem_filter, Prod.exists,
    Std.ExtTreeMap.mem_toList_iff_getElem?_eq_some, Bool.not_eq_true']
  constructor
  · intro h
    obtain ⟨v, ⟨id, _, ⟨hv, hnew⟩, rfl⟩, hP⟩ := h
    exact ⟨id, _, hv, hnew, hP⟩
  · intro h
    obtain ⟨id, v, hv, hnew, hP⟩ := h
    exact ⟨v, ⟨id, v, ⟨hv, hnew⟩, rfl⟩, hP⟩

/-- The facts of what a working copy holds beyond the original. -/
def derivedFacts (o w : Ontology) : Set Fact :=
  {f | (∃ a ∈ Reasoner.derivedFrom Axiom.id o.axioms w.axioms, a.fact = f) ∨
    ∃ e ∈ Reasoner.derivedFrom Edge.id o.edges w.edges, e.fact = f}

omit [Blake3] in
private theorem mem_derivedFacts {o w : Ontology} {f : Fact} : f ∈ derivedFacts o w ↔
    (∃ (id : AxiomId) (a : Axiom), w.axioms[id]? = some a ∧ o.axioms.contains id = false ∧
      a.fact = f) ∨
    ∃ (id : EdgeId) (e : Edge), w.edges[id]? = some e ∧ o.edges.contains id = false ∧
      e.fact = f := by
  rw [← exists_mem_derivedFrom, ← exists_mem_derivedFrom]
  exact Iff.rfl

omit [Blake3] in
private theorem contains_of_get {κ α : Type} [Ord κ] [Std.TransOrd κ] {m : BTreeMap κ α} {k : κ}
    {v : α} (h : m[k]? = some v) : m.contains k = true := by
  rw [← Std.ExtTreeMap.isSome_getElem?_eq_contains, h]
  rfl

/-- The working copy states the original facts and the derived ones. -/
theorem union_derivedFacts {w : Ontology} (hinj : Set.InjOn Fact.id C) (ho : o.Within C)
    (hw : w.Within C) (hle : o.facts ⊆ w.facts) : o.facts ∪ derivedFacts o w = w.facts := by
  apply Set.Subset.antisymm
  · intro f hf
    obtain hf | hf := hf
    · exact hle hf
    · rw [mem_facts_iff]
      obtain ⟨id, a, ha, -, rfl⟩ | ⟨id, e, he, -, rfl⟩ := mem_derivedFacts.mp hf
      · exact Or.inl ⟨id, a, ha, rfl⟩
      · exact Or.inr ⟨id, e, he, rfl⟩
  · intro f hf
    obtain ⟨id, a, ha, rfl⟩ | ⟨id, e, he, rfl⟩ := mem_facts_iff.mp hf
    · cases hc : o.axioms.contains id with
      | false => exact Or.inr (mem_derivedFacts.mpr (Or.inl ⟨id, a, ha, hc, rfl⟩))
      | true =>
        obtain ⟨b, hb⟩ := Option.isSome_iff_exists.mp
          (Std.ExtTreeMap.isSome_getElem?_eq_contains.trans hc)
        have hstated : b.fact ∈ o.facts := mem_facts_iff.mpr (Or.inl ⟨id, b, hb, rfl⟩)
        have hid : a.fact.id = b.fact.id := by
          rw [(hw.ids.axioms id a ha).2, (ho.ids.axioms id b hb).2]
        rw [hinj (hw.facts hf) (ho.facts hstated) hid]
        exact Or.inl hstated
    · cases hc : o.edges.contains id with
      | false => exact Or.inr (mem_derivedFacts.mpr (Or.inr ⟨id, e, he, hc, rfl⟩))
      | true =>
        obtain ⟨b, hb⟩ := Option.isSome_iff_exists.mp
          (Std.ExtTreeMap.isSome_getElem?_eq_contains.trans hc)
        have hstated : b.fact ∈ o.facts := mem_facts_iff.mpr (Or.inr ⟨id, b, hb, rfl⟩)
        have hid : e.fact.id = b.fact.id := by
          rw [(hw.ids.edges id e he).2, (ho.ids.edges id b hb).2]
        rw [hinj (hw.facts hf) (ho.facts hstated) hid]
        exact Or.inl hstated

/-- No derived fact was stated already. -/
theorem disjoint_derivedFacts {w : Ontology} (ho : o.IdsComputed) (hw : w.IdsComputed) :
    Disjoint o.facts (derivedFacts o w) := by
  rw [Set.disjoint_left]
  intro f hf hd
  obtain ⟨id, a, ha, hnew, rfl⟩ | ⟨id, e, he, hnew, rfl⟩ := mem_derivedFacts.mp hd
  · obtain ⟨id', b, hb, hab⟩ | ⟨id', b, hb, hab⟩ := mem_facts_iff.mp hf
    · have hid := (ho.axioms id' b hb).2
      rw [hab, (hw.axioms id a ha).2] at hid
      rw [Sum.inl.inj hid, contains_of_get hb] at hnew
      cases hnew
    · cases hab
  · obtain ⟨id', b, hb, hab⟩ | ⟨id', b, hb, hab⟩ := mem_facts_iff.mp hf
    · cases hab
    · have hid := (ho.edges id' b hb).2
      rw [hab, (hw.edges id e he).2] at hid
      rw [Sum.inr.inj hid, contains_of_get hb] at hnew
      cases hnew

/-- What a run that succeeds reports. -/
theorem Reasoner.run_facts {self : Reasoner} (hids : o.IdsComputed)
    (hinj : Set.InjOn Fact.id (o.closure self.rules)) {id : ProvenanceId} {now later : DateTime}
    {report : ReasoningReport} (h : self.run o id now later = .ok report) :
    o.facts ∪ report.facts = o.closure self.rules ∧ Disjoint o.facts report.facts := by
  have ho : o.Within (o.closure self.rules) := ⟨hids, Saturation.Rules.subset_closure⟩
  simp only [Reasoner.run] at h
  split at h
  · cases h
  · next w n hsat =>
    obtain ⟨hw, hle, hclosed⟩ :=
      saturate_spec hinj _ Saturation.Rules.closed_closure ho hsat
    obtain rfl := Except.ok.inj h
    have hfacts : w.facts = o.closure self.rules :=
      Saturation.Rules.eq_closure hle hclosed hw.facts
    exact ⟨(union_derivedFacts hinj ho hw hle).trans hfacts, disjoint_derivedFacts hids hw.ids⟩

/-- A run that succeeds reports exactly the facts that follow and were not stated: with the
original facts they are the least set closed under the rules. Neither the order nor the
repetition of the rules, nor the cap, makes a difference. -/
theorem Reasoner.run_eq_closure {self : Reasoner} (hids : o.IdsComputed)
    (hinj : Set.InjOn Fact.id (o.closure self.rules)) {id : ProvenanceId} {now later : DateTime}
    {report : ReasoningReport} (h : self.run o id now later = .ok report) :
    o.facts ∪ report.facts = o.closure self.rules ∧ Disjoint o.facts report.facts ∧
      ∀ (other : Reasoner) (id' : ProvenanceId) (now' later' : DateTime)
      (report' : ReasoningReport),
        (∀ r, r ∈ other.rules.rules ↔ r ∈ self.rules.rules) →
        other.run o id' now' later' = .ok report' → report'.facts = report.facts := by
  obtain ⟨hunion, hdisjoint⟩ := run_facts hids hinj h
  refine ⟨hunion, hdisjoint, fun other id' now' later' report' hrules h' => ?_⟩
  have hset : {r | r ∈ other.rules.rules} = {r | r ∈ self.rules.rules} := Set.ext hrules
  have hsame : o.closure other.rules = o.closure self.rules := by
    rw [Ontology.closure, Ontology.closure, hset]
  obtain ⟨hunion', hdisjoint'⟩ := run_facts hids (hsame ▸ hinj) h'
  rw [← hdisjoint'.sdiff_eq_right, ← hdisjoint.sdiff_eq_right]
  have hdiff :
    ∀ A B : Set Fact, A ∪ B = o.closure self.rules → B \ A = o.closure self.rules \ A := by
    intro A B hAB
    rw [← hAB, Set.union_sdiff_left]
  rw [hdiff _ _ hunion, hdiff _ _ (hunion'.trans hsame)]

end

private def subClass (a b : String) : Fact := .holds (.subClassOf a b)

/-- `A ⊑ B` and `B ⊑ C`. -/
private def chain : Ontology :=
  (Ontology.empty.upsertAxiom (@Axiom.new Blake3.beginning (.subClassOf "A" "B"))).upsertAxiom
    (@Axiom.new Blake3.beginning (.subClassOf "B" "C"))

private theorem get_chain {id : AxiomId} {a : Axiom} (h : chain.axioms[id]? = some a) :
    a.id = id ∧ (a = @Axiom.new Blake3.beginning (.subClassOf "A" "B") ∨
      a = @Axiom.new Blake3.beginning (.subClassOf "B" "C")) := by
  simp only [chain, Ontology.upsertAxiom, Ontology.empty, BTreeMap.get_insert] at h
  split at h
  · next hid => exact ⟨Option.some.inj h ▸ hid, Or.inr (Option.some.inj h).symm⟩
  · split at h
    · next hid => exact ⟨Option.some.inj h ▸ hid, Or.inl (Option.some.inj h).symm⟩
    · simp at h

/-- What follows from the chain. -/
private theorem closure_chain {f : Fact} (h : f ∈ chain.closure .standard) :
    f = subClass "A" "B" ∨ f = subClass "B" "C" ∨ f = subClass "A" "C" := by
  let G : Set Fact := {f | f = subClass "A" "B" ∨ f = subClass "B" "C" ∨ f = subClass "A" "C"}
  have hstated : chain.facts ⊆ G := by
    intro f hf
    obtain ⟨id, a, ha, rfl⟩ | ⟨id, e, he, rfl⟩ := mem_facts_iff.mp hf
    · obtain rfl | rfl := (get_chain ha).2
      · exact Or.inl rfl
      · exact Or.inr (Or.inl rfl)
    · simp [chain, Ontology.upsertAxiom, Ontology.empty] at he
  have hclosed : documentedRules.Closed {r | r ∈ RuleSet.standard.rules} G := by
    have hG : ∀ f, f ∈ G ↔ f = subClass "A" "B" ∨ f = subClass "B" "C" ∨ f = subClass "A" "C" :=
      fun _ => Iff.rfl
    intro r _ f hf
    have hf : r.Concludes G f := hf
    cases hf with
    | subClassTransitivity hab hbc hne =>
      simp only [hG, subClass, Fact.holds.injEq, AxiomKind.subClassOf.injEq] at hab hbc ⊢
      grind
    | equivalentSymmetry hab => simp [hG, subClass] at hab
    | equivalentToSubClass hab => simp [hG, subClass] at hab
    | equivalentToSuperClass hab => simp [hG, subClass] at hab
    | inverseOfSymmetry hpq => simp [hG, subClass] at hpq
    | propertySymmetry hp hab => simp [hG, subClass] at hp
    | propertyTransitivity hp hab hbc hne => simp [hG, subClass] at hp
    | inverseForwards hpq hab => simp [hG, subClass] at hpq
    | inverseBackwards hpq hab => simp [hG, subClass] at hpq
  exact Saturation.Rules.closure_subset hstated hclosed h

private theorem iterations_chain :
    (@Reasoner.run Blake3.beginning (.withRules .standard) chain ⟨Vector.replicate 32 0⟩ .epoch
      .epoch).toOption.map ReasoningReport.iterations = some 2 := by
  decide +kernel

/-- The standard rules conclude one more subclass axiom from the chain. -/
theorem run_eq_closure_chain : ∃ report,
    @Reasoner.run Blake3.beginning (.withRules .standard) chain ⟨Vector.replicate 32 0⟩ .epoch
    .epoch =
      .ok report ∧ report.iterations = 2 ∧
      chain.facts ∪ report.facts = chain.closure .standard := by
  let _ := Blake3.beginning
  have hids : chain.IdsComputed := by
    refine ⟨fun id a ha => ?_, fun id e he => ?_⟩
    · obtain ⟨hid, rfl | rfl⟩ := get_chain ha <;> exact ⟨hid, congrArg Sum.inl hid⟩
    · simp [chain, Ontology.upsertAxiom, Ontology.empty] at he
  have hinj : Set.InjOn Fact.id (chain.closure .standard) := by
    intro f hf g hg hid
    obtain rfl | rfl | rfl := closure_chain hf <;> obtain rfl | rfl | rfl := closure_chain hg <;>
      first | rfl | exact absurd hid (by decide +kernel)
  have hiterations := iterations_chain
  cases hr : Reasoner.run (.withRules .standard) chain ⟨Vector.replicate 32 0⟩ .epoch .epoch with
  | error e =>
    rw [hr] at hiterations
    cases hiterations
  | ok report =>
    rw [hr] at hiterations
    have hmain := @Reasoner.run_eq_closure chain _ (.withRules .standard) hids hinj _ _ _ report hr
    exact ⟨report, rfl, Option.some.inj hiterations, hmain.1⟩

end AtomrOntology
