import AtomrOntology.Reason.Rules

/-!
# What the rules emit

The collections a rule reads hold what the ontology states, so what a rule emits is
exactly what it concludes and is not yet a fact.
-/

namespace AtomrOntology

variable {o : Ontology}

/-- An axiom is a fact if one of its kind is stored. -/
theorem mem_facts_holds {k : AxiomKind} :
    .holds k ∈ o.facts ↔ ∃ a ∈ o.axioms.vals, a.kind = k := by
  simp [Ontology.facts, Axiom.fact, Edge.fact]

/-- A relation is a fact if an edge with its ends and label is stored. -/
theorem mem_facts_relates {s t : NodeId} {l : String} :
    .relates s l t ∈ o.facts ↔ ∃ e ∈ o.edges.vals, e.source = s ∧ e.label = l ∧ e.target = t := by
  simp [Ontology.facts, Axiom.fact, Edge.fact]

/-- The stated pairs are those of the facts of one kind. -/
theorem mem_statedPairs {pick : AxiomKind → Option (String × String)}
    {make : String → String → AxiomKind} (h : ∀ k a b, pick k = some (a, b) ↔ k = make a b)
    {a b : String} : (a, b) ∈ statedPairs pick o ↔ .holds (make a b) ∈ o.facts := by
  have hall : (a, b) ∈ statedPairs pick o ↔
      (a, b) ∈ (∅ : BTreeSet (String × String)) ∨
        ∃ ax ∈ o.axioms.vals, pick ax.kind = some (a, b) := by
    refine foldl_collects (fun s p => p ∈ s) (fun (ax : Axiom) p => pick ax.kind = some p) ?_ _ _ _
    intro s ax p
    cases hp : pick ax.kind with
    | none => simp
    | some q => rw [BTreeSet.mem_insert, Option.some.injEq, or_comm, eq_comm (a := p)]
  simpa [h, mem_facts_holds] using hall

/-- The stated properties are those of the facts of one kind. -/
theorem mem_statedProperties {pick : AxiomKind → Option String} {make : String → AxiomKind}
    (h : ∀ k p, pick k = some p ↔ k = make p) {p : String} :
    p ∈ statedProperties pick o ↔ .holds (make p) ∈ o.facts := by
  have hall : p ∈ statedProperties pick o ↔
      p ∈ (∅ : BTreeSet String) ∨ ∃ ax ∈ o.axioms.vals, pick ax.kind = some p := by
    refine foldl_collects (fun s p => p ∈ s) (fun (ax : Axiom) p => pick ax.kind = some p) ?_ _ _ _
    intro s ax p
    cases hp : pick ax.kind with
    | none => simp
    | some q => rw [BTreeSet.mem_insert, Option.some.injEq, or_comm, eq_comm (a := p)]
  simpa [h, mem_facts_holds] using hall

/-- The existing edges are the relations that are facts. -/
theorem mem_existingEdges {l : String} {s t : NodeId} :
    (l, s, t) ∈ existingEdges o ↔ .relates s l t ∈ o.facts := by
  have hall : (l, s, t) ∈ existingEdges o ↔
      (l, s, t) ∈ (∅ : BTreeSet (String × NodeId × NodeId)) ∨
        ∃ e ∈ o.edges.vals, (e.label, e.source, e.target) = (l, s, t) := by
    refine foldl_collects (fun s p => p ∈ s) (fun (e : Edge) p => (e.label, e.source, e.target) = p)
      ?_ _ _ _
    intro s e p
    rw [BTreeSet.mem_insert, or_comm, eq_comm]
  simpa [mem_facts_relates, and_left_comm] using hall

/-- The superclasses of a class are those that are stated. -/
theorem has_bySub {a b : String} : (bySub o).Has a b ↔ .holds (.subClassOf a b) ∈ o.facts := by
  have hall : (bySub o).Has a b ↔ BTreeMap.Has (∅ : BTreeMap String (BTreeSet String)) a b ∨
      ∃ ax ∈ o.axioms.vals, ax.kind = .subClassOf a b := by
    refine foldl_collects (fun m p => BTreeMap.Has m p.1 p.2)
      (fun (ax : Axiom) p => ax.kind = .subClassOf p.1 p.2) ?_ _ _ (a, b)
    intro m ax p
    cases hk : ax.kind with
    | subClassOf sub sup => simp [BTreeMap.has_entryOr]
    | _ => simp
  simpa [mem_facts_holds, BTreeMap.Has] using hall

/-- A property has the inverses that are stated in either direction. -/
theorem has_inversesOf {p q : String} : (inversesOf o).Has p q ↔
    .holds (.inverseOf p q) ∈ o.facts ∨ .holds (.inverseOf q p) ∈ o.facts := by
  have hall : (inversesOf o).Has p q ↔ BTreeMap.Has (∅ : BTreeMap String (BTreeSet String)) p q ∨
      ∃ ax ∈ o.axioms.vals, ax.kind = .inverseOf p q ∨ ax.kind = .inverseOf q p := by
    refine foldl_collects (fun m p => BTreeMap.Has m p.1 p.2)
      (fun (ax : Axiom) p => ax.kind = .inverseOf p.1 p.2 ∨ ax.kind = .inverseOf p.2 p.1) ?_ _
        _ (p, q)
    intro m ax p
    cases hk : ax.kind with
    | inverseOf left right => simp [BTreeMap.has_entryOr, or_assoc, and_comm]
    | _ => simp
  simpa [mem_facts_holds, BTreeMap.Has, and_or_left, exists_or] using hall

/-- The edges of some labels, by label and source. -/
theorem mem_byLabelThenSource {labels : BTreeSet String} {l : String} {s t : NodeId} :
    t ∈ ((byLabelThenSource labels o)[l]?.getD ∅)[s]?.getD [] ↔
      l ∈ labels ∧ .relates s l t ∈ o.facts := by
  have hall : t ∈ ((byLabelThenSource labels o)[l]?.getD ∅)[s]?.getD [] ↔
      t ∈ ((∅ : BTreeMap String (BTreeMap NodeId (List NodeId)))[l]?.getD ∅)[s]?.getD [] ∨
        ∃ e ∈ o.edges.vals, e.label ∈ labels ∧ e.label = l ∧ e.source = s ∧ e.target = t := by
    refine foldl_collects
      (fun (m : BTreeMap String (BTreeMap NodeId (List NodeId))) p =>
        p.2.2 ∈ (m[p.1]?.getD ∅)[p.2.1]?.getD [])
      (fun (e : Edge) p => e.label ∈ labels ∧ e.label = p.1 ∧ e.source = p.2.1 ∧ e.target = p.2.2)
      ?_ _ _ (l, s, t)
    intro m e p
    by_cases hl : e.label ∈ labels
    · simp only [Std.ExtTreeSet.contains_iff_mem, hl, if_true, BTreeMap.get_entryOr, true_and]
      by_cases hp : e.label = p.1
      · simp only [hp, if_true, BTreeMap.get_entryOr, true_and]
        by_cases hs : e.source = p.2.1
        · simp [hs, eq_comm]
        · simp [hs]
      · simp [hp]
    · simp [hl]
  simp only [mem_facts_relates]
  rw [hall]
  constructor
  · intro h
    obtain h | ⟨e, he, hl, rfl, hs, ht⟩ := h
    · simp at h
    · exact ⟨hl, e, he, hs, rfl, ht⟩
  · intro h
    obtain ⟨hl, e, he, hs, rfl, ht⟩ := h
    exact Or.inr ⟨e, he, hl, rfl, hs, ht⟩

/-- What a rule emits as axioms. -/
private theorem mem_facts_axioms {as : List Axiom} {f : Fact} :
    f ∈ RuleOutput.facts ⟨as, []⟩ ↔ ∃ a ∈ as, a.fact = f := by
  simp [RuleOutput.facts]

/-- What a rule emits as edges. -/
private theorem mem_facts_edges {es : List Edge} {f : Fact} :
    f ∈ RuleOutput.facts ⟨[], es⟩ ↔ ∃ e ∈ es, e.fact = f := by
  simp [RuleOutput.facts]

private theorem equivalentPair_eq_some (k : AxiomKind) (a b : String) :
    k.equivalentPair = some (a, b) ↔ k = .equivalentClass a b := by
  cases k <;> simp [AxiomKind.equivalentPair]

private theorem inversePair_eq_some (k : AxiomKind) (a b : String) :
    k.inversePair = some (a, b) ↔ k = .inverseOf a b := by
  cases k <;> simp [AxiomKind.inversePair]

private theorem subClassPair_eq_some (k : AxiomKind) (a b : String) :
    k.subClassPair = some (a, b) ↔ k = .subClassOf a b := by
  cases k <;> simp [AxiomKind.subClassPair]

private theorem symmetricProperty_eq_some (k : AxiomKind) (p : String) :
    k.symmetricProperty = some p ↔ k = .symmetric p := by
  cases k <;> simp [AxiomKind.symmetricProperty]

private theorem transitiveProperty_eq_some (k : AxiomKind) (p : String) :
    k.transitiveProperty = some p ↔ k = .transitive p := by
  cases k <;> simp [AxiomKind.transitiveProperty]

section

variable [Blake3]

/-- What a rule emits is what it concludes and is not stated yet. -/
def Rule.Exact (r : Rule) (o : Ontology) : Prop :=
  ∀ f, f ∈ (r.apply o).facts ↔ r.Concludes o.facts f ∧ f ∉ o.facts

/-- A new axiom states its kind. -/
@[simp] theorem Axiom.fact_new (k : AxiomKind) : (Axiom.new k).fact = .holds k := rfl

/-- A new edge states a relation of its ends. -/
@[simp] theorem Edge.fact_between (s : NodeId) (l : String) (t : NodeId) :
    (Edge.between s l t).fact = .relates s l t := rfl

/-- The rule emits what two steps of the subclass relation lead to. -/
private theorem mem_subclassTransitivity {f : Fact} :
    f ∈ (subclassTransitivity o).facts ↔ ∃ a b c, (bySub o).Has a b ∧
      (bySub o).Has b c ∧ c ≠ a ∧ ¬(bySub o).Has a c ∧ f = .holds (.subClassOf a c) := by
  rw [subclassTransitivity, mem_facts_axioms]
  constructor
  · intro h
    obtain ⟨ax, hax, rfl⟩ := h
    obtain ⟨⟨a, sups⟩, ha, hax⟩ := List.mem_flatMap.mp hax
    obtain ⟨b, hb, hax⟩ := List.mem_flatMap.mp hax
    rw [Std.ExtTreeMap.mem_toList_iff_getElem?_eq_some] at ha
    rw [Std.ExtTreeSet.mem_toList] at hb
    cases hg : (bySub o)[b]? with
    | none => simp [hg] at hax
    | some grandsups =>
      simp only [hg, List.mem_filterMap, Std.ExtTreeSet.mem_toList,
        Option.ite_none_left_eq_some, Std.ExtTreeSet.contains_iff_mem, Option.some.injEq] at hax
      obtain ⟨c, hc, hca, hac, rfl⟩ := hax
      refine ⟨a, b, c, BTreeMap.has_iff.mpr ⟨_, ha, hb⟩, BTreeMap.has_iff.mpr ⟨_, hg, hc⟩,
        hca, ?_, rfl⟩
      rw [BTreeMap.Has, ha]
      exact hac
  · intro h
    obtain ⟨a, b, c, hab, hbc, hca, hac, rfl⟩ := h
    obtain ⟨sups, ha, hb⟩ := BTreeMap.has_iff.mp hab
    obtain ⟨grandsups, hg, hc⟩ := BTreeMap.has_iff.mp hbc
    rw [BTreeMap.Has, ha, Option.getD_some] at hac
    refine ⟨Axiom.new (.subClassOf a c), ?_, rfl⟩
    refine List.mem_flatMap.mpr ⟨(a, sups), Std.ExtTreeMap.mem_toList_iff_getElem?_eq_some.mpr ha,
      ?_⟩
    refine List.mem_flatMap.mpr ⟨b, Std.ExtTreeSet.mem_toList.mpr hb, ?_⟩
    simp only [hg, List.mem_filterMap, Std.ExtTreeSet.mem_toList]
    exact ⟨c, hc, by simp [hca, hac]⟩

/-- It emits the conclusions that are not stated yet, and nothing else. -/
theorem subclassTransitivity_exact : Rule.subClassTransitivity.Exact o := by
  intro f
  rw [Rule.apply, mem_subclassTransitivity]
  simp only [has_bySub]
  constructor
  · intro h
    obtain ⟨a, b, c, hab, hbc, hne, hac, rfl⟩ := h
    exact ⟨.subClassTransitivity hab hbc (Ne.symm hne), hac⟩
  · intro h
    obtain ⟨hc, hf⟩ := h
    cases hc with
    | subClassTransitivity hab hbc hne => exact ⟨_, _, _, hab, hbc, Ne.symm hne, hf, rfl⟩

/-- The rule emits the converses that are not stated. -/
private theorem mem_symmetryOf {pick : AxiomKind → Option (String × String)}
    {make : String → String → AxiomKind} (h : ∀ k a b, pick k = some (a, b) ↔ k = make a b)
    {f : Fact} : f ∈ (symmetryOf pick make o).facts ↔
      ∃ a b, .holds (make a b) ∈ o.facts ∧ .holds (make b a) ∉ o.facts ∧ f = .holds (make b a) := by
  rw [symmetryOf, mem_facts_axioms]
  simp only [List.mem_filterMap, Std.ExtTreeSet.mem_toList, Prod.exists, mem_statedPairs h,
    Std.ExtTreeSet.contains_iff_mem, Option.ite_none_left_eq_some, Option.some.injEq]
  constructor
  · intro hf
    obtain ⟨_, ⟨a, b, hab, hba, rfl⟩, rfl⟩ := hf
    exact ⟨a, b, hab, hba, rfl⟩
  · intro hf
    obtain ⟨a, b, hab, hba, rfl⟩ := hf
    exact ⟨_, ⟨a, b, hab, hba, rfl⟩, rfl⟩

/-- Equivalences are concluded from their converses. -/
theorem equivalentSymmetry_exact : Rule.equivalentSymmetry.Exact o := by
  intro f
  rw [Rule.apply, AtomrOntology.equivalentSymmetry, mem_symmetryOf equivalentPair_eq_some]
  constructor
  · intro h
    obtain ⟨a, b, hab, hba, rfl⟩ := h
    exact ⟨.equivalentSymmetry hab, hba⟩
  · intro h
    obtain ⟨hc, hf⟩ := h
    cases hc with
    | equivalentSymmetry hab => exact ⟨_, _, hab, hf, rfl⟩

/-- Inverses are concluded from their converses. -/
theorem inverseOfSymmetry_exact : Rule.inverseOfSymmetry.Exact o := by
  intro f
  rw [Rule.apply, AtomrOntology.inverseOfSymmetry, mem_symmetryOf inversePair_eq_some]
  constructor
  · intro h
    obtain ⟨p, q, hpq, hqp, rfl⟩ := h
    exact ⟨.inverseOfSymmetry hpq, hqp⟩
  · intro h
    obtain ⟨hc, hf⟩ := h
    cases hc with
    | inverseOfSymmetry hpq => exact ⟨_, _, hpq, hf, rfl⟩

/-- The rule emits the two subclass axioms of an equivalence, if they are not stated. -/
private theorem mem_equivalentToSubclass {f : Fact} :
    f ∈ (equivalentToSubclass o).facts ↔ ∃ a b, .holds (.equivalentClass a b) ∈ o.facts ∧
      ((.holds (.subClassOf a b) ∉ o.facts ∧ f = .holds (.subClassOf a b)) ∨
        .holds (.subClassOf b a) ∉ o.facts ∧ f = .holds (.subClassOf b a)) := by
  rw [equivalentToSubclass, mem_facts_axioms]
  simp only [List.mem_flatMap, List.mem_filterMap, Prod.exists, equivalentPair_eq_some,
    List.mem_append]
  have hlist : ∀ {p : Prop} [Decidable p] {x y : Axiom}, y ∈ (if p then [] else [x]) ↔
    ¬p ∧ y = x := by
    intro p _ x y
    by_cases h : p <;> simp [h]
  simp only [hlist, ← mem_facts_holds, Std.ExtTreeSet.contains_iff_mem,
    mem_statedPairs subClassPair_eq_some]
  constructor
  · intro h
    obtain ⟨_, ⟨a, b, hab, ⟨hnew, rfl⟩ | ⟨hnew, rfl⟩⟩, rfl⟩ := h
    · exact ⟨a, b, hab, Or.inl ⟨hnew, rfl⟩⟩
    · exact ⟨a, b, hab, Or.inr ⟨hnew, rfl⟩⟩
  · intro h
    obtain ⟨a, b, hab, ⟨hnew, rfl⟩ | ⟨hnew, rfl⟩⟩ := h
    · exact ⟨_, ⟨a, b, hab, Or.inl ⟨hnew, rfl⟩⟩, rfl⟩
    · exact ⟨_, ⟨a, b, hab, Or.inr ⟨hnew, rfl⟩⟩, rfl⟩

/-- Both subclass axioms are concluded from an equivalence. -/
theorem equivalentToSubclass_exact : Rule.equivalentToSubClass.Exact o := by
  intro f
  rw [Rule.apply, mem_equivalentToSubclass]
  constructor
  · intro h
    obtain ⟨a, b, hab, ⟨hnew, rfl⟩ | ⟨hnew, rfl⟩⟩ := h
    · exact ⟨.equivalentToSubClass hab, hnew⟩
    · exact ⟨.equivalentToSuperClass hab, hnew⟩
  · intro h
    obtain ⟨hc, hf⟩ := h
    cases hc with
    | equivalentToSubClass hab => exact ⟨_, _, hab, Or.inl ⟨hf, rfl⟩⟩
    | equivalentToSuperClass hab => exact ⟨_, _, hab, Or.inr ⟨hf, rfl⟩⟩

/-- The rule emits the converses of the edges of symmetric properties. -/
private theorem mem_propertySymmetry {f : Fact} :
    f ∈ (propertySymmetry o).facts ↔ ∃ a p b, .holds (.symmetric p) ∈ o.facts ∧
      .relates a p b ∈ o.facts ∧ .relates b p a ∉ o.facts ∧ f = .relates b p a := by
  have hpick : ∀ p, p ∈ statedProperties AxiomKind.symmetricProperty o ↔
      .holds (.symmetric p) ∈ o.facts :=
    fun p => mem_statedProperties symmetricProperty_eq_some
  rw [propertySymmetry]
  by_cases hempty : (statedProperties AxiomKind.symmetricProperty o).isEmpty
  · rw [if_pos hempty, mem_facts_edges]
    have hnone : ∀ p, .holds (.symmetric p) ∉ o.facts := by
      intro p hp
      rw [← hpick, Std.ExtTreeSet.isEmpty_iff.mp hempty] at hp
      simp at hp
    simp [hnone]
  · rw [if_neg hempty, mem_facts_edges]
    simp only [List.mem_filterMap, Bool.not_eq_true', Option.ite_none_left_eq_some,
      Std.ExtTreeSet.contains_iff_mem, mem_existingEdges, hpick, Option.some.injEq,
      Bool.not_eq_false]
    constructor
    · intro h
      obtain ⟨_, ⟨e, he, hp, hnew, rfl⟩, rfl⟩ := h
      exact ⟨e.source, e.label, e.target, hp, mem_facts_relates.mpr ⟨e, he, rfl, rfl, rfl⟩,
        hnew, rfl⟩
    · intro h
      obtain ⟨a, p, b, hp, hab, hnew, rfl⟩ := h
      obtain ⟨e, he, rfl, rfl, rfl⟩ := mem_facts_relates.mp hab
      exact ⟨_, ⟨e, he, hp, hnew, rfl⟩, rfl⟩

/-- Converse edges are concluded for symmetric properties. -/
theorem propertySymmetry_exact : Rule.propertySymmetry.Exact o := by
  intro f
  rw [Rule.apply, mem_propertySymmetry]
  constructor
  · intro h
    obtain ⟨a, p, b, hp, hab, hnew, rfl⟩ := h
    exact ⟨.propertySymmetry hp hab, hnew⟩
  · intro h
    obtain ⟨hc, hf⟩ := h
    cases hc with
    | propertySymmetry hp hab => exact ⟨_, _, _, hp, hab, hf, rfl⟩

/-- The rule emits what two edges of a transitive property lead to. -/
private theorem mem_propertyTransitivity {f : Fact} :
    f ∈ (propertyTransitivity o).facts ↔ ∃ a p b c, .holds (.transitive p) ∈ o.facts ∧
      .relates a p b ∈ o.facts ∧ .relates b p c ∈ o.facts ∧ a ≠ c ∧
        .relates a p c ∉ o.facts ∧ f = .relates a p c := by
  have hpick : ∀ p, p ∈ statedProperties AxiomKind.transitiveProperty o ↔
      .holds (.transitive p) ∈ o.facts :=
    fun p => mem_statedProperties transitiveProperty_eq_some
  rw [propertyTransitivity]
  by_cases hempty : (statedProperties AxiomKind.transitiveProperty o).isEmpty
  · rw [if_pos hempty, mem_facts_edges]
    have hnone : ∀ p, .holds (.transitive p) ∉ o.facts := by
      intro p hp
      rw [← hpick, Std.ExtTreeSet.isEmpty_iff.mp hempty] at hp
      simp at hp
    simp [hnone]
  rw [if_neg hempty, mem_facts_edges]
  constructor
  · intro h
    obtain ⟨e, he, rfl⟩ := h
    obtain ⟨⟨p, bySource⟩, hp, he⟩ := List.mem_flatMap.mp he
    obtain ⟨⟨a, bs⟩, ha, he⟩ := List.mem_flatMap.mp he
    obtain ⟨b, hb, he⟩ := List.mem_flatMap.mp he
    rw [Std.ExtTreeMap.mem_toList_iff_getElem?_eq_some] at hp ha
    cases hcs : bySource[b]? with
    | none => simp [hcs] at he
    | some cs =>
      simp only [hcs, List.mem_filterMap, Option.ite_none_left_eq_some,
        Std.ExtTreeSet.contains_iff_mem, mem_existingEdges, Option.some.injEq] at he
      obtain ⟨c, hc, hac, hnew, rfl⟩ := he
      have hab := mem_byLabelThenSource (t := b).mp (by rw [hp, Option.getD_some, ha]; exact hb)
      have hbc := mem_byLabelThenSource (t := c).mp (by rw [hp, Option.getD_some, hcs]; exact hc)
      exact ⟨a, p, b, c, (hpick p).mp hab.1, hab.2, hbc.2, hac, hnew, rfl⟩
  · intro h
    obtain ⟨a, p, b, c, htrans, hab, hbc, hac, hnew, rfl⟩ := h
    have hb := mem_byLabelThenSource.mpr ⟨(hpick p).mpr htrans, hab⟩
    have hc := mem_byLabelThenSource.mpr ⟨(hpick p).mpr htrans, hbc⟩
    cases hp : (byLabelThenSource (statedProperties AxiomKind.transitiveProperty o) o)[p]? with
    | none => simp [hp] at hb
    | some bySource =>
      rw [hp, Option.getD_some] at hb hc
      cases ha : bySource[a]? with
      | none => simp [ha] at hb
      | some bs =>
        cases hcs : bySource[b]? with
        | none => simp [hcs] at hc
        | some cs =>
          rw [ha, Option.getD_some] at hb
          rw [hcs, Option.getD_some] at hc
          refine ⟨Edge.between a p c, ?_, rfl⟩
          refine List.mem_flatMap.mpr
            ⟨(p, bySource), Std.ExtTreeMap.mem_toList_iff_getElem?_eq_some.mpr hp, ?_⟩
          refine List.mem_flatMap.mpr
            ⟨(a, bs), Std.ExtTreeMap.mem_toList_iff_getElem?_eq_some.mpr ha, ?_⟩
          refine List.mem_flatMap.mpr ⟨b, hb, ?_⟩
          simp only [hcs, List.mem_filterMap, Option.ite_none_left_eq_some,
            Std.ExtTreeSet.contains_iff_mem, mem_existingEdges]
          exact ⟨c, hc, hac, hnew, rfl⟩

/-- Composed edges are concluded for transitive properties. -/
theorem propertyTransitivity_exact : Rule.propertyTransitivity.Exact o := by
  intro f
  rw [Rule.apply, mem_propertyTransitivity]
  constructor
  · intro h
    obtain ⟨a, p, b, c, hp, hab, hbc, hac, hnew, rfl⟩ := h
    exact ⟨.propertyTransitivity hp hab hbc hac, hnew⟩
  · intro h
    obtain ⟨hc, hf⟩ := h
    cases hc with
    | propertyTransitivity hp hab hbc hac => exact ⟨_, _, _, _, hp, hab, hbc, hac, hf, rfl⟩

/-- The rule emits the converses of edges under the inverse properties. -/
private theorem mem_inverseOfMaterializes {f : Fact} :
    f ∈ (inverseOfMaterializes o).facts ↔ ∃ a p b q, (inversesOf o).Has p q ∧
      .relates a p b ∈ o.facts ∧ .relates b q a ∉ o.facts ∧ f = .relates b q a := by
  rw [inverseOfMaterializes]
  by_cases hempty : (inversesOf o).isEmpty
  · rw [if_pos hempty, mem_facts_edges]
    have hnone : ∀ p q, ¬(inversesOf o).Has p q := by
      intro p q h
      rw [Std.ExtTreeMap.isEmpty_iff.mp hempty] at h
      simp [BTreeMap.Has] at h
    simp [hnone]
  rw [if_neg hempty, mem_facts_edges]
  constructor
  · intro h
    obtain ⟨_, hmem, rfl⟩ := h
    obtain ⟨e, he, hmem⟩ := List.mem_flatMap.mp hmem
    cases hinv : (inversesOf o)[e.label]? with
    | none => simp [hinv] at hmem
    | some inverses =>
      simp only [hinv, List.mem_filterMap, Std.ExtTreeSet.mem_toList,
        Option.ite_none_left_eq_some, Std.ExtTreeSet.contains_iff_mem, mem_existingEdges,
        Option.some.injEq] at hmem
      obtain ⟨q, hq, hnew, rfl⟩ := hmem
      exact ⟨e.source, e.label, e.target, q, BTreeMap.has_iff.mpr ⟨_, hinv, hq⟩,
        mem_facts_relates.mpr ⟨e, he, rfl, rfl, rfl⟩, hnew, rfl⟩
  · intro h
    obtain ⟨a, p, b, q, hpq, hab, hnew, rfl⟩ := h
    obtain ⟨e, he, rfl, rfl, rfl⟩ := mem_facts_relates.mp hab
    obtain ⟨inverses, hinv, hq⟩ := BTreeMap.has_iff.mp hpq
    refine ⟨Edge.between e.target q e.source, List.mem_flatMap.mpr ⟨e, he, ?_⟩, rfl⟩
    simp only [hinv, List.mem_filterMap, Std.ExtTreeSet.mem_toList,
      Option.ite_none_left_eq_some, Std.ExtTreeSet.contains_iff_mem, mem_existingEdges]
    exact ⟨q, hq, hnew, rfl⟩

/-- Converse edges are concluded for inverse properties. -/
theorem inverseOfMaterializes_exact : Rule.inverseOfMaterializes.Exact o := by
  intro f
  rw [Rule.apply, mem_inverseOfMaterializes]
  simp only [has_inversesOf]
  constructor
  · intro h
    obtain ⟨a, p, b, q, hpq | hqp, hab, hnew, rfl⟩ := h
    · exact ⟨.inverseForwards hpq hab, hnew⟩
    · exact ⟨.inverseBackwards hqp hab, hnew⟩
  · intro h
    obtain ⟨hc, hf⟩ := h
    cases hc with
    | inverseForwards hpq hab => exact ⟨_, _, _, _, Or.inl hpq, hab, hf, rfl⟩
    | inverseBackwards hpq hab => exact ⟨_, _, _, _, Or.inr hpq, hab, hf, rfl⟩

/-- Every rule emits exactly what it concludes and is not stated yet. -/
theorem Rule.exact (r : Rule) (o : Ontology) : r.Exact o := by
  cases r with
  | subClassTransitivity => exact subclassTransitivity_exact
  | equivalentSymmetry => exact equivalentSymmetry_exact
  | equivalentToSubClass => exact equivalentToSubclass_exact
  | inverseOfSymmetry => exact inverseOfSymmetry_exact
  | propertySymmetry => exact propertySymmetry_exact
  | propertyTransitivity => exact propertyTransitivity_exact
  | inverseOfMaterializes => exact inverseOfMaterializes_exact

/-- Emitted axioms and edges carry the ids computed from their bodies. -/
structure RuleOutput.Fresh (out : RuleOutput) : Prop where
  axioms : ∀ a ∈ out.axioms, a = Axiom.new a.kind
  edges : ∀ e ∈ out.edges, e = Edge.between e.source e.label e.target

/-- Only new axioms are emitted, each with a kind. -/
private theorem symmetryOf_fresh (pick : AxiomKind → Option (String × String))
    (make : String → String → AxiomKind) : (symmetryOf pick make o).Fresh := by
  refine ⟨fun ax hax => ?_, by simp [symmetryOf]⟩
  obtain ⟨_, _, h⟩ := List.mem_filterMap.mp hax
  grind [Axiom.new]

/-- Every rule emits new axioms and edges, with the ids of their contents. -/
theorem Rule.fresh (r : Rule) (o : Ontology) : (r.apply o).Fresh := by
  cases r with
  | subClassTransitivity =>
    refine ⟨fun ax hax => ?_, by simp [Rule.apply, subclassTransitivity]⟩
    simp only [Rule.apply, subclassTransitivity, List.mem_flatMap] at hax
    obtain ⟨_, _, b, _, hax⟩ := hax
    split at hax
    · obtain ⟨c, _, h⟩ := List.mem_filterMap.mp hax
      grind [Axiom.new]
    · simp at hax
  | equivalentSymmetry => exact symmetryOf_fresh _ _
  | inverseOfSymmetry => exact symmetryOf_fresh _ _
  | equivalentToSubClass =>
    refine ⟨fun ax hax => ?_, by simp [Rule.apply, equivalentToSubclass]⟩
    simp only [Rule.apply, equivalentToSubclass, List.mem_flatMap] at hax
    obtain ⟨_, _, h⟩ := hax
    grind [Axiom.new]
  | propertySymmetry =>
    simp only [Rule.apply, AtomrOntology.propertySymmetry]
    split
    · exact ⟨by simp, by simp⟩
    · refine ⟨by simp, fun e he => ?_⟩
      obtain ⟨_, _, h⟩ := List.mem_filterMap.mp he
      grind [Edge.between]
  | propertyTransitivity =>
    simp only [Rule.apply, AtomrOntology.propertyTransitivity]
    split
    · exact ⟨by simp, by simp⟩
    · refine ⟨by simp, fun e he => ?_⟩
      simp only [List.mem_flatMap] at he
      obtain ⟨_, _, _, _, b, _, he⟩ := he
      split at he
      · obtain ⟨c, _, h⟩ := List.mem_filterMap.mp he
        grind [Edge.between]
      · simp at he
  | inverseOfMaterializes =>
    simp only [Rule.apply, AtomrOntology.inverseOfMaterializes]
    split
    · exact ⟨by simp, by simp⟩
    · refine ⟨by simp, fun e he => ?_⟩
      simp only [List.mem_flatMap] at he
      obtain ⟨_, _, he⟩ := he
      split at he
      · obtain ⟨q, _, h⟩ := List.mem_filterMap.mp he
        grind [Edge.between]
      · simp at he

end

end AtomrOntology
