import AtomrOntology.Graph.Identity
import AtomrOntology.Reason.Termination

/-!
# Where the cap is reached

While ids never collide, a pass states exactly what one sweep over the rules concludes,
so a run succeeds exactly if fewer sweeps than its cap reach a closed set. An inverse is
followed one property further in each pass: a chain of inverses takes as many passes as
it is long.
-/

namespace AtomrOntology

section

variable [Blake3] {o : Ontology} {C : Set Fact} {self : Reasoner}

/-- On collision-free ids a rule adds exactly what it concludes. -/
theorem facts_applyRule (hinj : Set.InjOn Fact.id C) (prov : ProvenanceId) {rule : Rule}
    {s : Ontology × Bool} (hs : s.1.Within C) (hC : documentedRules.concl rule C ⊆ C) :
    (Reasoner.applyRule prov s rule).1.facts = s.1.facts ∪ documentedRules.concl rule
    s.1.facts := by
  have hle : s.1.facts ∪ documentedRules.concl rule s.1.facts ⊆ C :=
    Set.union_subset hs.facts ((documentedRules.mono rule hs.facts).trans hC)
  have hwithin : s.1.Within (s.1.facts ∪ documentedRules.concl rule s.1.facts) :=
    ⟨hs.ids, Set.subset_union_left⟩
  obtain ⟨hw, he, hconcl⟩ := applyRule_spec (hinj.mono hle) prov hwithin
    fun f hf => Or.inr hf
  exact Set.Subset.antisymm hw.facts (Set.union_subset he.facts hconcl)

/-- On collision-free ids a pass states exactly what a sweep over its rules concludes. -/
theorem facts_pass (hinj : Set.InjOn Fact.id C) (prov : ProvenanceId)
    (hC : documentedRules.Closed {r | r ∈ self.rules.rules} C) (ho : o.Within C) :
    (self.pass prov o).1.facts = documentedRules.sweep self.rules.rules o.facts := by
  have hfold : ∀ (rules : List Rule) (s : Ontology × Bool), (∀ r ∈ rules, r ∈ self.rules.rules) →
      s.1.Within C → (rules.foldl (Reasoner.applyRule prov) s).1.facts =
        documentedRules.sweep rules s.1.facts := by
    intro rules
    induction rules with
    | nil => exact fun s _ _ => rfl
    | cons r rules ih =>
      intro s hmem hs
      have hr := hC r (hmem r List.mem_cons_self)
      obtain ⟨hw, -⟩ := applyRule_spec hinj prov hs
        fun f hf => hr (documentedRules.mono r hs.facts hf)
      rw [List.foldl_cons, ih _ (fun r' h => hmem r' (List.mem_cons_of_mem r h)) hw,
        Saturation.Rules.sweep_cons, facts_applyRule hinj prov hs hr]
  exact hfold self.rules.rules (o, false) (fun _ h => h) ho

/-- A pass is quiet exactly if there is nothing left to conclude. -/
theorem pass_quiet_iff (hinj : Set.InjOn Fact.id C) (prov : ProvenanceId)
    (hC : documentedRules.Closed {r | r ∈ self.rules.rules} C) (ho : o.Within C) :
    (self.pass prov o).2 = false ↔ documentedRules.Closed {r | r ∈ self.rules.rules} o.facts := by
  constructor
  · intro hquiet
    exact ((pass_spec hinj prov hC ho).2.2 hquiet).2
  · intro hclosed
    cases hflag : (self.pass prov o).2 with
    | false => rfl
    | true =>
      obtain ⟨f, hf, hnew⟩ := (pass_grown hC ho.facts prov).news hflag
      rw [facts_pass hinj prov hC ho] at hf
      exact absurd (Saturation.Rules.sweep_subset subset_rfl hclosed hf) hnew

namespace Reasoner

/-- The loop ends well exactly if fewer sweeps than passes left reach a closed set. -/
theorem saturate_ok_iff (hinj : Set.InjOn Fact.id C) (prov : ProvenanceId)
    (hC : documentedRules.Closed {r | r ∈ self.rules.rules} C) {left done : Nat}
    (ho : o.Within C) : (∃ r, self.saturate prov left done o = .ok r) ↔
      ∃ k < left, documentedRules.Closed {r | r ∈ self.rules.rules}
        ((documentedRules.sweep self.rules.rules)^[k] o.facts) := by
  induction left generalizing done o with
  | zero => simp [saturate]
  | succ left ih =>
    have hquiet := pass_quiet_iff hinj prov hC ho
    have hfacts := facts_pass hinj prov hC ho
    obtain ⟨hwithin, -⟩ := pass_spec hinj prov hC ho
    rw [saturate]
    cases hp : self.pass prov o with
    | mk o' flag =>
      rw [hp] at hquiet hfacts hwithin
      cases flag with
      | false => exact ⟨fun _ => ⟨0, by omega, hquiet.mp rfl⟩, fun _ => ⟨_, rfl⟩⟩
      | true =>
        have hopen : ¬documentedRules.Closed {r | r ∈ self.rules.rules} o.facts := by
          intro hclosed
          cases hquiet.mpr hclosed
        refine (ih hwithin).trans ?_
        rw [hfacts]
        constructor
        · intro h
          obtain ⟨k, hk, hclosed⟩ := h
          exact ⟨k + 1, by omega, hclosed⟩
        · intro h
          obtain ⟨k, hk, hclosed⟩ := h
          cases k with
          | zero => exact absurd hclosed hopen
          | succ k => exact ⟨k, by omega, hclosed⟩

/-- The loop fails only by the cap. -/
theorem saturate_error {prov : ProvenanceId} {left done : Nat} {e : ReasonerError}
    (h : self.saturate prov left done o = .error e) : e = .cycle self.maxIterations := by
  induction left generalizing done o with
  | zero => exact (Except.error.inj h).symm
  | succ left ih =>
    rw [saturate] at h
    split at h
    · exact ih h
    · cases h

/-- A run fails at its cap only. -/
theorem run_error {id : ProvenanceId} {now later : DateTime} {e : ReasonerError}
    (h : self.run o id now later = .error e) : e = .cycle self.maxIterations := by
  simp only [run] at h
  split at h
  · next e' hsat =>
    obtain rfl := Except.error.inj h
    exact saturate_error hsat
  · cases h

/-- A run completes if its loop does. -/
theorem run_ok_iff_saturate (id : ProvenanceId) (now later : DateTime) :
    (∃ report, self.run o id now later = .ok report) ↔
      ∃ r, self.saturate id self.maxIterations 0 o = .ok r := by
  constructor
  · intro h
    obtain ⟨report, h⟩ := h
    simp only [run] at h
    split at h
    · cases h
    · next w n hsat => exact ⟨(w, n), hsat⟩
  · intro h
    obtain ⟨⟨w, n⟩, h⟩ := h
    obtain ⟨report, hrun, -⟩ := run_of_saturate now later h
    exact ⟨report, hrun⟩

/-- A run succeeds exactly if fewer sweeps than its cap reach a closed set. -/
theorem run_ok_iff_closed (hids : o.IdsComputed)
    (hinj : Set.InjOn Fact.id (o.closure self.rules)) (id : ProvenanceId) (now later : DateTime) :
    (∃ report, self.run o id now later = .ok report) ↔
      ∃ k < self.maxIterations, documentedRules.Closed {r | r ∈ self.rules.rules}
        ((documentedRules.sweep self.rules.rules)^[k] o.facts) := by
  rw [run_ok_iff_saturate]
  exact saturate_ok_iff hinj id Saturation.Rules.closed_closure
    ⟨hids, Saturation.Rules.subset_closure⟩

/-- A cap above the number of facts that follow is enough. -/
theorem run_ok_of_few (h : (o.closure self.rules \ o.facts).ncard < self.maxIterations)
    (id : ProvenanceId) (now later : DateTime) :
    ∃ report, self.run o id now later = .ok report := by
  have hfin : (o.closure self.rules).Finite :=
    o.finite_names_facts.subset
      (Saturation.Rules.closure_subset o.facts_subset_names (Names.closed_facts _))
  obtain ⟨w, n, hsat, -⟩ := saturate_ok hfin Saturation.Rules.closed_closure id 0
    Saturation.Rules.subset_closure h
  exact (run_ok_iff_saturate id now later).mpr ⟨_, hsat⟩

omit [Blake3] in
theorem new_maxIterations : new.maxIterations = 100 := rfl

omit [Blake3] in
theorem new_rules : new.rules = .standard := rfl

/-- With the standard rules and the default cap a run succeeds exactly if fewer than a hundred
sweeps reach a closed set, which they do if fewer than a hundred facts follow; it fails
only by the cap. -/
theorem new_run_ok_iff (hids : o.IdsComputed) (hinj : Set.InjOn Fact.id (o.closure .standard))
    (id : ProvenanceId) (now later : DateTime) :
    ((∃ report, new.run o id now later = .ok report) ↔
      ∃ k < 100, documentedRules.Closed {r | r ∈ RuleSet.standard.rules}
        ((documentedRules.sweep RuleSet.standard.rules)^[k] o.facts)) ∧
    ((o.closure .standard \ o.facts).ncard < 100 → ∃ report, new.run o id now later = .ok report) ∧
    ∀ e, new.run o id now later = .error e → e = .cycle 100 := by
  rw [← new_maxIterations, ← new_rules]
  rw [← new_rules] at hinj
  exact ⟨run_ok_iff_closed hids hinj id now later, fun h => run_ok_of_few h id now later,
    fun _ h => run_error h⟩

end Reasoner

end

namespace InverseChain

variable (p : Nat → String) (a b : NodeId)

/-- The ends of the edges, in turn. -/
def side (j : Nat) : NodeId := if j % 2 = 0 then a else b

/-- One edge, and each property of a sequence stated to be the inverse of the next one. -/
def ontology [Blake3] : Nat → Ontology
  | 0 => Ontology.empty.upsertEdge (Edge.between (side a b 0) (p 0) (side a b 1))
  | n + 1 => (ontology n).upsertAxiom (Axiom.new (.inverseOf (p n) (p (n + 1))))

/-- What is stated. -/
def stated (n : Nat) : Set Fact :=
  {f | (∃ i < n, f = .holds (.inverseOf (p i) (p (i + 1)))) ∨
    f = .relates (side a b 0) (p 0) (side a b 1)}

/-- What follows about the first `n` inverses and the edges of the first `k` properties. -/
def linked (n k : Nat) : Set Fact :=
  {f | (∃ i < n, f = .holds (.inverseOf (p i) (p (i + 1))) ∨
      f = .holds (.inverseOf (p (i + 1)) (p i))) ∨
    ∃ j ≤ k, f = .relates (side a b j) (p j) (side a b (j + 1))}

variable {p} {a b} {n k : Nat}

/-- Sides alternate. -/
theorem side_add_two (j : Nat) : side a b (j + 2) = side a b j := by
  rw [side, side, Nat.add_mod_right]

/-- What is stated is linked from the start. -/
theorem stated_subset : stated p a b n ⊆ linked p a b n 0 := by
  intro f hf
  obtain ⟨i, hi, rfl⟩ | rfl := hf
  · exact Or.inl ⟨i, hi, Or.inl rfl⟩
  · exact Or.inr ⟨0, le_rfl, rfl⟩

/-- More rounds link more. -/
theorem linked_mono {k' : Nat} (h : k ≤ k') : linked p a b n k ⊆ linked p a b n k' := by
  intro f hf
  obtain hf | ⟨j, hj, rfl⟩ := hf
  · exact Or.inl hf
  · exact Or.inr ⟨j, by omega, rfl⟩

/-- The inverses are those of neighbours in the chain. -/
theorem inverse_mem_linked {q r : String} : .holds (.inverseOf q r) ∈ linked p a b n k ↔
    ∃ i < n, (q = p i ∧ r = p (i + 1)) ∨ (q = p (i + 1) ∧ r = p i) := by
  simp [linked]

/-- The edges go back and forth along the chain. -/
theorem relates_mem_linked {s t : NodeId} {q : String} : .relates s q t ∈ linked p a b n k ↔
    ∃ j ≤ k, s = side a b j ∧ q = p j ∧ t = side a b (j + 1) := by
  simp [linked]

/-- An edge is followed along an inverse to the property before its own or to the one after. -/
private theorem follow (hp : Function.Injective p) {s t : NodeId} {q r : String}
    (hqr : ∃ i < n, (q = p i ∧ r = p (i + 1)) ∨ (q = p (i + 1) ∧ r = p i))
    (hst : .relates s q t ∈ linked p a b n k) : .relates t r s ∈ linked p a b n k ∨
      ∃ j < n, j ≤ k ∧ Fact.relates t r s = .relates (side a b (j + 1)) (p (j + 1))
      (side a b (j + 2)) := by
  obtain ⟨j, hj, rfl, rfl, rfl⟩ := relates_mem_linked.mp hst
  obtain ⟨i, hi, ⟨hq, rfl⟩ | ⟨hq, rfl⟩⟩ := hqr
  · obtain rfl := hp hq
    exact Or.inr ⟨j, hi, hj, by rw [side_add_two]⟩
  · obtain rfl := hp hq
    refine Or.inl (relates_mem_linked.mpr ⟨i, by omega, ?_, rfl, rfl⟩)
    exact side_add_two i

/-- What is concluded from a chain is an inverse turned round or the edge of the next property. -/
theorem concludes_linked (hp : Function.Injective p) {r : Rule} {f : Fact}
    (h : r.Concludes (linked p a b n k) f) : f ∈ linked p a b n k ∨ r = .inverseOfMaterializes ∧
      ∃ j < n, j ≤ k ∧ f = .relates (side a b (j + 1)) (p (j + 1)) (side a b (j + 2)) := by
  cases h with
  | subClassTransitivity hab hbc hne => simp [linked] at hab
  | equivalentSymmetry hab => simp [linked] at hab
  | equivalentToSubClass hab => simp [linked] at hab
  | equivalentToSuperClass hab => simp [linked] at hab
  | propertySymmetry hp' hab => simp [linked] at hp'
  | propertyTransitivity hp' hab hbc hne => simp [linked] at hp'
  | inverseOfSymmetry hpq =>
    obtain ⟨i, hi, h⟩ := inverse_mem_linked.mp hpq
    exact Or.inl (inverse_mem_linked.mpr ⟨i, hi, by tauto⟩)
  | inverseForwards hpq hab =>
    obtain h | h := follow hp (inverse_mem_linked.mp hpq) hab
    · exact Or.inl h
    · exact Or.inr ⟨rfl, h⟩
  | inverseBackwards hpq hab =>
    obtain ⟨i, hi, h⟩ := inverse_mem_linked.mp hpq
    obtain h | h := follow hp ⟨i, hi, by tauto⟩ hab
    · exact Or.inl h
    · exact Or.inr ⟨rfl, h⟩

/-- After as many rounds as the chain is long nothing is left to conclude. -/
theorem closed_linked (hp : Function.Injective p) (rules : Set Rule) :
    documentedRules.Closed rules (linked p a b n n) := by
  intro r _ f hf
  obtain hf | ⟨-, j, hj, -, rfl⟩ := concludes_linked hp hf
  · exact hf
  · exact relates_mem_linked.mpr ⟨j + 1, by omega, rfl, rfl, rfl⟩

/-- A sweep over the standard rules gets at most one property further: the rule that follows
the inverses comes last. -/
theorem sweep_linked (hp : Function.Injective p) {F : Set Fact} (hF : F ⊆ linked p a b n k) :
    documentedRules.sweep RuleSet.standard.rules F ⊆ linked p a b n (k + 1) := by
  have hsplit : RuleSet.standard.rules = [.subClassTransitivity, .equivalentSymmetry,
    .equivalentToSubClass, .inverseOfSymmetry, .propertySymmetry, .propertyTransitivity] ++
      [.inverseOfMaterializes] := rfl
  have hfirst : documentedRules.sweep [.subClassTransitivity, .equivalentSymmetry,
      .equivalentToSubClass, .inverseOfSymmetry, .propertySymmetry, .propertyTransitivity] F ⊆
      linked p a b n k := by
    refine Saturation.Rules.sweep_subset hF fun r hr f hf => ?_
    obtain hf | ⟨rfl, -⟩ := concludes_linked hp hf
    · exact hf
    · simp at hr
  rw [hsplit, Saturation.Rules.sweep_append, Saturation.Rules.sweep_cons,
    Saturation.Rules.sweep_nil]
  refine Set.union_subset (hfirst.trans (linked_mono (Nat.le_succ k))) fun f hf => ?_
  obtain hf | ⟨-, j, hj, hjk, rfl⟩ := concludes_linked hp (hf.mono hfirst)
  · exact linked_mono (Nat.le_succ k) hf
  · exact relates_mem_linked.mpr ⟨j + 1, by omega, rfl, rfl, rfl⟩

/-- What some sweeps reach. -/
def reached (p : Nat → String) (a b : NodeId) (n k : Nat) : Set Fact :=
  (documentedRules.sweep RuleSet.standard.rules)^[k] (stated p a b n)

/-- A further pass sweeps over the rules once more. -/
theorem reached_succ : reached p a b n (k + 1) =
    documentedRules.sweep RuleSet.standard.rules (reached p a b n k) :=
  Function.iterate_succ_apply' _ k _

/-- A pass reaches no further along the chain than one link. -/
theorem reached_subset (hp : Function.Injective p) : reached p a b n k ⊆ linked p a b n k := by
  induction k with
  | zero => exact stated_subset
  | succ k ih =>
    rw [reached_succ]
    exact sweep_linked hp ih

/-- What is stated stays. -/
theorem stated_subset_reached : stated p a b n ⊆ reached p a b n k := by
  induction k with
  | zero => exact subset_rfl
  | succ k ih =>
    rw [reached_succ]
    exact ih.trans (Saturation.Rules.subset_sweep _)

/-- A sweep follows every inverse. -/
private theorem next_mem {F : Set Fact} {j : Nat}
    (hstated : .holds (.inverseOf (p j) (p (j + 1))) ∈ F)
    (hj : .relates (side a b j) (p j) (side a b (j + 1)) ∈ F) :
    .relates (side a b (j + 1)) (p (j + 1)) (side a b (j + 2)) ∈
      documentedRules.concl .inverseOfMaterializes F := by
  rw [side_add_two]
  exact Rule.Concludes.inverseForwards hstated hj

/-- Every pass reaches one link further. -/
theorem edge_mem_reached {j : Nat} (hj : j ≤ k) (hn : j ≤ n) :
    .relates (side a b j) (p j) (side a b (j + 1)) ∈ reached p a b n k := by
  induction k generalizing j with
  | zero =>
    obtain rfl : j = 0 := by omega
    exact Or.inr rfl
  | succ k ih =>
    rw [reached_succ]
    by_cases hjk : j ≤ k
    · exact Saturation.Rules.subset_sweep _ (ih hjk hn)
    · obtain rfl : j = k + 1 := by omega
      apply Saturation.Rules.concl_subset_sweep (i := .inverseOfMaterializes)
        (by simp [RuleSet.standard])
      exact next_mem (stated_subset_reached (Or.inl ⟨k, by omega, rfl⟩)) (ih le_rfl (by omega))

/-- Before as many sweeps as the chain has inverses, one more edge follows. -/
theorem not_closed_reached (hp : Function.Injective p) (hk : k < n) :
    ¬documentedRules.Closed {r | r ∈ RuleSet.standard.rules} (reached p a b n k) := by
  intro hclosed
  have hnext := hclosed .inverseOfMaterializes (by simp [RuleSet.standard])
    (next_mem (stated_subset_reached (Or.inl ⟨k, hk, rfl⟩)) (edge_mem_reached le_rfl hk.le))
  obtain ⟨j, hj, -, hlabel, -⟩ := relates_mem_linked.mp (reached_subset hp hnext)
  have := hp hlabel
  omega

/-- As many sweeps as the chain has inverses are enough. -/
theorem closed_reached (hp : Function.Injective p) (hn : 0 < n) :
    documentedRules.Closed {r | r ∈ RuleSet.standard.rules} (reached p a b n n) := by
  have hall : linked p a b n n ⊆ reached p a b n n := by
    intro f hf
    obtain ⟨i, hi, rfl | rfl⟩ | ⟨j, hj, rfl⟩ := hf
    · exact stated_subset_reached (Or.inl ⟨i, hi, rfl⟩)
    · obtain ⟨m, rfl⟩ : ∃ m, n = m + 1 := ⟨n - 1, by omega⟩
      rw [reached_succ]
      apply Saturation.Rules.concl_subset_sweep (i := .inverseOfSymmetry)
        (by simp [RuleSet.standard])
      exact Rule.Concludes.inverseOfSymmetry (stated_subset_reached (Or.inl ⟨i, hi, rfl⟩))
    · exact edge_mem_reached hj hj
  rw [Set.Subset.antisymm (reached_subset hp) hall]
  exact closed_linked hp _

section

variable [Blake3]

/-- Ids are those of contents. -/
theorem idsComputed_ontology : (ontology p a b n).IdsComputed := by
  induction n with
  | zero =>
    refine ⟨fun id c hc => by simp [ontology, Ontology.upsertEdge, Ontology.empty] at hc, ?_⟩
    intro id e he
    rw [ontology, Ontology.upsertEdge, BTreeMap.get_insert] at he
    split at he
    · next hid => exact Option.some.inj he ▸ ⟨hid, congrArg Sum.inr hid⟩
    · simp [Ontology.empty] at he
  | succ n ih =>
    refine ⟨fun id c hc => ?_, ih.edges⟩
    rw [ontology, Ontology.upsertAxiom, BTreeMap.get_insert] at hc
    split at hc
    · next hid => exact Option.some.inj hc ▸ ⟨hid, congrArg Sum.inl hid⟩
    · exact ih.axioms id c hc

/-- While ids do not collide, the ontology states the edge and every inverse. -/
theorem facts_ontology (hp : Function.Injective p)
    (hinj : Set.InjOn Fact.id (linked p a b n n)) : (ontology p a b n).facts = stated p a b n := by
  induction n with
  | zero =>
    ext f
    rw [ontology, mem_facts_upsertEdge (by simp [Ontology.empty])]
    simp [stated, Ontology.facts, Ontology.empty, eq_comm]
  | succ n ih =>
    have hle : linked p a b n n ⊆ linked p a b (n + 1) (n + 1) := by
      intro f hf
      obtain ⟨i, hi, hf⟩ | ⟨j, hj, hf⟩ := hf
      · exact Or.inl ⟨i, by omega, hf⟩
      · exact Or.inr ⟨j, by omega, hf⟩
    have hfacts := ih (hinj.mono hle)
    have hwithin : (ontology p a b n).Within (linked p a b (n + 1) (n + 1)) := by
      refine ⟨idsComputed_ontology, ?_⟩
      rw [hfacts]
      exact (stated_subset.trans (linked_mono (Nat.zero_le n))).trans hle
    have hfresh : (ontology p a b n).axioms.contains (Axiom.new (.inverseOf (p n) (p (n + 1)))).id =
        false := by
      rw [Bool.eq_false_iff]
      intro hc
      have hmem := hwithin.holds_of_contains hinj (Or.inl ⟨n, by omega, Or.inl rfl⟩) hc
      rw [hfacts] at hmem
      obtain ⟨i, hi, h⟩ | h := hmem
      · have := hp (AxiomKind.inverseOf.inj (Fact.holds.inj h)).1
        omega
      · cases h
    ext f
    rw [ontology, mem_facts_upsertAxiom hfresh, hfacts, Axiom.fact_new]
    simp only [stated, Set.mem_ofPred_eq]
    constructor
    · intro h
      obtain rfl | ⟨i, hi, rfl⟩ | rfl := h
      · exact Or.inl ⟨n, by omega, rfl⟩
      · exact Or.inl ⟨i, by omega, rfl⟩
      · exact Or.inr rfl
    · intro h
      obtain ⟨i, hi, rfl⟩ | rfl := h
      · by_cases hin : i < n
        · exact Or.inr (Or.inl ⟨i, hin, rfl⟩)
        · obtain rfl : i = n := by omega
          exact Or.inl rfl
      · exact Or.inr (Or.inr rfl)

/-- The closure holds no more than is linked. -/
theorem closure_subset_linked (hp : Function.Injective p)
    (hinj : Set.InjOn Fact.id (linked p a b n n)) :
    (ontology p a b n).closure .standard ⊆ linked p a b n n := by
  refine Saturation.Rules.closure_subset ?_ (closed_linked hp _)
  rw [facts_ontology hp hinj]
  exact stated_subset.trans (linked_mono (Nat.zero_le n))

/-- A chain of inverses is run to its end exactly if the cap exceeds its length. -/
theorem run_ok_iff_lt (hp : Function.Injective p) (hinj : Set.InjOn Fact.id (linked p a b n n))
    (hn : 0 < n) {self : Reasoner} (hrules : self.rules = .standard) (id : ProvenanceId)
    (now later : DateTime) :
    (∃ report, self.run (ontology p a b n) id now later = .ok report) ↔ n < self.maxIterations := by
  have hclosure : (ontology p a b n).closure self.rules ⊆ linked p a b n n := by
    rw [hrules]
    exact closure_subset_linked hp hinj
  rw [Reasoner.run_ok_iff_closed idsComputed_ontology (hinj.mono hclosure), hrules,
    facts_ontology hp hinj]
  constructor
  · intro h
    obtain ⟨k, hk, hclosed⟩ := h
    by_contra hle
    exact not_closed_reached hp (by omega) hclosed
  · intro h
    exact ⟨n, h, closed_reached hp hn⟩

end

/-- A digest that numbers the given texts. -/
abbrev numbering (texts : List (List UInt8)) : Blake3 :=
  ⟨fun _ input => Vector.ofFn fun i => UInt8.ofNat (texts.idxOf input / 256 ^ i.val)⟩

private theorem deriveKey_numbering (texts : List (List UInt8)) (context : String)
    (input : List UInt8) : (numbering texts).deriveKey context input =
      Vector.ofFn fun i => UInt8.ofNat (texts.idxOf input / 256 ^ i.val) := rfl

private theorem numbering_inj {texts : List (List UInt8)} (hlength : texts.length ≤ 65536)
    {s t : List UInt8} (hs : s ∈ texts) (ht : t ∈ texts) {context context' : String}
    (h : (numbering texts).deriveKey context s = (numbering texts).deriveKey context' t) :
    s = t := by
  have hdigit : ∀ i : Nat, (hi : i < 32) →
      texts.idxOf s / 256 ^ i % 256 = texts.idxOf t / 256 ^ i % 256 := by
    intro i hi
    rw [deriveKey_numbering, deriveKey_numbering] at h
    have hget := congrArg (fun v : Bytes32 => (v.get ⟨i, hi⟩).toNat) h
    simp only [Vector.get_eq_getElem, Vector.getElem_ofFn, UInt8.toNat_ofNat'] at hget
    exact hget
  have h0 := hdigit 0 (by decide)
  have h1 := hdigit 1 (by decide)
  have hs' := List.idxOf_lt_length_of_mem hs
  have ht' := List.idxOf_lt_length_of_mem ht
  rw [Nat.pow_zero, Nat.div_one, Nat.div_one] at h0
  rw [Nat.pow_one] at h1
  exact (List.idxOf_inj hs).mp (by omega)

/-- The text that the id of a fact is derived from. -/
def text : Fact → List UInt8
  | .holds k => utf8 k.canonical
  | .relates s l t => Edge.input s l t

/-- The names of the properties of a chain. -/
def name (i : Nat) : String := "p" ++ Nat.repr i

private theorem name_injective : Function.Injective name := by
  intro i j h
  have htexts := congrArg String.toList h
  rw [name, name, String.toList_append, String.toList_append] at htexts
  exact Nat.repr_injective (String.toList_inj.mp (List.append_cancel_left htexts))

private theorem bar_not_mem_name (i : Nat) : '|' ∉ (name i).toList := by
  rw [name, String.toList_append, List.mem_append, not_or]
  refine ⟨by simp, fun h => ?_⟩
  rw [Nat.toList_repr] at h
  have hdigit := Nat.isDigit_of_mem_toDigits (by decide) (by decide) h
  simp at hdigit

/-- The facts of a chain, one after another. -/
def listing (n : Nat) (a b : NodeId) : List Fact :=
  ((List.range n).flatMap fun i => [.holds (.inverseOf (name i) (name (i + 1))),
    .holds (.inverseOf (name (i + 1)) (name i))]) ++
  (List.range (n + 1)).map fun j => .relates (side a b j) (name j) (side a b (j + 1))

private theorem mem_listing {f : Fact} (hf : f ∈ linked name a b n n) : f ∈ listing n a b := by
  rw [listing, List.mem_append, List.mem_flatMap, List.mem_map]
  obtain ⟨i, hi, hf⟩ | ⟨j, hj, rfl⟩ := hf
  · exact Or.inl ⟨i, List.mem_range.mpr hi, by simpa using hf⟩
  · exact Or.inr ⟨j, List.mem_range.mpr (by omega), rfl⟩

private theorem length_listing (n : Nat) : (listing n a b).length = 3 * n + 1 := by
  have hpairs :
    ∀ l : List Nat, (l.flatMap fun i => [Fact.holds (.inverseOf (name i) (name (i + 1))),
      .holds (.inverseOf (name (i + 1)) (name i))]).length = 2 * l.length := by
    intro l
    induction l with
    | nil => rfl
    | cons i l ih =>
      rw [List.flatMap_cons, List.length_append, ih, List.length_cons]
      simp
      omega
  rw [listing, List.length_append, hpairs, List.length_map, List.length_range, List.length_range]
  omega

/-- The digest under which no two facts of a chain collide. -/
abbrev chainHash (n : Nat) (a b : NodeId) : Blake3 := numbering ((listing n a b).map text)

private theorem not_shifts_of_mem {k : AxiomKind} (hk : .holds k ∈ linked name a b n n)
    (k' : AxiomKind) : ¬k.Shifts k' := by
  obtain ⟨i, -, h | h⟩ | ⟨j, -, h⟩ := hk
  · obtain rfl := Fact.holds.inj h
    refine AxiomKind.not_shifts (fun r hr => ?_) k'
    obtain rfl := Option.some.inj hr
    exact bar_not_mem_name _
  · obtain rfl := Fact.holds.inj h
    refine AxiomKind.not_shifts (fun r hr => ?_) k'
    obtain rfl := Option.some.inj hr
    exact bar_not_mem_name _
  · cases h

private theorem injOn_linked (hn : n ≤ 1000) :
    letI := chainHash n a b
    Set.InjOn Fact.id (linked name a b n n) := by
  intro f hf g hg hid
  have hlength : ((listing n a b).map text).length ≤ 65536 := by
    rw [List.length_map, length_listing]
    omega
  have hft := List.mem_map_of_mem (f := text) (mem_listing hf)
  have hgt := List.mem_map_of_mem (f := text) (mem_listing hg)
  cases f with
  | holds k =>
    cases g with
    | relates s l t => cases hid
    | holds k' =>
      have htext := numbering_inj hlength hft hgt (congrArg Id.bytes (Sum.inl.inj hid))
      obtain rfl | h | h := AxiomKind.canonical_eq_iff.mp (utf8_injective htext)
      · rfl
      · exact absurd h (not_shifts_of_mem hf k')
      · exact absurd h (not_shifts_of_mem hg k)
  | relates s l t =>
    cases g with
    | holds k => cases hid
    | relates s' l' t' =>
      have htext := numbering_inj hlength hft hgt (congrArg Id.bytes (Sum.inr.inj hid))
      obtain ⟨rfl, rfl, rfl⟩ := Edge.input_inj htext
      rfl

end InverseChain

open InverseChain in
/-- A chain of ninety-nine inverses is run to its end within the default cap. -/
theorem Reasoner.new_run_ok_chain :
    let _ := chainHash 99 (.filled 1) (.filled 2)
    ∃ report, Reasoner.new.run (ontology name (.filled 1) (.filled 2) 99)
      (.filled 3) .epoch .epoch =
      .ok report := by
  let _ := chainHash 99 (.filled 1) (.filled 2)
  have hinj : Set.InjOn Fact.id (linked name (.filled 1) (.filled 2) 99 99) :=
    injOn_linked (by omega)
  refine (Reasoner.new_run_ok_iff idsComputed_ontology
    (hinj.mono (closure_subset_linked name_injective hinj)) _ _ _).1.mpr ⟨99, by omega, ?_⟩
  rw [facts_ontology name_injective hinj]
  exact closed_reached name_injective (by omega)

open InverseChain in
/-- A chain of a hundred inverses has a fixed point, and the default cap is reached before it. -/
theorem Reasoner.new_run_cycle_chain :
    let _ := chainHash 100 (.filled 1) (.filled 2)
    Reasoner.new.run (ontology name (.filled 1) (.filled 2) 100) (.filled 3) .epoch .epoch =
      .error (.cycle 100) := by
  let _ := chainHash 100 (.filled 1) (.filled 2)
  have hinj : Set.InjOn Fact.id (linked name (.filled 1) (.filled 2) 100 100) :=
    injOn_linked (by omega)
  cases h : Reasoner.new.run (ontology name (.filled 1) (.filled 2) 100)
    (.filled 3) .epoch .epoch with
  | error e =>
    obtain rfl := Reasoner.run_error h
    rw [Reasoner.new_maxIterations] at h
    exact h
  | ok report =>
    have hlt := (run_ok_iff_lt name_injective hinj (by omega) rfl _ _ _).mp ⟨report, h⟩
    exact absurd hlt (lt_irrefl 100)

end AtomrOntology
