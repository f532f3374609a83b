import AtomrOntology.Query.Sparql

/-!
# Does a plan answer its query?

The solutions of a query assign stored nodes to its variables so that every triple pattern
holds. A plan is a chain: each hop leaves the node the hop before it reached, whatever the
subject of its triple is, and never returns to that node. Where the triples form such a chain,
the walks are the solutions that use no loop.
-/

namespace AtomrOntology

namespace Sparql

variable {o : Ontology} {plan : TraversalPlan} {x y : NodeId}

/-- A stored edge with a label. -/
def HasEdge (o : Ontology) (label : String) (x y : NodeId) : Prop :=
  ∃ e ∈ o.edges.vals, e.label = label ∧ e.source = x ∧ e.target = y

/-- The node of an object: that of a variable, or any node with the label of a constant. -/
def Term.Fits (o : Ontology) (μ : BTreeMap String NodeId) : Term → NodeId → Prop
  | .var v, y => μ[v]? = some y
  | .iri c, y | .localName c, y => HasLabel o y (labelLocalname c)

/-- A triple pattern holds under an assignment. -/
def TriplePattern.Holds (o : Ontology) (μ : BTreeMap String NodeId) (t : TriplePattern) : Prop :=
  ∃ s x, t.subject.asVar = some s ∧ μ[s]? = some x ∧
    match t.verb with
    | .isA => ∃ ty, t.object.label = some ty ∧ HasLabel o x (labelLocalname ty)
    | .term p => ∃ label y, p.label = some label ∧ HasEdge o (labelLocalname label) x y ∧
        t.object.Fits o μ y

/-- A triple pattern holds, and by an edge that is no loop if it asks for one. -/
def TriplePattern.HoldsApart (o : Ontology) (μ : BTreeMap String NodeId) (t : TriplePattern) :
    Prop :=
  ∃ s x, t.subject.asVar = some s ∧ μ[s]? = some x ∧
    match t.verb with
    | .isA => ∃ ty, t.object.label = some ty ∧ HasLabel o x (labelLocalname ty)
    | .term p => ∃ label y, p.label = some label ∧ HasEdge o (labelLocalname label) x y ∧
        t.object.Fits o μ y ∧ y ≠ x

/-- The variables of a triple pattern. -/
def TriplePattern.vars (t : TriplePattern) : List String :=
  t.subject.asVar.toList ++ t.object.asVar.toList

/-- An assignment of stored nodes to some variables under which some triple patterns hold. -/
structure Solves (o : Ontology) (triples : List TriplePattern) (vars : List String)
    (μ : BTreeMap String NodeId) : Prop where
  domain : ∀ v, v ∈ μ ↔ v ∈ vars
  stored : ∀ (v : String) (x : NodeId), μ[v]? = some x → ∃ node, o.nodes[x]? = some node
  holds : ∀ t ∈ triples, t.Holds o μ

/-- A solution that uses no loop. -/
structure SolvesApart (o : Ontology) (triples : List TriplePattern) (vars : List String)
    (μ : BTreeMap String NodeId) : Prop where
  domain : ∀ v, v ∈ μ ↔ v ∈ vars
  stored : ∀ (v : String) (x : NodeId), μ[v]? = some x → ∃ node, o.nodes[x]? = some node
  apart : ∀ t ∈ triples, t.HoldsApart o μ

theorem TriplePattern.HoldsApart.holds {t : TriplePattern} {μ : BTreeMap String NodeId}
    (h : t.HoldsApart o μ) : t.Holds o μ := by
  obtain ⟨s, x, hs, hx, hverb⟩ := h
  refine ⟨s, x, hs, hx, ?_⟩
  cases hv : t.verb with
  | isA =>
    rw [hv] at hverb
    exact hverb
  | term p =>
    rw [hv] at hverb
    obtain ⟨label, y, hlabel, hedge, hfits, -⟩ := hverb
    exact ⟨label, y, hlabel, hedge, hfits⟩

theorem SolvesApart.solves {triples : List TriplePattern} {vars : List String}
    {μ : BTreeMap String NodeId} (h : SolvesApart o triples vars μ) : Solves o triples vars μ :=
  ⟨h.domain, h.stored, fun t ht => (h.apart t ht).holds⟩

namespace Query

/-- The variables of a query. -/
def vars (q : Query) : List String := q.triples.flatMap TriplePattern.vars

/-- The selected part of an assignment. -/
def select (q : Query) (μ : BTreeMap String NodeId) : BTreeMap String NodeId :=
  if q.columns.isEmpty then μ else μ.filter fun v _ => v ∈ q.columns

/-- Each triple that is no type triple leads on from the variable that the one before it led
to, to a variable that was not seen before or, at the end, to a constant. -/
def ChainFrom : Option String → List String → List TriplePattern → Prop
  | _, _, [] => True
  | current, seen, t :: ts =>
    match t.verb with
    | .isA => ChainFrom current seen ts
    | .term p => p.label ≠ some "a" ∧ t.subject.asVar = current ∧
      match t.object.asVar with
      | some v => v ∉ seen ∧ ChainFrom (some v) (v :: seen) ts
      | none => ChainFrom none seen ts

end Query

theorem Term.asVar_of_label {t : Term} {c : String} (h : t.label = some c) : t.asVar = none := by
  cases t with
  | var v => cases h
  | iri _ => rfl
  | localName _ => rfl

theorem Term.fits_of_label {t : Term} {c : String} (h : t.label = some c)
    {μ : BTreeMap String NodeId} : t.Fits o μ y ↔ HasLabel o y (labelLocalname c) := by
  cases t with
  | var v => cases h
  | iri _ =>
    rw [← Option.some.inj h]
    exact Iff.rfl
  | localName _ =>
    rw [← Option.some.inj h]
    exact Iff.rfl

/-- The pattern of an edge with a label. -/
def labeled (label : String) : EdgePattern := { EdgePattern.any with label := some label }

theorem hop_labeled {label : String} {target : NodePattern} :
    Hop o ⟨labeled label, target, true⟩ x y ↔ HasEdge o label x y := by
  simp [Hop, HasEdge, matchEdge, labeled, EdgePattern.any, TraversalStep.near, TraversalStep.far]

theorem isTarget_any {edge : EdgePattern} {name : Option String} :
    IsTarget o ⟨edge, { NodePattern.any with bind := name }, true⟩ y ↔
      ∃ node, o.nodes[y]? = some node := by
  simp [IsTarget, matchNode, matchAny, NodePattern.any]

theorem isTarget_typed {edge : EdgePattern} {ty : String} :
    IsTarget o ⟨edge, addType ty .any, true⟩ y ↔ HasLabel o y ty := by
  simp [IsTarget, HasLabel, matchNode_addType, matchNode, matchAny, NodePattern.any]

/-- In a keyed store the seeds are the nodes under their ids. -/
theorem seeded_iff (hkeyed : o.nodes.KeyedBy Node.id) {pattern : NodePattern} :
    (∃ node ∈ o.nodes.vals, matchNode node pattern ∧ node.id = x) ↔
      ∃ node, o.nodes[x]? = some node ∧ matchNode node pattern := by
  constructor
  · intro h
    obtain ⟨node, hnode, hmatch, rfl⟩ := h
    obtain ⟨k, hk⟩ := BTreeMap.mem_vals.mp hnode
    exact ⟨node, (hkeyed k node hk).symm ▸ hk, hmatch⟩
  · intro h
    obtain ⟨node, hnode, hmatch⟩ := h
    exact ⟨node, BTreeMap.mem_vals.mpr ⟨x, hnode⟩, hmatch, hkeyed x node hnode⟩

/-- The place of a binding site among the patterns of a plan. -/
def BindingSite.place : BindingSite → Nat
  | .seed => 0
  | .step idx => idx + 1

theorem binds_attachType (plan : TraversalPlan) (site : BindingSite) (ty : String) :
    (attachType plan (some site) ty).binds = plan.binds := by
  cases site with
  | seed => rfl
  | step idx =>
    have hbind : ∀ step : TraversalStep, (step.addType ty).target.bind = step.target.bind :=
      fun _ => rfl
    have hsteps : ((plan.steps.modify idx (.addType ty)).map fun step => step.target.bind) =
        plan.steps.map fun step => step.target.bind := by
      apply List.ext_getElem?
      intro i
      rw [List.getElem?_map, List.getElem?_map, List.getElem?_modify]
      by_cases hi : idx = i
      · cases plan.steps[i]? <;> simp [hi, hbind]
      · cases plan.steps[i]? <;> simp [hi]
    simp only [TraversalPlan.binds, TraversalPlan.patterns, attachType, List.map_cons, List.map_map]
    exact congrArg _ hsteps

/-- A type at a site filters by the node visited there. -/
theorem isWalk_attachType (hkeyed : o.nodes.KeyedBy Node.id) {site : BindingSite} {ty : String}
    {xs : List NodeId} (hsite : site.place < plan.patterns.length) :
    IsWalk o (attachType plan (some site) ty) xs ↔
      IsWalk o plan xs ∧ ∀ x, xs[site.place]? = some x → HasLabel o x ty := by
  cases xs with
  | nil => exact iff_of_false id fun h => h.1
  | cons z ys =>
    cases site with
    | seed =>
      have hseed : (∃ node, o.nodes[z]? = some node ∧ matchNode node (addType ty plan.seed)) ↔
          (∃ node, o.nodes[z]? = some node ∧ matchNode node plan.seed) ∧ HasLabel o z ty :=
        @isTarget_addType o ⟨.any, plan.seed, true⟩ z ty
      simp only [IsWalk, attachType, BindingSite.place, seeded_iff hkeyed, hseed,
        List.getElem?_cons_zero, Option.some.injEq, forall_eq']
      constructor
      · intro h
        exact ⟨⟨h.1.1, h.2⟩, h.1.2⟩
      · intro h
        exact ⟨⟨h.1.1, h.2⟩, h.1.2⟩
    | step idx =>
      have hidx : idx < plan.steps.length := by
        simpa [BindingSite.place, TraversalPlan.patterns] using hsite
      simp only [IsWalk, attachType, BindingSite.place, walksFrom_modify hidx,
        List.getElem?_cons_succ, and_assoc]

/-- A triple holds or not by what its variables are assigned. -/
theorem TriplePattern.HoldsApart.congr {t : TriplePattern} {μ μ' : BTreeMap String NodeId}
    (h : t.HoldsApart o μ) (hvars : ∀ v ∈ t.vars, μ'[v]? = μ[v]?) : t.HoldsApart o μ' := by
  obtain ⟨s, x, hs, hx, hverb⟩ := h
  have hsubject : μ'[s]? = some x := (hvars s (by simp [vars, hs])).trans hx
  refine ⟨s, x, hs, hsubject, ?_⟩
  cases hv : t.verb with
  | isA =>
    rw [hv] at hverb
    exact hverb
  | term p =>
    rw [hv] at hverb
    obtain ⟨label, y, hlabel, hedge, hfits, hne⟩ := hverb
    refine ⟨label, y, hlabel, hedge, ?_, hne⟩
    cases hobject : t.object with
    | var v =>
      rw [hobject] at hfits
      exact (hvars v (by simp [vars, hobject, Term.asVar])).trans hfits
    | iri c =>
      rw [hobject] at hfits
      exact hfits
    | localName c =>
      rw [hobject] at hfits
      exact hfits

/-- What some triples were lowered to, when they are a chain so far: the plan binds each variable
seen at its site, its walks are the solutions without loops, and it ends at the current
variable. -/
structure Chained (o : Ontology) (seed : String) (done : List TriplePattern) (plan : TraversalPlan)
    (bindings : BTreeMap String BindingSite) (current : Option String) (seen : List String) :
    Prop where
  nodup : plan.names.Nodup
  names : ∀ v, v ∈ plan.names ↔ v ∈ seen
  bound : ∀ v, v ∈ bindings ↔ v ∈ seen
  sites : ∀ (v : String) (site : BindingSite), bindings[v]? = some site →
    plan.binds[site.place]? = some (some v)
  last : plan.binds.getLast? = some current
  vars : ∀ v, v ∈ seen ↔ v = seed ∨ ∃ t ∈ done, v ∈ t.vars
  solves : ∀ μ, (∃ xs, IsWalk o plan xs ∧ μ = plan.assign xs) ↔ SolvesApart o done seen μ

variable {seed : String} {done : List TriplePattern} {bindings : BTreeMap String BindingSite}
  {current : Option String} {seen : List String} {t : TriplePattern}

theorem length_binds (plan : TraversalPlan) : plan.binds.length = plan.patterns.length :=
  List.length_map _

/-- The walks of the seed alone. -/
theorem Chained.start (hkeyed : o.nodes.KeyedBy Node.id) (v : String) :
    Chained o v [] (.start { NodePattern.any with bind := some v })
      ((∅ : BTreeMap String BindingSite).insert v .seed) (some v) [v] where
  nodup := List.nodup_singleton v
  names w := by
    simp [TraversalPlan.names, TraversalPlan.binds, TraversalPlan.patterns, TraversalPlan.start]
  bound w := by
    rw [BTreeMap.mem_insert]
    simp
  sites w site h := by
    rw [BTreeMap.get_insert] at h
    by_cases hw : v = w
    · rw [if_pos hw] at h
      rw [← Option.some.inj h, ← hw]
      rfl
    · simp [hw] at h
  last := rfl
  vars w := by simp
  solves μ := by
    have hassign :
      ∀ x : NodeId, (TraversalPlan.start { NodePattern.any with bind := some v }).assign
        [x] = (∅ : BTreeMap String NodeId).insert v x := fun _ => rfl
    have hseed : ∀ x : NodeId, (∃ node, o.nodes[x]? = some node ∧
        matchNode node { NodePattern.any with bind := some v }) ↔ ∃ node, o.nodes[x]? = some node :=
      fun x => @isTarget_any o x .any (some v)
    constructor
    · intro h
      obtain ⟨xs, hwalk, rfl⟩ := h
      cases xs with
      | nil => exact hwalk.elim
      | cons x ys =>
        cases ys with
        | cons _ _ => exact hwalk.2.elim
        | nil =>
          have hstored := (hseed x).mp ((seeded_iff hkeyed).mp hwalk.1)
          rw [hassign]
          refine ⟨fun w => ?_, fun w y hy => ?_, fun t ht => absurd ht List.not_mem_nil⟩
          · rw [BTreeMap.mem_insert]
            simp
          rw [BTreeMap.get_insert] at hy
          by_cases hw : v = w
          · rw [if_pos hw] at hy
            exact Option.some.inj hy ▸ hstored
          · simp [hw] at hy
    · intro h
      obtain ⟨x, hx⟩ : ∃ x, μ[v]? = some x := by
        have hmem := (h.domain v).mpr (by simp)
        exact ⟨μ[v], Std.ExtTreeMap.getElem?_eq_some_getElem hmem⟩
      refine ⟨[x], ⟨(seeded_iff hkeyed).mpr ((hseed x).mpr (h.stored v x hx)), trivial⟩, ?_⟩
      rw [hassign]
      apply Std.ExtTreeMap.ext_getElem?
      intro w
      rw [BTreeMap.get_insert]
      by_cases hw : v = w
      · rw [if_pos hw, ← hw, hx]
      · have hnot : w ∉ μ := fun hmem => hw (by simpa [eq_comm] using (h.domain w).mp hmem)
        simp [hw, hnot]

/-- The subject of a triple that was lowered is at its site. -/
theorem Chained.exists_site (h : Chained o seed done plan bindings current seen) {s : String}
    (hs : s ∈ bindings) : ∃ site, bindings[s]? = some site ∧ site.place < plan.patterns.length := by
  have hsite : bindings[s]? = some bindings[s] := Std.ExtTreeMap.getElem?_eq_some_getElem hs
  refine ⟨_, hsite, ?_⟩
  rw [← length_binds]
  exact (List.getElem?_eq_some_iff.mp (h.sites s _ hsite)).1

/-- A type triple filters the walks as it filters the solutions. -/
theorem Chained.attachType (hkeyed : o.nodes.KeyedBy Node.id)
    (h : Chained o seed done plan bindings current seen) {s ty : String}
    (hs : t.subject.asVar = some s) (hbound : s ∈ bindings) (hverb : t.verb = .isA)
    (hty : t.object.label = some ty) : Chained o seed (done ++ [t])
      (Sparql.attachType plan bindings[s]? (labelLocalname ty)) bindings current seen := by
  obtain ⟨site, hsite, hplace⟩ := h.exists_site hbound
  rw [hsite]
  have hbinds := binds_attachType plan site (labelLocalname ty)
  have hholds : ∀ μ : BTreeMap String NodeId, t.HoldsApart o μ ↔
      ∃ x, μ[s]? = some x ∧ HasLabel o x (labelLocalname ty) := by
    intro μ
    simp [TriplePattern.HoldsApart, hs, hverb, hty]
  have hvars : t.vars = [s] := by
    rw [TriplePattern.vars, hs, Term.asVar_of_label hty]
    rfl
  refine ⟨?_, ?_, h.bound, ?_, ?_, ?_, fun μ => ?_⟩
  · rw [names_congr hbinds]
    exact h.nodup
  · rw [names_congr hbinds]
    exact h.names
  · rw [hbinds]
    exact h.sites
  · rw [hbinds]
    exact h.last
  · intro v
    have hseen : s ∈ seen := (h.bound s).mp hbound
    simp only [List.mem_append, List.mem_singleton, or_and_right, exists_or, exists_eq_left, hvars]
    rw [← or_assoc, ← h.vars]
    constructor
    · exact Or.inl
    · intro hv
      obtain hv | rfl := hv
      · exact hv
      · exact hseen
  · -- the node at the site is the one assigned to the subject
    have hget :
      ∀ xs, IsWalk o plan xs → ∀ x, xs[site.place]? = some x → (plan.assign xs)[s]? = some x :=
      fun xs _ x hx => get_assign h.nodup (h.sites s site hsite) hx
    constructor
    · intro hwalk
      obtain ⟨xs, hwalk, rfl⟩ := hwalk
      obtain ⟨hwalk, hlabel⟩ := (isWalk_attachType hkeyed hplace).mp hwalk
      rw [assign_congr hbinds]
      obtain ⟨hdomain, hstored, hdone⟩ := (h.solves _).mp ⟨xs, hwalk, rfl⟩
      refine ⟨hdomain, hstored, fun t' ht' => ?_⟩
      obtain ht' | ht' := List.mem_append.mp ht'
      · exact hdone t' ht'
      · rw [List.mem_singleton.mp ht', hholds]
        have hlt : site.place < xs.length := by rw [hwalk.length]; exact hplace
        have hx := List.getElem?_eq_getElem hlt
        exact ⟨_, hget xs hwalk _ hx, hlabel _ hx⟩
    · intro hsolves
      obtain ⟨xs, hwalk, rfl⟩ := (h.solves μ).mpr ⟨hsolves.domain, hsolves.stored,
        fun t' ht' => hsolves.apart t' (List.mem_append_left _ ht')⟩
      refine ⟨xs, (isWalk_attachType hkeyed hplace).mpr ⟨hwalk, fun x hx => ?_⟩,
        (assign_congr hbinds xs).symm⟩
      obtain ⟨x', hx', hlabel⟩ := (hholds _).mp (hsolves.apart t (by simp))
      rw [hget xs hwalk x hx] at hx'
      exact Option.some.inj hx' ▸ hlabel

/-- The last node of a walk is the one assigned to the current variable. -/
theorem Chained.last_node (h : Chained o seed done plan bindings current seen) {xs : List NodeId}
    (hwalk : IsWalk o plan xs) {s : String} (hcurrent : current = some s) :
    xs.getLast? = some x ↔ (plan.assign xs)[s]? = some x := by
  have hlength : xs.length = plan.binds.length := hwalk.length.trans (length_binds plan).symm
  have hlast := h.last
  rw [List.getLast?_eq_getElem?, ← hlength] at hlast
  have hlt : xs.length - 1 < xs.length := by
    rw [hlength, ← hlength, List.getElem?_eq_some_iff] at hlast
    exact hlength ▸ hlast.1
  have hx := List.getElem?_eq_getElem hlt
  have hget := get_assign h.nodup (hcurrent ▸ hlast) hx
  rw [List.getLast?_eq_getElem?, hx, hget]

/-- The variables after another triple. -/
theorem Chained.vars_concat (h : Chained o seed done plan bindings current seen)
    {seen' : List String} (hseen : ∀ v, v ∈ seen' ↔ v ∈ seen ∨ v ∈ t.vars) (v : String) :
    v ∈ seen' ↔ v = seed ∨ ∃ t' ∈ done ++ [t], v ∈ t'.vars := by
  simp only [hseen, h.vars, List.mem_append, List.mem_singleton, or_and_right, exists_or,
    exists_eq_left, or_assoc]

theorem Chained.vars_subset (h : Chained o seed done plan bindings current seen) {v : String}
    (ht : t ∈ done) (hv : v ∈ t.vars) : v ∈ seen :=
  (h.vars v).mpr (Or.inr ⟨t, ht, hv⟩)

/-- A hop to a new variable extends the walks as it extends the solutions. -/
theorem Chained.hop_var (h : Chained o seed done plan bindings current seen)
    {s v label : String} {p : Term} (hs : t.subject.asVar = some s) (hcurrent : current = some s)
    (hverb : t.verb = .term p) (hlabel : p.label = some label) (hobject : t.object = .var v)
    (hnew : v ∉ seen) :
    Chained o seed (done ++ [t])
      (plan.hop ⟨labeled (labelLocalname label), { NodePattern.any with bind := some v }, true⟩)
      (bindings.insert v (.step plan.steps.length)) (some v) (v :: seen) := by
  have hseen : s ∈ seen := by
    rw [← h.names, TraversalPlan.names, List.mem_filterMap]
    exact ⟨some s, List.mem_of_getLast? (hcurrent ▸ h.last), rfl⟩
  have hsv : v ≠ s := fun heq => hnew (heq ▸ hseen)
  have hvars : t.vars = [s, v] := by
    rw [TriplePattern.vars, hs, hobject]
    rfl
  have hholds : ∀ μ : BTreeMap String NodeId, t.HoldsApart o μ ↔
      ∃ x y, μ[s]? = some x ∧ HasEdge o (labelLocalname label) x y ∧ μ[v]? = some y ∧ y ≠ x := by
    intro μ
    simp [TriplePattern.HoldsApart, hs, hverb, hlabel, hobject, Term.Fits]
  have hassign : ∀ (xs : List NodeId) (y : NodeId), IsWalk o plan xs →
      (plan.hop ⟨labeled (labelLocalname label), { NodePattern.any with bind := some v },
        true⟩).assign
        (xs ++ [y]) = (plan.assign xs).insert v y := fun xs y hwalk => assign_hop hwalk.length
  refine ⟨?_, ?_, ?_, ?_, ?_, h.vars_concat ?_, fun μ => ?_⟩
  · rw [TraversalPlan.names, binds_hop, List.filterMap_append]
    refine List.nodup_append.mpr ⟨h.nodup, List.nodup_singleton v, fun a ha b hb => ?_⟩
    rw [List.mem_singleton.mp hb]
    exact fun heq => hnew ((h.names v).mp (heq ▸ ha))
  · intro w
    rw [TraversalPlan.names, binds_hop, List.filterMap_append, List.mem_append, List.mem_cons,
      ← h.names, or_comm]
    exact or_congr List.mem_singleton Iff.rfl
  · intro w
    rw [BTreeMap.mem_insert, List.mem_cons, h.bound]
  · intro w site hw
    rw [BTreeMap.get_insert] at hw
    rw [binds_hop]
    by_cases hvw : v = w
    · rw [if_pos hvw] at hw
      rw [← Option.some.inj hw, ← hvw]
      have hplace : (BindingSite.step plan.steps.length).place = plan.binds.length := by
        simp [BindingSite.place, length_binds, TraversalPlan.patterns]
      rw [hplace, List.getElem?_append_right le_rfl]
      simp
    · rw [if_neg hvw] at hw
      have hsite := h.sites w site hw
      rw [List.getElem?_append_left (List.getElem?_eq_some_iff.mp hsite).1]
      exact hsite
  · rw [binds_hop]
    exact List.getLast?_concat
  · intro w
    rw [hvars, List.mem_cons, List.mem_cons, List.mem_singleton]
    constructor
    · intro hw
      obtain rfl | hw := hw
      · exact Or.inr (Or.inr rfl)
      · exact Or.inl hw
    · intro hw
      obtain hw | rfl | rfl := hw
      · exact Or.inr hw
      · exact Or.inr hseen
      · exact Or.inl rfl
  · constructor
    · intro hwalk
      obtain ⟨zs, hwalk, rfl⟩ := hwalk
      obtain ⟨xs, x, y, rfl, hwalk, hlast, hhop, hne, htarget⟩ := isWalk_hop.mp hwalk
      obtain ⟨hdomain, hstored, hdone⟩ := (h.solves _).mp ⟨xs, hwalk, rfl⟩
      rw [hassign xs y hwalk]
      refine ⟨fun w => ?_, fun w z hz => ?_, fun t' ht' => ?_⟩
      · rw [BTreeMap.mem_insert, List.mem_cons, hdomain]
      · rw [BTreeMap.get_insert] at hz
        by_cases hvw : v = w
        · rw [if_pos hvw] at hz
          exact Option.some.inj hz ▸ isTarget_any.mp htarget
        · rw [if_neg hvw] at hz
          exact hstored w z hz
      · obtain ht' | ht' := List.mem_append.mp ht'
        · refine (hdone t' ht').congr fun w hw => ?_
          have hvw : v ≠ w := fun heq => hnew (heq ▸ h.vars_subset ht' hw)
          rw [BTreeMap.get_insert, if_neg hvw]
        · rw [List.mem_singleton.mp ht', hholds]
          refine ⟨x, y, ?_, hop_labeled.mp hhop, ?_, hne⟩
          · rw [BTreeMap.get_insert, if_neg hsv]
            exact (h.last_node hwalk hcurrent).mp hlast
          · rw [BTreeMap.get_insert, if_pos rfl]
    · intro hsolves
      obtain ⟨x, y, hx, hedge, hy, hne⟩ := (hholds μ).mp (hsolves.apart t (by simp))
      have hget : ∀ w, (μ.erase v)[w]? = if v = w then none else μ[w]? := by
        intro w
        simp only [Std.ExtTreeMap.getElem?_erase, Std.LawfulEqOrd.compare_eq_iff_eq]
      -- without the new variable the assignment solves the triples before
      have hbefore : SolvesApart o done seen (μ.erase v) := by
        refine ⟨fun w => ?_, fun w z hz => ?_, fun t' ht' => ?_⟩
        · rw [Std.ExtTreeMap.mem_iff_isSome_getElem?, hget]
          by_cases hvw : v = w
          · rw [if_pos hvw]
            exact iff_of_false (by simp) (hvw ▸ hnew)
          · rw [if_neg hvw, ← Std.ExtTreeMap.mem_iff_isSome_getElem?, hsolves.domain, List.mem_cons]
            exact or_iff_right (Ne.symm hvw)
        · rw [hget] at hz
          by_cases hvw : v = w
          · simp [hvw] at hz
          · rw [if_neg hvw] at hz
            exact hsolves.stored w z hz
        · refine (hsolves.apart t' (List.mem_append_left _ ht')).congr fun w hw => ?_
          have hvw : v ≠ w := fun heq => hnew (heq ▸ h.vars_subset ht' hw)
          rw [hget, if_neg hvw]
      obtain ⟨xs, hwalk, heq⟩ := (h.solves _).mpr hbefore
      have hlast : xs.getLast? = some x := by
        rw [h.last_node hwalk hcurrent, ← heq, hget, if_neg hsv]
        exact hx
      refine ⟨xs ++ [y], isWalk_hop.mpr ⟨xs, x, y, rfl, hwalk, hlast, hop_labeled.mpr hedge, hne,
        isTarget_any.mpr (hsolves.stored v y hy)⟩, ?_⟩
      rw [hassign xs y hwalk, ← heq]
      apply Std.ExtTreeMap.ext_getElem?
      intro w
      rw [BTreeMap.get_insert, hget]
      by_cases hvw : v = w
      · rw [if_pos hvw, ← hvw, hy]
      · rw [if_neg hvw, if_neg hvw]

/-- A hop to a constant filters the walks as it filters the solutions. -/
theorem Chained.hop_constant (h : Chained o seed done plan bindings current seen)
    {s label c : String} {p : Term} (hs : t.subject.asVar = some s) (hcurrent : current = some s)
    (hverb : t.verb = .term p) (hlabel : p.label = some label) (hobject : t.object.label = some c) :
    Chained o seed (done ++ [t])
      (plan.hop ⟨labeled (labelLocalname label), addType (labelLocalname c) .any, true⟩)
      bindings none seen := by
  have hseen : s ∈ seen := by
    rw [← h.names, TraversalPlan.names, List.mem_filterMap]
    exact ⟨some s, List.mem_of_getLast? (hcurrent ▸ h.last), rfl⟩
  have hvars : t.vars = [s] := by
    rw [TriplePattern.vars, hs, Term.asVar_of_label hobject]
    rfl
  have hholds : ∀ μ : BTreeMap String NodeId, t.HoldsApart o μ ↔ ∃ x y, μ[s]? = some x ∧
      HasEdge o (labelLocalname label) x y ∧ HasLabel o y (labelLocalname c) ∧ y ≠ x := by
    intro μ
    simp [TriplePattern.HoldsApart, hs, hverb, hlabel, Term.fits_of_label hobject]
  have hbinds :
    (plan.hop ⟨labeled (labelLocalname label), addType (labelLocalname c) .any, true⟩).binds =
      plan.binds ++ [none] := binds_hop
  have hnames :
    (plan.hop ⟨labeled (labelLocalname label), addType (labelLocalname c) .any, true⟩).names =
      plan.names := by
    rw [TraversalPlan.names, hbinds, List.filterMap_append]
    exact List.append_nil _
  have hassign : ∀ (xs : List NodeId) (y : NodeId), IsWalk o plan xs →
      (plan.hop ⟨labeled (labelLocalname label), addType (labelLocalname c) .any, true⟩).assign
        (xs ++ [y]) = plan.assign xs := fun xs y hwalk => assign_hop hwalk.length
  refine ⟨hnames ▸ h.nodup, hnames ▸ h.names, h.bound, ?_, ?_, h.vars_concat ?_, fun μ => ?_⟩
  · intro w site hw
    have hsite := h.sites w site hw
    rw [hbinds, List.getElem?_append_left (List.getElem?_eq_some_iff.mp hsite).1]
    exact hsite
  · rw [hbinds]
    exact List.getLast?_concat
  · intro w
    rw [hvars, List.mem_singleton]
    exact (or_iff_left_of_imp fun hw => hw ▸ hseen).symm
  · constructor
    · intro hwalk
      obtain ⟨zs, hwalk, rfl⟩ := hwalk
      obtain ⟨xs, x, y, rfl, hwalk, hlast, hhop, hne, htarget⟩ := isWalk_hop.mp hwalk
      obtain ⟨hdomain, hstored, hdone⟩ := (h.solves _).mp ⟨xs, hwalk, rfl⟩
      rw [hassign xs y hwalk]
      refine ⟨hdomain, hstored, fun t' ht' => ?_⟩
      obtain ht' | ht' := List.mem_append.mp ht'
      · exact hdone t' ht'
      · rw [List.mem_singleton.mp ht', hholds]
        exact ⟨x, y, (h.last_node hwalk hcurrent).mp hlast, hop_labeled.mp hhop,
          isTarget_typed.mp htarget, hne⟩
    · intro hsolves
      obtain ⟨x, y, hx, hedge, hy, hne⟩ := (hholds μ).mp (hsolves.apart t (by simp))
      obtain ⟨xs, hwalk, rfl⟩ := (h.solves μ).mpr ⟨hsolves.domain, hsolves.stored,
        fun t' ht' => hsolves.apart t' (List.mem_append_left _ ht')⟩
      exact ⟨xs ++ [y], isWalk_hop.mpr ⟨xs, x, y, rfl, hwalk, (h.last_node hwalk hcurrent).mpr hx,
        hop_labeled.mpr hedge, hne, isTarget_typed.mpr hy⟩, (hassign xs y hwalk).symm⟩

/-- What one triple is lowered to. -/
theorem compileTriple_cases {plan' : TraversalPlan} {bindings' : BTreeMap String BindingSite}
    (h : compileTriple plan bindings t = .ok (plan', bindings')) :
    ∃ s label, t.subject.asVar = some s ∧ s ∈ bindings ∧ t.verb.toTerm.label = some label ∧
      ((label = "a" ∧ ∃ ty, t.object.label = some ty ∧ bindings' = bindings ∧
          plan' = attachType plan bindings[s]? (labelLocalname ty)) ∨
        (label ≠ "a" ∧ ∃ v, t.object = .var v ∧
          bindings' =
          (if v ∈ bindings then bindings else bindings.insert v (.step plan.steps.length)) ∧
          plan' = plan.hop
            ⟨labeled (labelLocalname label), { NodePattern.any with bind := some v }, true⟩) ∨
        (label ≠ "a" ∧ ∃ c, t.object.label = some c ∧ bindings' = bindings ∧
          plan' = plan.hop ⟨labeled (labelLocalname label), addType (labelLocalname c) .any, true⟩))
            := by
  unfold compileTriple at h
  cases hs : t.subject.asVar with
  | none => simp [hs] at h
  | some s =>
    by_cases hbound : bindings.contains s
    · cases hlabel : t.verb.toTerm.label with
      | none => simp [hs, hbound, hlabel] at h
      | some label =>
        refine ⟨s, label, rfl, hbound, rfl, ?_⟩
        by_cases ha : label = "a"
        · cases hty : t.object.label with
          | none => simp [hs, hbound, hlabel, ha, hty] at h
          | some ty =>
            simp only [hs, hbound, hlabel, ha, hty, Bool.not_true, Bool.false_eq_true, if_false,
              if_true, Except.ok.injEq, Prod.mk.injEq] at h
            exact Or.inl ⟨ha, ty, rfl, h.2.symm, h.1.symm⟩
        · simp only [hs, hbound, hlabel, ha, Bool.not_true, Bool.false_eq_true, if_false] at h
          cases hobject : t.object with
          | var v =>
            rw [hobject] at h
            obtain ⟨hplan, hbindings⟩ := Prod.mk.inj (Except.ok.inj h)
            exact Or.inr (Or.inl ⟨ha, v, rfl, hbindings.symm, hplan.symm⟩)
          | iri c =>
            rw [hobject] at h
            obtain ⟨hplan, hbindings⟩ := Prod.mk.inj (Except.ok.inj h)
            exact Or.inr (Or.inr ⟨ha, c, rfl, hbindings.symm, hplan.symm⟩)
          | localName c =>
            rw [hobject] at h
            obtain ⟨hplan, hbindings⟩ := Prod.mk.inj (Except.ok.inj h)
            exact Or.inr (Or.inr ⟨ha, c, rfl, hbindings.symm, hplan.symm⟩)
    · simp [hs, hbound] at h

/-- One more triple of a chain. -/
theorem Chained.compileTriple (hkeyed : o.nodes.KeyedBy Node.id)
    (h : Chained o seed done plan bindings current seen) {ts : List TriplePattern}
    (hchain : Query.ChainFrom current seen (t :: ts))
    {plan' : TraversalPlan} {bindings' : BTreeMap String BindingSite}
    (hcompile : Sparql.compileTriple plan bindings t = .ok (plan', bindings')) :
    ∃ current' seen', Chained o seed (done ++ [t]) plan' bindings' current' seen' ∧
      Query.ChainFrom current' seen' ts := by
  obtain ⟨s, label, hs, hbound, hlabel, hcases⟩ := compileTriple_cases hcompile
  cases hverb : t.verb with
  | isA =>
    rw [hverb] at hlabel
    have ha : label = "a" := (Option.some.inj hlabel).symm
    simp only [Query.ChainFrom, hverb] at hchain
    obtain ⟨-, ty, hty, rfl, rfl⟩ | ⟨hne, -⟩ | ⟨hne, -⟩ := hcases
    · exact ⟨current, seen, h.attachType hkeyed hs hbound hverb hty, hchain⟩
    · exact absurd ha hne
    · exact absurd ha hne
  | term p =>
    rw [hverb] at hlabel
    simp only [Query.ChainFrom, hverb] at hchain
    obtain ⟨hnota, hcurrent, hrest⟩ := hchain
    obtain ⟨ha, -⟩ | ⟨-, v, hobject, rfl, rfl⟩ | ⟨-, c, hc, rfl, rfl⟩ := hcases
    · exact absurd (ha ▸ hlabel) hnota
    · rw [hobject] at hrest
      obtain ⟨hnew, hrest⟩ := hrest
      have hunbound : v ∉ bindings := fun hv => hnew ((h.bound v).mp hv)
      rw [if_neg hunbound]
      exact ⟨some v, v :: seen,
        h.hop_var hs (hcurrent.symm.trans hs) hverb hlabel hobject hnew, hrest⟩
    · rw [Term.asVar_of_label hc] at hrest
      exact ⟨none, seen, h.hop_constant hs (hcurrent.symm.trans hs) hverb hlabel hc, hrest⟩

/-- All triples of a chain. -/
theorem Chained.compileTriples (hkeyed : o.nodes.KeyedBy Node.id) {ts : List TriplePattern}
    (h : Chained o seed done plan bindings current seen)
    (hchain : Query.ChainFrom current seen ts) {plan' : TraversalPlan}
    (hcompile : Sparql.compileTriples plan bindings ts = .ok plan') :
    ∃ bindings' current' seen', Chained o seed (done ++ ts) plan' bindings' current' seen' := by
  induction ts generalizing done plan bindings current seen with
  | nil =>
    rw [← Except.ok.inj hcompile, List.append_nil]
    exact ⟨bindings, current, seen, h⟩
  | cons t ts ih =>
    cases hfirst : Sparql.compileTriple plan bindings t with
    | error e =>
      rw [Sparql.compileTriples, hfirst] at hcompile
      cases hcompile
    | ok next =>
      obtain ⟨plan₁, bindings₁⟩ := next
      rw [Sparql.compileTriples, hfirst] at hcompile
      obtain ⟨current₁, seen₁, h₁, hchain₁⟩ := h.compileTriple hkeyed hchain hfirst
      have hlast := ih h₁ hchain₁ hcompile
      rwa [List.append_assoc] at hlast

end Sparql

end AtomrOntology
