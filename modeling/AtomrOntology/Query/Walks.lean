import AtomrOntology.Store.Joins

/-!
# Walks of single hops

A plan without repeats visits the nodes of a walk: from a stored seed each step goes over an
edge to another node, a target of the step. What the plan answers is what it binds on
its walks. The last part says what changes when a pattern gets another type or when the plan
gets another step.
-/

namespace AtomrOntology

open Walk

variable {o : Ontology} {plan : TraversalPlan} {step : TraversalStep} {steps : List TraversalStep}
  {x y : NodeId}

/-- Nodes that single hops visit after a node. -/
def WalksFrom (o : Ontology) : List TraversalStep → NodeId → List NodeId → Prop
  | [], _, [] => True
  | step :: steps, x, y :: ys =>
    (Hop o step x y ∧ y ≠ x ∧ IsTarget o step y) ∧ WalksFrom o steps y ys
  | _, _, _ => False

/-- Nodes that a plan of single hops visits. -/
def IsWalk (o : Ontology) (plan : TraversalPlan) : List NodeId → Prop
  | [] => False
  | x :: ys =>
    (∃ node ∈ o.nodes.vals, matchNode node plan.seed ∧ node.id = x) ∧ WalksFrom o plan.steps x ys

/-- The patterns of a plan: the seed, then the target of each step. -/
def TraversalPlan.patterns (plan : TraversalPlan) : List NodePattern :=
  plan.seed :: plan.steps.map TraversalStep.target

/-- The names of the patterns. -/
def TraversalPlan.binds (plan : TraversalPlan) : List (Option String) :=
  plan.patterns.map NodePattern.bind

/-- What a plan binds on a walk. -/
def TraversalPlan.assign (plan : TraversalPlan) (xs : List NodeId) : BTreeMap String NodeId :=
  bindAll (plan.patterns.zip xs)

/-- The node bindings that a plan returns. -/
def answers (o : Ontology) (plan : TraversalPlan) : Set (BTreeMap String NodeId) :=
  {m | ∃ row ∈ traverse o plan, m = row.nodes}

/-- The names that a plan binds. -/
def TraversalPlan.names (plan : TraversalPlan) : List String :=
  plan.binds.filterMap id

/-- A walk has a node for each step. -/
theorem length_of_walksFrom {ys : List NodeId} (h : WalksFrom o steps x ys) :
    ys.length = steps.length := by
  induction steps generalizing x ys with
  | nil =>
    cases ys with
    | nil => rfl
    | cons y ys => exact h.elim
  | cons step steps ih =>
    cases ys with
    | nil => exact h.elim
    | cons y ys => rw [List.length_cons, List.length_cons, ih h.2]

theorem IsWalk.length {xs : List NodeId} (h : IsWalk o plan xs) :
    xs.length = plan.patterns.length := by
  cases xs with
  | nil => exact h.elim
  | cons x ys => simp [TraversalPlan.patterns, length_of_walksFrom h.2]

/-- Only the names of the patterns matter. -/
theorem assign_congr {plan' : TraversalPlan} (h : plan.binds = plan'.binds) (xs : List NodeId) :
    plan.assign xs = plan'.assign xs := by
  have hzip : ∀ (ps ps' : List NodePattern) (m : BTreeMap String NodeId) (xs : List NodeId),
      ps.map NodePattern.bind = ps'.map NodePattern.bind →
      (ps.zip xs).foldl bindVisit m = (ps'.zip xs).foldl bindVisit m := by
    intro ps
    induction ps with
    | nil =>
      intro ps' m xs h
      rw [List.map_nil, eq_comm, List.map_eq_nil_iff] at h
      rw [h]
    | cons p ps ih =>
      intro ps' m xs h
      cases ps' with
      | nil => cases h
      | cons p' ps' =>
        obtain ⟨hbind, hrest⟩ := List.cons.inj h
        cases xs with
        | nil => rfl
        | cons x xs =>
          have hfirst : bindVisit m (p, x) = bindVisit m (p', x) := by
            simp only [bindVisit, hbind]
          rw [List.zip_cons_cons, List.zip_cons_cons, List.foldl_cons, List.foldl_cons, hfirst]
          exact ih ps' _ xs hrest
  exact hzip plan.patterns plan'.patterns ∅ xs h

theorem names_congr {plan' : TraversalPlan} (h : plan.binds = plan'.binds) :
    plan.names = plan'.names := by
  rw [TraversalPlan.names, TraversalPlan.names, h]

/-- Two places of one name are one place. -/
theorem place_unique (h : plan.names.Nodup) {i j : Nat} {name : String}
    (hi : plan.binds[i]? = some (some name)) (hj : plan.binds[j]? = some (some name)) : i = j := by
  obtain ⟨hilt, hi⟩ := List.getElem?_eq_some_iff.mp hi
  obtain ⟨hjlt, hj⟩ := List.getElem?_eq_some_iff.mp hj
  have hpair := List.pairwise_iff_getElem.mp (List.pairwise_filterMap.mp h)
  rcases Nat.lt_trichotomy i j with hlt | heq | hlt
  · exact absurd rfl (hpair i j hilt hjlt hlt name hi name hj)
  · exact heq
  · exact absurd rfl (hpair j i hjlt hilt hlt name hj name hi)

/-- A name is bound to the node at its place. -/
theorem get_assign (h : plan.names.Nodup) {xs : List NodeId} {i : Nat} {name : String}
    (hi : plan.binds[i]? = some (some name)) (hx : xs[i]? = some x) :
    (plan.assign xs)[name]? = some x := by
  have hbinds : ∀ j, plan.binds[j]? = plan.patterns[j]?.map NodePattern.bind :=
    fun j => List.getElem?_map
  obtain ⟨p, hp, hpname⟩ := Option.map_eq_some_iff.mp ((hbinds i).symm.trans hi)
  have hplace : (plan.patterns.zip xs)[i]? = some (p, x) :=
    List.getElem?_zip_eq_some.mpr ⟨hp, hx⟩
  refine get_bindAll_of_agree ⟨(p, x), List.mem_of_getElem? hplace, hpname⟩ fun v hv hname => ?_
  obtain ⟨j, hj⟩ := List.getElem?_of_mem hv
  obtain ⟨hq, hy⟩ := List.getElem?_zip_eq_some.mp hj
  obtain rfl := place_unique h hi (by rw [hbinds, hq, Option.map_some, hname])
  exact Option.some.inj (hy.symm.trans hx)

/-- A stored node with a label. -/
def HasLabel (o : Ontology) (x : NodeId) (ty : String) : Prop :=
  ∃ node, o.nodes[x]? = some node ∧ node.hasType ty

/-- Require a type of a node. -/
def addType (ty : String) (pattern : NodePattern) : NodePattern :=
  { pattern with types := pattern.types ++ [ty] }

/-- Require a type of the target of a step. -/
def TraversalStep.addType (ty : String) (step : TraversalStep) : TraversalStep :=
  { step with target := AtomrOntology.addType ty step.target }

/-- A pattern with a further type matches the nodes that have it too. -/
theorem matchNode_addType (node : Node) (pattern : NodePattern) (ty : String) :
    matchNode node (addType ty pattern) = (matchNode node pattern && node.hasType ty) := by
  obtain ⟨bind, types, properties, id, or, not⟩ := pattern
  simp only [matchNode, addType, List.all_append, List.all_cons, List.all_nil, Bool.and_true]
  cases node.hasType ty <;> simp

/-- A target with a further type has the label too. -/
theorem isTarget_addType {ty : String} :
    IsTarget o (step.addType ty) y ↔ IsTarget o step y ∧ HasLabel o y ty := by
  simp only [IsTarget, HasLabel, TraversalStep.addType, matchNode_addType, Bool.and_eq_true]
  constructor
  · intro h
    obtain ⟨node, hnode, hmatch, hlabel⟩ := h
    exact ⟨⟨node, hnode, hmatch⟩, node, hnode, hlabel⟩
  · intro h
    obtain ⟨⟨node, hnode, hmatch⟩, node', hnode', hlabel⟩ := h
    obtain rfl := Option.some.inj (hnode.symm.trans hnode')
    exact ⟨node, hnode, hmatch, hlabel⟩

/-- A type at one step filters by the node visited there. -/
theorem walksFrom_modify {ty : String} {idx : Nat} (hidx : idx < steps.length) {ys : List NodeId} :
    WalksFrom o (steps.modify idx (.addType ty)) x ys ↔
      WalksFrom o steps x ys ∧ ∀ y, ys[idx]? = some y → HasLabel o y ty := by
  induction steps generalizing x ys idx with
  | nil => cases hidx
  | cons step steps ih =>
    cases ys with
    | nil =>
      cases idx with
      | zero => exact iff_of_false id fun h => h.1
      | succ idx => exact iff_of_false id fun h => h.1
    | cons y ys =>
      cases idx with
      | zero =>
        simp only [List.modify_zero_cons, WalksFrom, isTarget_addType, List.getElem?_cons_zero,
          Option.some.injEq, forall_eq']
        have hhop : Hop o (step.addType ty) x y ↔ Hop o step x y := Iff.rfl
        rw [hhop]
        constructor
        · intro h
          exact ⟨⟨⟨h.1.1, h.1.2.1, h.1.2.2.1⟩, h.2⟩, h.1.2.2.2⟩
        · intro h
          exact ⟨⟨h.1.1.1, h.1.1.2.1, h.1.1.2.2, h.2⟩, h.1.2⟩
      | succ idx =>
        have hlt : idx < steps.length := by simpa using hidx
        simp only [List.modify_succ_cons, WalksFrom, ih hlt, List.getElem?_cons_succ, and_assoc]

/-- A walk along a further step ends with a hop to another node. -/
theorem walksFrom_concat {zs : List NodeId} : WalksFrom o (steps ++ [step]) x zs ↔
    ∃ ys y, zs = ys ++ [y] ∧ WalksFrom o steps x ys ∧
      Hop o step (ys.getLastD x) y ∧ y ≠ ys.getLastD x ∧ IsTarget o step y := by
  induction steps generalizing x zs with
  | nil =>
    cases zs with
    | nil => exact iff_of_false id fun h => by simp at h
    | cons z zs =>
      constructor
      · intro h
        cases zs with
        | nil => exact ⟨[], z, rfl, trivial, h.1⟩
        | cons _ _ => exact h.2.elim
      · intro h
        obtain ⟨ys, y, heq, hys, hlast⟩ := h
        cases ys with
        | nil =>
          obtain ⟨rfl, rfl⟩ := List.cons.inj heq
          exact ⟨hlast, trivial⟩
        | cons _ _ => exact hys.elim
  | cons first steps ih =>
    cases zs with
    | nil => exact iff_of_false id fun h => by simp at h
    | cons z zs =>
      simp only [List.cons_append, WalksFrom, ih]
      constructor
      · intro h
        obtain ⟨hfirst, ys, y, rfl, hys, hlast⟩ := h
        exact ⟨z :: ys, y, rfl, ⟨hfirst, hys⟩, by rwa [List.getLastD_cons]⟩
      · intro h
        obtain ⟨ys, y, heq, hys, hlast⟩ := h
        cases ys with
        | nil => exact hys.elim
        | cons w ys =>
          obtain ⟨rfl, rfl⟩ := List.cons.inj heq
          rw [List.getLastD_cons] at hlast
          exact ⟨hys.1, ys, y, rfl, hys.2, hlast⟩

/-- A plan with another step. -/
def TraversalPlan.hop (plan : TraversalPlan) (step : TraversalStep) : TraversalPlan :=
  { plan with steps := plan.steps ++ [step] }

theorem patterns_hop : (plan.hop step).patterns = plan.patterns ++ [step.target] := by
  simp [TraversalPlan.patterns, TraversalPlan.hop]

theorem binds_hop : (plan.hop step).binds = plan.binds ++ [step.target.bind] := by
  rw [TraversalPlan.binds, patterns_hop, List.map_append]
  rfl

/-- Another step binds the last node of a walk. -/
theorem assign_hop {xs : List NodeId} (h : xs.length = plan.patterns.length) :
    (plan.hop step).assign (xs ++ [y]) =
      match step.target.bind with
      | some name => (plan.assign xs).insert name y
      | none => plan.assign xs := by
  rw [TraversalPlan.assign, patterns_hop, List.zip_append h.symm]
  exact bindAll_concat (plan.patterns.zip xs) (step.target, y)

/-- Another step extends a walk by another node. -/
theorem isWalk_hop {zs : List NodeId} : IsWalk o (plan.hop step) zs ↔
    ∃ xs x y, zs = xs ++ [y] ∧ IsWalk o plan xs ∧ xs.getLast? = some x ∧
      Hop o step x y ∧ y ≠ x ∧ IsTarget o step y := by
  cases zs with
  | nil => exact iff_of_false id fun h => by simp at h
  | cons z zs =>
    have hlastD : ∀ ys : List NodeId, (z :: ys).getLast? = some (ys.getLastD z) := by
      intro ys
      rw [List.getLast?_cons, List.getLastD_eq_getLast?]
    simp only [IsWalk, TraversalPlan.hop, walksFrom_concat]
    constructor
    · intro h
      obtain ⟨hseed, ys, y, rfl, hys, hlast⟩ := h
      exact ⟨z :: ys, ys.getLastD z, y, rfl, ⟨hseed, hys⟩, hlastD ys, hlast⟩
    · intro h
      obtain ⟨xs, x, y, heq, hwalk, hx, hlast⟩ := h
      cases xs with
      | nil => exact hwalk.elim
      | cons w ys =>
        obtain ⟨rfl, rfl⟩ := List.cons.inj heq
        obtain rfl : ys.getLastD z = x := Option.some.inj ((hlastD ys).symm.trans hx)
        exact ⟨hwalk.1, ys, y, rfl, hwalk.2, hlast⟩

end AtomrOntology
