import AtomrOntology.Core.Multimap
import AtomrOntology.Validate.Shapes

/-!
# Consistency

The checks of an ontology against its axioms: disjoint classes, functional edges and cycles of the
subclass relation. A cycle is reported for each class on it and for no other class.
-/

namespace AtomrOntology

namespace Consistency

/-- What the checks collect from the axioms. -/
structure Collected where
  disjointPairs : List (String × String)
  functional : BTreeSet String
  subclassOf : BTreeMap String (List String)

/-- Collect one more axiom. -/
def Collected.add (c : Collected) (ax : Axiom) : Collected :=
  match ax.kind with
  | .disjointWith left right => { c with disjointPairs := c.disjointPairs ++ [(left, right)] }
  | .functional property => { c with functional := c.functional.insert property }
  | .subClassOf sub sup => { c with subclassOf := c.subclassOf.entryOr sub [] (· ++ [sup]) }
  | _ => c

/-- Collect the axioms of an ontology. -/
def collect (o : Ontology) : Collected := o.axioms.vals.foldl Collected.add ⟨[], ∅, ∅⟩

/-- An axiom of the ontology is of a kind. -/
def States (o : Ontology) (kind : AxiomKind) : Prop := ∃ ax ∈ o.axioms.vals, ax.kind = kind

/-- What a disjoint pair finds at a node. -/
def disjointFindings (node : Node) (pair : String × String) : List ValidationFinding :=
  if node.types.contains pair.1 && node.types.contains pair.2 then
    [(ValidationFinding.error "axiom.disjoint" ("node " ++ node.id.toHex ++
      " holds both disjoint types `" ++ pair.1 ++ "` and `" ++ pair.2 ++ "`")).focusOn
        node.id.toHex]
  else []

/-- The loop over the edges, with the number of functional edges of each label and source. -/
def functionalFindings (functional : BTreeSet String) :
    List Edge → BTreeMap (String × NodeId) Nat → List ValidationFinding
  | [], _ => []
  | edge :: rest, bySource =>
    if functional.contains edge.label then
      let bySource := bySource.entryOr (edge.label, edge.source) 0 (· + 1)
      let counter := bySource[(edge.label, edge.source)]?.getD 0
      let findings := if 1 < counter then
          [(ValidationFinding.error "axiom.functional" ("functional edge `" ++ edge.label ++
            "` has multiple targets from source " ++ edge.source.toHex)).focusOn edge.id.toHex]
        else []
      findings ++ functionalFindings functional rest bySource
    else functionalFindings functional rest bySource

/-- The inner loop: push what follows a node, or nothing if the start is met. -/
def pushUps (start : String) : List String → List String → Option (List String)
  | [], stack => some stack
  | up :: ups, stack => if up = start then none else pushUps start ups (up :: stack)

/-- What follows a class. -/
def ups (edges : BTreeMap String (List String)) (node : String) : List String :=
  edges[node]?.getD []

/-- The loop of `has_cycle`, or nothing if the fuel runs out first. -/
def hasCycleLoop (start : String) (edges : BTreeMap String (List String)) :
    Nat → List String → BTreeSet String → Option Bool
  | _, [], _ => some false
  | 0, _ :: _, _ => none
  | fuel + 1, node :: stack, seen =>
    if seen.contains node then hasCycleLoop start edges fuel stack seen
    else
      match pushUps start (ups edges node) stack with
      | none => some true
      | some stack => hasCycleLoop start edges fuel stack (seen.insert node)

/-- As many steps as there are arcs, and one for the start. -/
def cycleFuel (edges : BTreeMap String (List String)) : Nat :=
  1 + (edges.keys.map fun name => (ups edges name).length).sum

/-- `has_cycle`. -/
def hasCycle (start : String) (edges : BTreeMap String (List String)) : Bool :=
  (hasCycleLoop start edges (cycleFuel edges) [start] ∅).getD false

/-- The finding of a class on a cycle. -/
def cycleFinding (start : String) : ValidationFinding :=
  .error "axiom.subclass.cycle" ("subclass relation forms a cycle starting at `" ++ start ++ "`")

end Consistency

/-- The order in which the keys of a hash map are visited. -/
structure KeyOrder where
  visit : List String → List String
  perm : ∀ keys, (visit keys).Perm keys

/-- The order of the keys themselves. -/
def KeyOrder.sorted : KeyOrder := ⟨id, fun _ => .refl _⟩

open Consistency in
/-- Verify that no node violates an active disjointness or functional axiom. -/
def checkConsistency (order : KeyOrder) (o : Ontology) : ValidationReport :=
  let c := collect o
  ⟨(o.nodes.vals.flatMap fun node => c.disjointPairs.flatMap (disjointFindings node)) ++
    functionalFindings c.functional o.edges.vals ∅ ++
    ((order.visit c.subclassOf.keys).filter fun start => hasCycle start c.subclassOf).map
      cycleFinding⟩

/-- Run all available checks and aggregate them into a single report. -/
def validate [DebugEscapes] (order : KeyOrder) (o : Ontology) : ValidationReport :=
  (checkShapes o).extend (checkConsistency order o)

namespace Consistency

section

variable {o : Ontology}

/-- The collected pairs are those that are stated to be disjoint. -/
theorem mem_disjointPairs {left right : String} :
    (left, right) ∈ (collect o).disjointPairs ↔ States o (.disjointWith left right) := by
  have hstep : ∀ (c : Collected) (ax : Axiom) (pair : String × String),
      pair ∈ (c.add ax).disjointPairs ↔
        pair ∈ c.disjointPairs ∨ ax.kind = .disjointWith pair.1 pair.2 := by
    intro c ax pair
    obtain ⟨left, right⟩ := pair
    unfold Collected.add
    split
    · next a b h => simp [h, eq_comm]
    · next h => simp [h]
    · next h => simp [h]
    · next hd _ _ =>
      have hne : ax.kind ≠ .disjointWith left right := fun h => hd left right h
      simp [hne]
  have h := foldl_collects (fun (c : Collected) pair => pair ∈ c.disjointPairs)
    (fun ax pair => ax.kind = .disjointWith pair.1 pair.2) hstep o.axioms.vals ⟨[], ∅, ∅⟩
    (left, right)
  rw [collect, States, h]
  simp

/-- The collected labels are those that are stated to be functional. -/
theorem mem_functional {property : String} :
    property ∈ (collect o).functional ↔ States o (.functional property) := by
  have hstep : ∀ (c : Collected) (ax : Axiom) (p : String),
      p ∈ (c.add ax).functional ↔ p ∈ c.functional ∨ ax.kind = .functional p := by
    intro c ax p
    unfold Collected.add
    split
    · next h => simp [h]
    · next a h =>
      dsimp only
      rw [BTreeSet.mem_insert, or_comm, h, AxiomKind.functional.injEq, eq_comm]
    · next h => simp [h]
    · next _ hf _ =>
      have hne : ax.kind ≠ .functional p := fun h => hf p h
      simp [hne]
  have h := foldl_collects (fun (c : Collected) p => p ∈ c.functional)
    (fun ax p => ax.kind = .functional p) hstep o.axioms.vals ⟨[], ∅, ∅⟩ property
  rw [collect, States, h]
  simp

/-- Upwards from a class are the classes that it is stated to be a subclass of. -/
theorem mem_ups {sub sup : String} :
    sup ∈ ups (collect o).subclassOf sub ↔ States o (.subClassOf sub sup) := by
  have hstep : ∀ (c : Collected) (ax : Axiom) (arc : String × String),
      arc.2 ∈ ups (c.add ax).subclassOf arc.1 ↔
        arc.2 ∈ ups c.subclassOf arc.1 ∨ ax.kind = .subClassOf arc.1 arc.2 := by
    intro c ax arc
    obtain ⟨sub, sup⟩ := arc
    unfold Collected.add ups
    split
    · next h => simp [h]
    · next h => simp [h]
    · next a b h =>
      dsimp only
      rw [BTreeMap.get_entryOr]
      by_cases hsub : a = sub
      · subst hsub
        simp [h, eq_comm]
      · simp [h, hsub]
    · next _ _ hs =>
      have hne : ax.kind ≠ .subClassOf sub sup := fun h => hs sub sup h
      simp [hne]
  have h := foldl_collects (fun (c : Collected) (arc : String × String) =>
    arc.2 ∈ ups c.subclassOf arc.1) (fun ax arc => ax.kind = .subClassOf arc.1 arc.2) hstep
    o.axioms.vals ⟨[], ∅, ∅⟩ (sub, sup)
  rw [collect, States, h]
  simp [ups]

end

section

variable {edges : BTreeMap String (List String)} {start : String}

/-- Pushing superclasses stops at the start, and otherwise keeps the rest of the stack. -/
theorem pushUps_eq (xs stack : List String) : pushUps start xs stack =
    if start ∈ xs then none else some (xs.reverse ++ stack) := by
  induction xs generalizing stack with
  | nil => simp [pushUps]
  | cons up xs ih =>
    rw [pushUps, ih]
    by_cases hup : up = start
    · simp [hup]
    · simp [hup, Ne.symm hup]

/-- A class with superclasses is a key. -/
theorem mem_keys_of_ups {name : String} (h : ups edges name ≠ []) : name ∈ edges.keys := by
  rw [Std.ExtTreeMap.mem_keys, Std.ExtTreeMap.mem_iff_isSome_getElem?]
  unfold ups at h
  cases hname : edges[name]? with
  | some _ => rfl
  | none =>
    rw [hname] at h
    exact absurd rfl h

/-- With enough fuel the loop returns, and answers whether a way leads back to the start, unless
it passed one of the nodes that it saw before. -/
theorem hasCycleLoop_spec {fuel : Nat} {stack : List String} {seen : BTreeSet String}
    (hfuel : DepthFirst.work (ups edges) edges.keys {x | x ∈ seen} stack ≤ fuel)
    (h : DepthFirst.Frontier (ups edges) start {x | x ∈ seen} stack)
    (hback : ∀ x ∈ seen, start ∉ ups edges x) :
    ∃ answer, hasCycleLoop start edges fuel stack seen = some answer ∧
      (answer = true ↔ Relation.TransGen (DepthFirst.Arc (ups edges)) start start) := by
  have hdone : DepthFirst.Frontier (ups edges) start {x | x ∈ seen} [] →
      ¬Relation.TransGen (DepthFirst.Arc (ups edges)) start start := by
    intro hend hcycle
    obtain ⟨x, hx, hstep⟩ := Relation.TransGen.tail'_iff.mp hcycle
    exact hback x (hend.mem_iff.mpr hx) hstep
  induction fuel generalizing stack seen with
  | zero =>
    cases stack with
    | nil => exact ⟨false, rfl, iff_of_false Bool.false_ne_true (hdone h)⟩
    | cons node stack =>
      rw [DepthFirst.work_skip] at hfuel
      omega
  | succ fuel ih =>
    cases stack with
    | nil => exact ⟨false, rfl, iff_of_false Bool.false_ne_true (hdone h)⟩
    | cons node stack =>
      rw [hasCycleLoop, pushUps_eq]
      by_cases hseen : node ∈ seen
      · rw [if_pos (Std.ExtTreeSet.contains_iff_mem.mpr hseen)]
        rw [DepthFirst.work_skip] at hfuel
        exact ih (by omega) (h.skip hseen) hback hdone
      · rw [if_neg (fun hmem => hseen (Std.ExtTreeSet.contains_iff_mem.mp hmem))]
        by_cases hmeet : start ∈ ups edges node
        · rw [if_pos hmeet]
          have hnode := h.reached node (Or.inr List.mem_cons_self)
          exact ⟨true, rfl, iff_of_true rfl (Relation.TransGen.tail' hnode hmeet)⟩
        · rw [if_neg hmeet]
          have hset : {x | x ∈ seen.insert node} = insert node {x | x ∈ seen} := by
            ext x
            exact BTreeSet.mem_insert
          have hwork : DepthFirst.work (ups edges) edges.keys (insert node {x | x ∈ seen})
              ((ups edges node).reverse ++ stack) + 1 ≤
                DepthFirst.work (ups edges) edges.keys {x | x ∈ seen} (node :: stack) :=
            DepthFirst.work_expand mem_keys_of_ups hseen List.length_reverse
          have hback' : ∀ x ∈ seen.insert node, start ∉ ups edges x := by
            intro x hx
            rcases BTreeSet.mem_insert.mp hx with rfl | hx
            · exact hmeet
            · exact hback x hx
          refine ih ?_ ?_ hback' ?_
          · rw [hset]
            omega
          · rw [hset]
            exact h.expand fun y => List.mem_reverse
          · intro hend hcycle
            obtain ⟨x, hx, hstep⟩ := Relation.TransGen.tail'_iff.mp hcycle
            exact hback' x (hend.mem_iff.mpr hx) hstep

/-- The search returns, and finds a cycle exactly if the class lies on one. -/
theorem hasCycle_iff (start : String) (edges : BTreeMap String (List String)) :
    hasCycleLoop start edges (cycleFuel edges) [start] ∅ = some (hasCycle start edges) ∧
      (hasCycle start edges = true ↔ Relation.TransGen (DepthFirst.Arc (ups edges)) start
        start) := by
  have hnone : {x : String | x ∈ (∅ : BTreeSet String)} = ∅ := by simp
  obtain ⟨answer, hloop, hanswer⟩ := @hasCycleLoop_spec edges start (cycleFuel edges) [start] ∅
    (by rw [hnone, DepthFirst.work_empty, cycleFuel]) (hnone ▸ .init) (by simp)
  have heq : hasCycle start edges = answer := by
    rw [hasCycle, hloop]
    rfl
  rw [heq]
  exact ⟨hloop, hanswer⟩

/-- More fuel changes nothing. -/
theorem hasCycleLoop_of_le {fuel : Nat} (hfuel : cycleFuel edges ≤ fuel) :
    hasCycleLoop start edges fuel [start] ∅ = some (hasCycle start edges) := by
  obtain ⟨-, hiff⟩ := hasCycle_iff start edges
  have hnone : {x : String | x ∈ (∅ : BTreeSet String)} = ∅ := by simp
  obtain ⟨answer, hloop, hanswer⟩ := @hasCycleLoop_spec edges start fuel [start] ∅
    (by rw [hnone, DepthFirst.work_empty]; exact hfuel) (hnone ▸ .init) (by simp)
  rw [hloop, Bool.eq_iff_iff.mpr (hanswer.trans hiff.symm)]

end

section

variable {o : Ontology}

/-- A class is stated to be a subclass of another one. -/
def SubClass (o : Ontology) (sub sup : String) : Prop := States o (.subClassOf sub sup)

/-- A class lies on a cycle of the subclass relation. -/
def OnCycle (o : Ontology) (c : String) : Prop := Relation.TransGen (SubClass o) c c

/-- A cycle is found from a class exactly if it is on one. -/
theorem hasCycle_collect {c : String} :
    hasCycle c (collect o).subclassOf = true ↔ OnCycle o c := by
  have harc : DepthFirst.Arc (ups (collect o).subclassOf) = SubClass o := by
    ext sub sup
    exact mem_ups
  rw [(hasCycle_iff c _).2, harc, OnCycle]

/-- The classes that are searched from and found to lie on a cycle. -/
def cycles (order : KeyOrder) (o : Ontology) : List String :=
  (order.visit (collect o).subclassOf.keys).filter fun start =>
    hasCycle start (collect o).subclassOf

/-- The classes reported are those on a cycle. -/
theorem mem_cycles {order : KeyOrder} {c : String} : c ∈ cycles order o ↔ OnCycle o c := by
  rw [cycles, List.mem_filter, hasCycle_collect, and_iff_right_iff_imp]
  intro hcycle
  -- a class on a cycle has a superclass, so it is a key
  obtain ⟨sup, hsup, -⟩ := Relation.TransGen.head'_iff.mp hcycle
  refine (order.perm _).mem_iff.mpr (mem_keys_of_ups ?_)
  exact List.ne_nil_of_mem (mem_ups.mpr hsup)

/-- Each of them is reported once. -/
theorem nodup_cycles {order : KeyOrder} : (cycles order o).Nodup :=
  ((order.perm _).nodup_iff.mpr Std.ExtTreeMap.nodup_keys).filter _

/-- Findings about different classes differ. -/
theorem cycleFinding_injective : Function.Injective cycleFinding := by
  intro c d h
  have hmessage := congrArg (fun f : ValidationFinding => f.message.toList) h
  simp only [cycleFinding, ValidationFinding.error, String.toList_append,
    List.append_cancel_left_eq, List.append_cancel_right_eq] at hmessage
  exact String.toList_inj.mp hmessage

/-- The code of a finding about disjoint classes. -/
theorem code_of_mem_disjointFindings {node : Node} {pair : String × String}
    {f : ValidationFinding} (hf : f ∈ disjointFindings node pair) : f.code = "axiom.disjoint" := by
  unfold disjointFindings at hf
  split at hf
  · rw [List.mem_singleton.mp hf]
    rfl
  · cases hf

/-- The code of a finding about a functional label. -/
theorem code_of_mem_functionalFindings {functional : BTreeSet String} {edges : List Edge}
    {bySource : BTreeMap (String × NodeId) Nat} {f : ValidationFinding}
    (hf : f ∈ functionalFindings functional edges bySource) : f.code = "axiom.functional" := by
  induction edges generalizing bySource with
  | nil => cases hf
  | cons edge rest ih =>
    rw [functionalFindings] at hf
    split at hf
    · rcases List.mem_append.mp hf with hf | hf
      · split at hf
        · rw [List.mem_singleton.mp hf]
          rfl
        · cases hf
      · exact ih hf
    · exact ih hf

end

end Consistency

namespace Consistency

section

variable {o : Ontology}

/-- A node passes if it does not carry both labels. -/
theorem disjointFindings_clean {node : Node} {pair : String × String} :
    (∀ f ∈ disjointFindings node pair, f.severity ≠ .error) ↔
      ¬(pair.1 ∈ node.types ∧ pair.2 ∈ node.types) := by
  unfold disjointFindings
  simp only [Bool.and_eq_true, List.contains_iff_mem]
  split
  · next h => exact iff_of_false (fun hclean => hclean _ List.mem_cons_self rfl) (not_not.mpr h)
  · next h => exact iff_of_true (by simp) h

/-- No later edge has the label and the source of a functional edge. -/
def OneEach (functional : BTreeSet String) (edges : List Edge) : Prop :=
  edges.Pairwise fun e f => e.label ∈ functional → (e.label, e.source) ≠ (f.label, f.source)

/-- The loop finds no error if no key comes up twice, or was counted before. -/
theorem functionalFindings_clean {functional : BTreeSet String} {edges : List Edge}
    {bySource : BTreeMap (String × NodeId) Nat} :
    (∀ f ∈ functionalFindings functional edges bySource, f.severity ≠ .error) ↔
      OneEach functional edges ∧ ∀ e ∈ edges, e.label ∈ functional →
        bySource[(e.label, e.source)]?.getD 0 = 0 := by
  induction edges generalizing bySource with
  | nil => simp [functionalFindings, OneEach]
  | cons edge rest ih =>
    rw [functionalFindings, OneEach, List.pairwise_cons]
    by_cases hlabel : edge.label ∈ functional
    · rw [if_pos (Std.ExtTreeSet.contains_iff_mem.mpr hlabel)]
      dsimp only
      rw [List.forall_mem_append, ih, BTreeMap.get_entryOr, if_pos rfl, List.forall_mem_cons]
      have hhead : (∀ f ∈ if 1 < bySource[(edge.label, edge.source)]?.getD 0 + 1 then
          [(ValidationFinding.error "axiom.functional" ("functional edge `" ++ edge.label ++
            "` has multiple targets from source " ++ edge.source.toHex)).focusOn edge.id.toHex]
          else [], f.severity ≠ .error) ↔ bySource[(edge.label, edge.source)]?.getD 0 = 0 := by
        split
        · next h =>
          exact iff_of_false (fun hclean => hclean _ List.mem_cons_self rfl) (by omega)
        · next h => exact iff_of_true (by simp) (by omega)
      rw [hhead]
      have hrest : (∀ e ∈ rest, e.label ∈ functional → (bySource.entryOr (edge.label, edge.source) 0
          (· + 1))[(e.label, e.source)]?.getD 0 = 0) ↔
          (∀ e ∈ rest, e.label ∈ functional → (edge.label, edge.source) ≠ (e.label, e.source)) ∧
          ∀ e ∈ rest, e.label ∈ functional → bySource[(e.label, e.source)]?.getD 0 = 0 := by
        rw [← forall₂_and]
        refine forall₂_congr fun e _ => ?_
        rw [← forall_and]
        refine forall_congr' fun _ => ?_
        rw [BTreeMap.get_entryOr]
        by_cases hkey : (edge.label, edge.source) = (e.label, e.source)
        · simp [hkey]
        · simp [hkey]
      have hsame : (∀ e ∈ rest, e.label ∈ functional →
          (edge.label, edge.source) ≠ (e.label, e.source)) ↔
          ∀ e ∈ rest, edge.label ∈ functional →
            (edge.label, edge.source) ≠ (e.label, e.source) := by
        refine forall₂_congr fun e _ => ⟨fun h _ hkey => ?_, fun h _ => h hlabel⟩
        have heq : edge.label = e.label := congrArg Prod.fst hkey
        exact h (heq ▸ hlabel) hkey
      rw [hrest, hsame]
      simp only [hlabel, true_imp_iff, OneEach]
      tauto
    · rw [if_neg (fun hmem => hlabel (Std.ExtTreeSet.contains_iff_mem.mp hmem)), ih,
        List.forall_mem_cons]
      simp only [hlabel, false_imp_iff, implies_true, true_and, OneEach]

/-- No node has two disjoint types among its own labels. -/
def DisjointKept (o : Ontology) : Prop :=
  ∀ n ∈ o.nodes.vals, ∀ left right, States o (.disjointWith left right) →
    ¬(left ∈ n.types ∧ right ∈ n.types)

/-- No two edges have one functional label and one source. -/
def FunctionalKept (o : Ontology) : Prop :=
  o.edges.vals.Pairwise fun e f =>
    States o (.functional e.label) → (e.label, e.source) ≠ (f.label, f.source)

end

end Consistency

open Consistency in
/-- No consistency check fails exactly if labels are disjoint, labels functional and classes acyclic
as stated. -/
theorem checkConsistency_clean {order : KeyOrder} {o : Ontology} :
    (checkConsistency order o).isClean = true ↔
      DisjointKept o ∧ FunctionalKept o ∧ ∀ c, ¬OnCycle o c := by
  have hdisjoint : (∀ f ∈ o.nodes.vals.flatMap fun node =>
      (collect o).disjointPairs.flatMap (disjointFindings node), f.severity ≠ .error) ↔
      DisjointKept o := by
    simp only [List.mem_flatMap, forall_exists_index, and_imp]
    constructor
    · intro h n hn left right hstated
      exact disjointFindings_clean.mp fun f hf =>
        h f n hn (left, right) (mem_disjointPairs.mpr hstated) hf
    · intro h f n hn pair hpair hf
      exact disjointFindings_clean.mpr (h n hn _ _ (mem_disjointPairs.mp hpair)) f hf
  have hfunctional : (∀ f ∈ functionalFindings (collect o).functional o.edges.vals ∅,
      f.severity ≠ .error) ↔ FunctionalKept o := by
    rw [functionalFindings_clean, and_iff_left (by simp)]
    simp only [OneEach, mem_functional]
    rfl
  have hcycles : (∀ f ∈ (cycles order o).map cycleFinding, f.severity ≠ .error) ↔
      ∀ c, ¬OnCycle o c := by
    have hmem : ∀ c, c ∈ cycles order o ↔ OnCycle o c := fun c => mem_cycles
    constructor
    · exact fun h c hc => h _ (List.mem_map_of_mem ((hmem c).mpr hc)) rfl
    · intro h f hf
      obtain ⟨c, hc, -⟩ := List.mem_map.mp hf
      exact absurd ((hmem c).mp hc) (h c)
  rw [ValidationReport.isClean_iff, ← hdisjoint, ← hfunctional, ← hcycles]
  simp only [checkConsistency, List.forall_mem_append, and_assoc]
  rfl

open Consistency in
/-- The searches for cycles end, and `axiom.subclass.cycle` is reported once for each class on a
cycle of the subclass relation and for no other class, in whatever order the classes come. -/
theorem subclassCycles_exact (order : KeyOrder) (o : Ontology) :
    (∀ start, ∃ enough, ∀ fuel, enough ≤ fuel →
      hasCycleLoop start (collect o).subclassOf fuel [start] ∅ =
        some (hasCycle start (collect o).subclassOf)) ∧
    Function.Injective cycleFinding ∧
    ∃ classes : List String, classes.Nodup ∧ (∀ c, c ∈ classes ↔ OnCycle o c) ∧
      ((checkConsistency order o).findings.filter fun f => f.code = "axiom.subclass.cycle") =
        classes.map cycleFinding := by
  refine ⟨fun start => ⟨_, fun fuel => hasCycleLoop_of_le⟩, cycleFinding_injective,
    cycles order o, nodup_cycles, fun c => mem_cycles, ?_⟩
  have hdisjoint : ∀ f ∈ o.nodes.vals.flatMap fun node =>
      (collect o).disjointPairs.flatMap (disjointFindings node), f.code = "axiom.disjoint" := by
    intro f hf
    obtain ⟨node, -, hf⟩ := List.mem_flatMap.mp hf
    obtain ⟨pair, -, hf⟩ := List.mem_flatMap.mp hf
    exact code_of_mem_disjointFindings hf
  have hother : ∀ {fs : List ValidationFinding} {code : String}, (∀ f ∈ fs, f.code = code) →
      code ≠ "axiom.subclass.cycle" → (fs.filter fun f => f.code = "axiom.subclass.cycle") =
        [] := by
    intro fs code hfs hcode
    refine List.filter_eq_nil_iff.mpr fun f hf => ?_
    rw [hfs f hf, decide_eq_true_eq]
    exact hcode
  have hcycle : ((cycles order o).map cycleFinding).filter
      (fun f => f.code = "axiom.subclass.cycle") = (cycles order o).map cycleFinding := by
    refine List.filter_eq_self.mpr fun f hf => ?_
    obtain ⟨c, -, rfl⟩ := List.mem_map.mp hf
    rfl
  simp only [checkConsistency]
  rw [List.filter_append, List.filter_append, hother hdisjoint (by decide),
    hother (fun f hf => code_of_mem_functionalFindings hf) (by decide), List.nil_append,
    List.nil_append]
  exact hcycle

end AtomrOntology
