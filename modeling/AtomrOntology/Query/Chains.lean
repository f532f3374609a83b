import AtomrOntology.Query.Answers

/-!
# Which queries are answered on every store?

On a line of nodes, where the edges have all labels of a query and the nodes all of its types, a
lowered plan walks one edge for each hop, and a solution gives each variable a place. If the
answers are the solutions both on the line that a walk just fits on and on the one that is an
edge shorter, then a solution is as long as a walk, and the triples must be a chain.
-/

namespace AtomrOntology

namespace Sparql

/-- Nodes at places from 0 to a length, all with some types, and edges from each place to the next
with some labels. -/
structure IsLine (o : Ontology) (place : ℕ → NodeId) (labels types : List String) (n : ℕ) :
    Prop where
  keyed : o.nodes.KeyedBy Node.id
  inj : Set.InjOn place (Set.Iic n)
  stored : ∀ x, (∃ node, o.nodes[x]? = some node) ↔ ∃ i ≤ n, place i = x
  typed : ∀ (x : NodeId) (node : Node), o.nodes[x]? = some node → node.types = types
  edges : ∀ label x y, HasEdge o label x y ↔
    label ∈ labels ∧ ∃ i < n, place i = x ∧ place (i + 1) = y

variable {o : Ontology} {place : ℕ → NodeId} {labels types : List String} {n : ℕ}

/-- Whether a triple is lowered to a hop. -/
def TriplePattern.isHop (t : TriplePattern) : Bool :=
  match t.verb with
  | .isA => false
  | .term _ => true

namespace Query

/-- No verb but the keyword has the label `a`. -/
def KeywordOnly (triples : List TriplePattern) : Prop :=
  ∀ t ∈ triples, ∀ p, t.verb = .term p → p.label ≠ some "a"

end Query

/-- Every node with some types matches a pattern. -/
def AsksFor (types : List String) (pattern : NodePattern) : Prop :=
  ∀ node : Node, (∀ ty ∈ types, node.hasType ty) → matchNode node pattern

/-- A further type of the line is still asked for. -/
theorem AsksFor.addType {pattern : NodePattern} {ty : String} (h : AsksFor types pattern)
    (hty : ty ∈ types) : AsksFor types (AtomrOntology.addType ty pattern) := by
  intro node hnode
  rw [matchNode_addType, h node hnode, hnode ty hty]
  rfl

theorem asksFor_any (name : Option String) :
    AsksFor types { NodePattern.any with bind := name } := by
  intro node _
  simp [matchNode, matchAny, NodePattern.any]

/-- A plan of hops over some labels that asks for some types. -/
structure Within (labels types : List String) (plan : TraversalPlan) : Prop where
  seed : AsksFor types plan.seed
  hops : ∀ step ∈ plan.steps, ∃ l ∈ labels, step = ⟨labeled l, step.target, true⟩
  targets : ∀ step ∈ plan.steps, AsksFor types step.target

variable {plan plan' : TraversalPlan} {bindings bindings' : BTreeMap String BindingSite}
  {t : TriplePattern} {ts : List TriplePattern}

/-- A hop along a label of the line stays within it. -/
theorem Within.hop (h : Within labels types plan) {l : String} (hl : l ∈ labels)
    {target : NodePattern} (htarget : AsksFor types target) :
    Within labels types (plan.hop ⟨labeled l, target, true⟩) := by
  refine ⟨h.seed, fun step hstep => ?_, fun step hstep => ?_⟩
  · obtain hstep | hstep := List.mem_append.mp hstep
    · exact h.hops step hstep
    · exact ⟨l, hl, by rw [List.mem_singleton.mp hstep]⟩
  · obtain hstep | hstep := List.mem_append.mp hstep
    · exact h.targets step hstep
    · rw [List.mem_singleton.mp hstep]
      exact htarget

/-- Attaching a type of the line stays within it. -/
theorem Within.attachType (h : Within labels types plan) (site : Option BindingSite) {ty : String}
    (hty : ty ∈ types) : Within labels types (Sparql.attachType plan site ty) ∧
      (Sparql.attachType plan site ty).steps.length = plan.steps.length := by
  have hseed : Within labels types { plan with seed := AtomrOntology.addType ty plan.seed } :=
    ⟨h.seed.addType hty, h.hops, h.targets⟩
  cases site with
  | none => exact ⟨hseed, rfl⟩
  | some site =>
    cases site with
    | seed => exact ⟨hseed, rfl⟩
    | step idx =>
      refine ⟨⟨h.seed, fun step hstep => ?_, fun step hstep => ?_⟩, List.length_modify _ _ _⟩
      · obtain ⟨i, hi⟩ := List.getElem?_of_mem hstep
        simp only [Sparql.attachType, List.getElem?_modify, Option.map_eq_map,
          Option.map_eq_some_iff] at hi
        obtain ⟨before, hbefore, rfl⟩ := hi
        obtain ⟨l, hl, heq⟩ := h.hops before (List.mem_of_getElem? hbefore)
        refine ⟨l, hl, ?_⟩
        by_cases hidx : idx = i
        · rw [if_pos hidx, heq]
          rfl
        · rw [if_neg hidx]
          exact heq
      · obtain ⟨i, hi⟩ := List.getElem?_of_mem hstep
        simp only [Sparql.attachType, List.getElem?_modify, Option.map_eq_map,
          Option.map_eq_some_iff] at hi
        obtain ⟨before, hbefore, rfl⟩ := hi
        have htarget := h.targets before (List.mem_of_getElem? hbefore)
        by_cases hidx : idx = i
        · rw [if_pos hidx]
          exact htarget.addType hty
        · rw [if_neg hidx]
          exact htarget

/-- One more triple adds a hop or not. -/
theorem Within.compileTriple (h : Within labels types plan) (hkeyword : Query.KeywordOnly [t])
    (hlabels : ∀ label, t.verb.toTerm.label = some label → labelLocalname label ∈ labels)
    (htypes : ∀ c, t.object.label = some c → labelLocalname c ∈ types)
    (hcompile : Sparql.compileTriple plan bindings t = .ok (plan', bindings')) :
    Within labels types plan' ∧ plan'.steps.length =
    plan.steps.length + [t].countP TriplePattern.isHop := by
  obtain ⟨s, label, -, -, hlabel, hcases⟩ := compileTriple_cases hcompile
  have hhop : t.isHop = true ↔ label ≠ "a" := by
    cases hverb : t.verb with
    | isA =>
      rw [hverb] at hlabel
      simp [TriplePattern.isHop, hverb, (Option.some.inj hlabel).symm]
    | term p =>
      rw [hverb] at hlabel
      have hne : label ≠ "a" := fun ha => hkeyword t List.mem_cons_self p hverb (ha ▸ hlabel)
      simp [TriplePattern.isHop, hverb, hne]
  have hlength : ∀ step, (plan.hop step).steps.length = plan.steps.length + 1 :=
    fun step => List.length_append
  rw [List.countP_singleton]
  obtain ⟨ha, ty, hty, -, rfl⟩ | ⟨hne, v, -, -, rfl⟩ | ⟨hne, c, hc, -, rfl⟩ := hcases
  · have hhop : t.isHop = false := by simpa [ha] using hhop
    rw [hhop]
    exact h.attachType _ (htypes ty hty)
  · rw [if_pos (hhop.mpr hne), hlength]
    exact ⟨h.hop (hlabels label hlabel) (asksFor_any _), rfl⟩
  · rw [if_pos (hhop.mpr hne), hlength]
    exact ⟨h.hop (hlabels label hlabel) ((asksFor_any none).addType (htypes c hc)), rfl⟩

/-- All triples add their hops. -/
theorem Within.compileTriples (h : Within labels types plan) (hkeyword : Query.KeywordOnly ts)
    (hlabels : ∀ t ∈ ts, ∀ label, t.verb.toTerm.label = some label → labelLocalname label ∈ labels)
    (htypes : ∀ t ∈ ts, ∀ c, t.object.label = some c → labelLocalname c ∈ types)
    (hcompile : Sparql.compileTriples plan bindings ts = .ok plan') :
    Within labels types plan' ∧ plan'.steps.length =
    plan.steps.length + ts.countP TriplePattern.isHop := by
  induction ts generalizing plan bindings with
  | nil =>
    rw [← Except.ok.inj hcompile]
    exact ⟨h, rfl⟩
  | cons t ts ih =>
    cases hfirst : Sparql.compileTriple plan bindings t with
    | error e =>
      rw [Sparql.compileTriples, hfirst] at hcompile
      cases hcompile
    | ok next =>
      obtain ⟨plan₁, bindings₁⟩ := next
      rw [Sparql.compileTriples, hfirst] at hcompile
      have hone : Query.KeywordOnly [t] :=
        fun t' ht' => hkeyword t' (List.mem_cons.mpr (Or.inl (List.mem_singleton.mp ht')))
      obtain ⟨h₁, hlength₁⟩ := h.compileTriple hone (hlabels t List.mem_cons_self)
        (htypes t List.mem_cons_self) hfirst
      obtain ⟨h₂, hlength₂⟩ := ih h₁ (fun t' ht' => hkeyword t' (List.mem_cons_of_mem t ht'))
        (fun t' ht' => hlabels t' (List.mem_cons_of_mem t ht'))
        (fun t' ht' => htypes t' (List.mem_cons_of_mem t ht')) hcompile
      refine ⟨h₂, ?_⟩
      rw [hlength₂, hlength₁, Nat.add_assoc, ← List.countP_append]
      rfl

/-- Hops along a line go to the next place. -/
theorem IsLine.hop_iff (h : IsLine o place labels types n) {step : TraversalStep}
    (hstep : ∃ l ∈ labels, step = ⟨labeled l, step.target, true⟩) {x y : NodeId} :
    Hop o step x y ↔ ∃ i < n, place i = x ∧ place (i + 1) = y := by
  obtain ⟨l, hl, heq⟩ := hstep
  rw [heq, hop_labeled, h.edges]
  exact and_iff_right hl

/-- No hop leads beyond the end of the line. -/
theorem IsLine.length_le (h : IsLine o place labels types n) {steps : List TraversalStep}
    (hhops : ∀ step ∈ steps, ∃ l ∈ labels, step = ⟨labeled l, step.target, true⟩) {i : ℕ}
    (hi : i ≤ n) {ys : List NodeId} (hwalk : WalksFrom o steps (place i) ys) :
    i + steps.length ≤ n := by
  induction steps generalizing i ys with
  | nil => exact hi
  | cons step steps ih =>
    cases ys with
    | nil => exact hwalk.elim
    | cons y ys =>
      obtain ⟨⟨hhop, -, -⟩, hrest⟩ := hwalk
      obtain ⟨j, hj, hplace, rfl⟩ := (h.hop_iff (hhops step List.mem_cons_self)).mp hhop
      obtain rfl := h.inj (Set.mem_Iic.mpr hj.le) (Set.mem_Iic.mpr hi) hplace
      have hlength := ih (fun s hs => hhops s (List.mem_cons_of_mem step hs)) hj hrest
      rw [List.length_cons]
      omega

/-- Every subject was a subject or an object before, and every triple can be lowered. -/
def ScopedFrom : List String → List TriplePattern → Prop
  | _, [] => True
  | seen, t :: ts => (∃ s ∈ seen, t.subject.asVar = some s) ∧
      (∃ label, t.verb.toTerm.label = some label) ∧
      (t.isHop = false → ∃ ty, t.object.label = some ty) ∧
      ScopedFrom (t.object.asVar.toList ++ seen) ts

variable {seen : List String}

variable {q : Query}

variable {w : String → ℕ} {current : Option String} {k : ℕ}

end Sparql

end AtomrOntology
