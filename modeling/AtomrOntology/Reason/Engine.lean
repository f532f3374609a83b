import AtomrOntology.Provenance.Log
import AtomrOntology.Reason.Rules

/-!
# The reasoning engine

The engine applies its rules one after another to a working copy, over and over, until
a whole pass adds nothing. What the copy then holds beyond the original is reported.
-/

namespace AtomrOntology

/-- The cap on passes unless another is set. -/
def defaultMaxIterations : Nat := 100

/-- Outcome of a reasoning run. -/
structure ReasoningReport where
  derivedAxioms : List Axiom
  derivedEdges : List Edge
  iterations : Nat
  activity : Activity

/-- The fixed-point loop ran past its cap. -/
inductive ReasonerError where
  | cycle (limit : Nat)
deriving DecidableEq, Repr

/-- The display form. -/
def ReasonerError.text : ReasonerError → String
  | .cycle limit => "reasoning did not converge after " ++ toString limit ++
      " iterations (cap reached)"

/-- A forward-chaining reasoner. -/
structure Reasoner where
  rules : RuleSet
  agent : AgentRef
  maxIterations : Nat

namespace Reasoner

/-- A reasoner with a custom rule set. -/
def withRules (rules : RuleSet) : Reasoner :=
  { rules
    agent := .software "agent://atomr-ontology-reason/Reasoner" "atomr-ontology-reason"
    maxIterations := defaultMaxIterations }

/-- A reasoner with the standard rule set. -/
def new : Reasoner := withRules .standard

/-- The standard rule set holds every rule. -/
theorem mem_rules_new (r : Rule) : r ∈ new.rules.rules := by
  cases r <;> decide

/-- Override the cap, which is at least one. -/
def withMaxIterations (self : Reasoner) (limit : Nat) : Reasoner :=
  { self with maxIterations := max limit 1 }

/-- Add an axiom unless its id is taken; the flag records that something was added. -/
def addAxiom (prov : ProvenanceId) (s : Ontology × Bool) (ax : Axiom) : Ontology × Bool :=
  let ax := ax.withProvenance prov
  if s.1.axioms.contains ax.id then s else (s.1.upsertAxiom ax, true)

/-- Add an edge unless its id is taken. -/
def addEdge (s : Ontology × Bool) (e : Edge) : Ontology × Bool :=
  if s.1.edges.contains e.id then s else (s.1.upsertEdge e, true)

variable [Blake3]

/-- Apply one rule to the working copy and add what it emits. -/
def applyRule (prov : ProvenanceId) (s : Ontology × Bool) (rule : Rule) : Ontology × Bool :=
  let out := rule.apply s.1
  out.edges.foldl addEdge (out.axioms.foldl (addAxiom prov) s)

/-- One pass over the rules, with whether it produced anything new. -/
def pass (self : Reasoner) (prov : ProvenanceId) (working : Ontology) : Ontology × Bool :=
  self.rules.rules.foldl (applyRule prov) (working, false)

/-- The fixed-point loop, with the passes that are left and those that are done. -/
def saturate (self : Reasoner) (prov : ProvenanceId) :
    Nat → Nat → Ontology → Except ReasonerError (Ontology × Nat)
  | 0, _, _ => .error (.cycle self.maxIterations)
  | left + 1, done, working =>
    match self.pass prov working with
    | (working, true) => self.saturate prov left (done + 1) working
    | (working, false) => .ok (working, done + 1)

/-- The working copy after a number of passes. -/
def working (self : Reasoner) (prov : ProvenanceId) (o : Ontology) (passes : Nat) : Ontology :=
  (fun w => (self.pass prov w).1)^[passes] o

/-- What the loop returns is the working copy after the passes that it counts. -/
theorem saturate_working {self : Reasoner} {prov : ProvenanceId} {left done n : Nat}
    {o w : Ontology} (h : self.saturate prov left done o = .ok (w, n)) :
    ∃ passes, n = done + passes ∧ w = self.working prov o passes := by
  induction left generalizing done o with
  | zero => cases h
  | succ left ih =>
    rw [saturate] at h
    cases hp : self.pass prov o with
    | mk o' flag =>
      rw [hp] at h
      cases flag with
      | true =>
        obtain ⟨passes, rfl, rfl⟩ := ih h
        refine ⟨passes + 1, by omega, ?_⟩
        rw [working, working, Function.iterate_succ_apply, hp]
      | false =>
        obtain ⟨rfl, rfl⟩ := Prod.mk.inj (Except.ok.inj h)
        refine ⟨1, rfl, ?_⟩
        rw [working, Function.iterate_one, hp]

/-- What a map holds under keys the original lacks, ordered by id. -/
def derivedFrom {kind : IdKind} {α : Type} (id : α → Id kind)
    (original working : BTreeMap (Id kind) α) :
    List α :=
  ((working.toList.filter fun kv => !original.contains kv.1).map Prod.snd).mergeSort
    fun l r => (compare (id l) (id r)).isLE

/-- Run the reasoner on an ontology, given the id and the times of its activity. -/
def run (self : Reasoner) (ontology : Ontology) (id : ProvenanceId) (now later : DateTime) :
    Except ReasonerError ReasoningReport :=
  let activity := ((Activity.started "reasoning" id now).by self.agent).withAttribute "rules"
    ⟨Codec.u64.ser (UInt64.ofNat self.rules.rules.length), rfl⟩
  match self.saturate activity.id self.maxIterations 0 ontology with
  | .error e => .error e
  | .ok (working, iterations) =>
    .ok { derivedAxioms := derivedFrom Axiom.id ontology.axioms working.axioms
          derivedEdges := derivedFrom Edge.id ontology.edges working.edges
          iterations
          activity := activity.finish later }

/-- Run the reasoner and merge what it derived into the ontology in place: what the call
returns, and the ontology after it. -/
def materialize (self : Reasoner) (ontology : Ontology) (id : ProvenanceId) (now later : DateTime) :
    Except ReasonerError ReasoningReport × Ontology :=
  match self.run ontology id now later with
  | .error e => (.error e, ontology)
  | .ok report =>
    let o := report.derivedAxioms.foldl Ontology.upsertAxiom ontology
    (.ok report, report.derivedEdges.foldl Ontology.upsertEdge o)

end Reasoner

end AtomrOntology
