import AtomrOntology.Core.Multimap
import AtomrOntology.Graph.Ontology
import AtomrOntology.Logic.Saturation

/-!
# Forward-chaining rules

Each rule reads an ontology and emits the axioms or the edges it derives that are not
stated already. What a rule concludes from a set of facts is stated separately, and
what is emitted is exactly what is concluded and not yet a fact.
-/

namespace AtomrOntology

/-- The output of a single rule application. -/
structure RuleOutput where
  axioms : List Axiom
  edges : List Edge

/-- A single forward-chaining inference rule. -/
inductive Rule where
  | subClassTransitivity
  | equivalentSymmetry
  | equivalentToSubClass
  | inverseOfSymmetry
  | propertySymmetry
  | propertyTransitivity
  | inverseOfMaterializes
deriving DecidableEq, Repr

/-- The active rules in order. -/
structure RuleSet where
  rules : List Rule

/-- The rule set shipped by default. -/
def RuleSet.standard : RuleSet :=
  ⟨[.subClassTransitivity, .equivalentSymmetry, .equivalentToSubClass, .inverseOfSymmetry,
    .propertySymmetry, .propertyTransitivity, .inverseOfMaterializes]⟩

/-- What an ontology states: the body of an axiom, or an edge between two nodes. -/
inductive Fact where
  | holds (kind : AxiomKind)
  | relates (source : NodeId) (label : String) (target : NodeId)

/-- The body of an axiom. -/
def Axiom.fact (a : Axiom) : Fact := .holds a.kind

/-- The body of an edge. -/
def Edge.fact (e : Edge) : Fact := .relates e.source e.label e.target

/-- The facts an ontology states. -/
def Ontology.facts (o : Ontology) : Set Fact :=
  {f | (∃ a ∈ o.axioms.vals, a.fact = f) ∨ ∃ e ∈ o.edges.vals, e.fact = f}

/-- The facts a rule emits. -/
def RuleOutput.facts (out : RuleOutput) : Set Fact :=
  {f | (∃ a ∈ out.axioms, a.fact = f) ∨ ∃ e ∈ out.edges, e.fact = f}

/-- What a rule concludes from a set of facts. The two transitivity rules have no reflexive
conclusions, and an inverse is used in both directions. -/
inductive Rule.Concludes (F : Set Fact) : Rule → Fact → Prop
  | subClassTransitivity {a b c : String} : .holds (.subClassOf a b) ∈ F →
    .holds (.subClassOf b c) ∈ F → a ≠ c →
    Concludes F .subClassTransitivity (.holds (.subClassOf a c))
  | equivalentSymmetry {a b : String} : .holds (.equivalentClass a b) ∈ F →
    Concludes F .equivalentSymmetry (.holds (.equivalentClass b a))
  | equivalentToSubClass {a b : String} : .holds (.equivalentClass a b) ∈ F →
    Concludes F .equivalentToSubClass (.holds (.subClassOf a b))
  | equivalentToSuperClass {a b : String} : .holds (.equivalentClass a b) ∈ F →
    Concludes F .equivalentToSubClass (.holds (.subClassOf b a))
  | inverseOfSymmetry {p q : String} : .holds (.inverseOf p q) ∈ F →
    Concludes F .inverseOfSymmetry (.holds (.inverseOf q p))
  | propertySymmetry {p : String} {a b : NodeId} : .holds (.symmetric p) ∈ F →
    .relates a p b ∈ F → Concludes F .propertySymmetry (.relates b p a)
  | propertyTransitivity {p : String} {a b c : NodeId} : .holds (.transitive p) ∈ F →
    .relates a p b ∈ F → .relates b p c ∈ F → a ≠ c →
    Concludes F .propertyTransitivity (.relates a p c)
  | inverseForwards {p q : String} {a b : NodeId} : .holds (.inverseOf p q) ∈ F →
    .relates a p b ∈ F → Concludes F .inverseOfMaterializes (.relates b q a)
  | inverseBackwards {p q : String} {a b : NodeId} : .holds (.inverseOf p q) ∈ F →
    .relates a q b ∈ F → Concludes F .inverseOfMaterializes (.relates b p a)

/-- More facts, more conclusions. -/
theorem Rule.Concludes.mono {F G : Set Fact} (h : F ⊆ G) {r : Rule} {f : Fact}
    (hf : r.Concludes F f) : r.Concludes G f := by
  cases hf with
  | subClassTransitivity hab hbc hne => exact .subClassTransitivity (h hab) (h hbc) hne
  | equivalentSymmetry hab => exact .equivalentSymmetry (h hab)
  | equivalentToSubClass hab => exact .equivalentToSubClass (h hab)
  | equivalentToSuperClass hab => exact .equivalentToSuperClass (h hab)
  | inverseOfSymmetry hpq => exact .inverseOfSymmetry (h hpq)
  | propertySymmetry hp hab => exact .propertySymmetry (h hp) (h hab)
  | propertyTransitivity hp hab hbc hne => exact .propertyTransitivity (h hp) (h hab) (h hbc) hne
  | inverseForwards hpq hab => exact .inverseForwards (h hpq) (h hab)
  | inverseBackwards hpq hab => exact .inverseBackwards (h hpq) (h hab)

/-- The rules as a family of monotone operators. -/
def documentedRules : Saturation.Rules Rule Fact where
  concl r F := {f | r.Concludes F f}
  mono _ _ _ h _ hf := hf.mono h

/-- Pairs of names that axioms of one kind state. -/
def statedPairs (pick : AxiomKind → Option (String × String)) (o : Ontology) :
    BTreeSet (String × String) :=
  o.axioms.vals.foldl (fun s ax =>
    match pick ax.kind with
    | some pair => s.insert pair
    | none => s) ∅

/-- Properties that axioms of one kind state. -/
def statedProperties (pick : AxiomKind → Option String) (o : Ontology) : BTreeSet String :=
  o.axioms.vals.foldl (fun s ax =>
    match pick ax.kind with
    | some property => s.insert property
    | none => s) ∅

/-- The stored edges as tuples. -/
def existingEdges (o : Ontology) : BTreeSet (String × NodeId × NodeId) :=
  o.edges.vals.foldl (fun s e => s.insert (e.label, e.source, e.target)) ∅

/-- The direct superclasses of each class. -/
def bySub (o : Ontology) : BTreeMap String (BTreeSet String) :=
  o.axioms.vals.foldl (fun m ax =>
    match ax.kind with
    | .subClassOf sub sup => m.entryOr sub ∅ (·.insert sup)
    | _ => m) ∅

/-- The inverses of each property, in both directions. -/
def inversesOf (o : Ontology) : BTreeMap String (BTreeSet String) :=
  o.axioms.vals.foldl (fun m ax =>
    match ax.kind with
    | .inverseOf left right => (m.entryOr left ∅ (·.insert right)).entryOr right ∅ (·.insert left)
    | _ => m) ∅

/-- The targets of the edges of the given labels, by label and source. -/
def byLabelThenSource (labels : BTreeSet String) (o : Ontology) :
    BTreeMap String (BTreeMap NodeId (List NodeId)) :=
  o.edges.vals.foldl (fun m e =>
    if labels.contains e.label then
      m.entryOr e.label ∅ (fun bySource => bySource.entryOr e.source [] (· ++ [e.target]))
    else m) ∅

section

variable [Blake3]

def subclassTransitivity (o : Ontology) : RuleOutput :=
  { axioms := (bySub o).toList.flatMap fun (sub, sups) =>
      sups.toList.flatMap fun sup =>
        match (bySub o)[sup]? with
        | some grandsups => grandsups.toList.filterMap fun grand =>
          if grand = sub then none
          else if sups.contains grand then none
          else some (Axiom.new (.subClassOf sub grand))
        | none => []
    edges := [] }

/-- State every pair of one kind the other way round too. -/
def symmetryOf (pick : AxiomKind → Option (String × String)) (make : String → String → AxiomKind)
    (o : Ontology) : RuleOutput :=
  let existing := statedPairs pick o
  { axioms := existing.toList.filterMap fun (left, right) =>
      if existing.contains (right, left) then none else some (Axiom.new (make right left))
    edges := [] }

/-- The operands of an equivalence. -/
def AxiomKind.equivalentPair : AxiomKind → Option (String × String)
  | .equivalentClass left right => some (left, right)
  | _ => none

/-- The operands of a subclass axiom. -/
def AxiomKind.subClassPair : AxiomKind → Option (String × String)
  | .subClassOf sub sup => some (sub, sup)
  | _ => none

/-- The operands of an inverse. -/
def AxiomKind.inversePair : AxiomKind → Option (String × String)
  | .inverseOf left right => some (left, right)
  | _ => none

def equivalentSymmetry (o : Ontology) : RuleOutput :=
  symmetryOf AxiomKind.equivalentPair .equivalentClass o

def inverseOfSymmetry (o : Ontology) : RuleOutput :=
  symmetryOf AxiomKind.inversePair .inverseOf o

def equivalentToSubclass (o : Ontology) : RuleOutput :=
  let equivalents := o.axioms.vals.filterMap fun ax => ax.kind.equivalentPair
  let subclasses := statedPairs AxiomKind.subClassPair o
  { axioms := equivalents.flatMap fun (left, right) =>
      (if subclasses.contains (left, right) then [] else [Axiom.new (.subClassOf left right)]) ++
        if subclasses.contains (right, left) then [] else [Axiom.new (.subClassOf right left)]
    edges := [] }

/-- The operand of a symmetry axiom. -/
def AxiomKind.symmetricProperty : AxiomKind → Option String
  | .symmetric property => some property
  | _ => none

/-- The operand of a transitivity axiom. -/
def AxiomKind.transitiveProperty : AxiomKind → Option String
  | .transitive property => some property
  | _ => none

def propertySymmetry (o : Ontology) : RuleOutput :=
  let symmetric := statedProperties AxiomKind.symmetricProperty o
  if symmetric.isEmpty then ⟨[], []⟩
  else
    let existing := existingEdges o
    { axioms := []
      edges := o.edges.vals.filterMap fun e =>
        if !symmetric.contains e.label then none
        else if existing.contains (e.label, e.target, e.source) then none
        else some (Edge.between e.target e.label e.source) }

def propertyTransitivity (o : Ontology) : RuleOutput :=
  let transitive := statedProperties AxiomKind.transitiveProperty o
  if transitive.isEmpty then ⟨[], []⟩
  else
    let existing := existingEdges o
    { axioms := []
      edges := (byLabelThenSource transitive o).toList.flatMap fun (label, bySource) =>
        bySource.toList.flatMap fun (a, bs) =>
          bs.flatMap fun b =>
            match bySource[b]? with
            | some cs => cs.filterMap fun c =>
              if a = c then none
              else if existing.contains (label, a, c) then none
              else some (Edge.between a label c)
            | none => [] }

def inverseOfMaterializes (o : Ontology) : RuleOutput :=
  let inverseOf := inversesOf o
  if inverseOf.isEmpty then ⟨[], []⟩
  else
    let existing := existingEdges o
    { axioms := []
      edges := o.edges.vals.flatMap fun e =>
        match inverseOf[e.label]? with
        | some inverses => inverses.toList.filterMap fun inv =>
          if existing.contains (inv, e.target, e.source) then none
          else some (Edge.between e.target inv e.source)
        | none => [] }

/-- Apply a rule once. -/
def Rule.apply : Rule → Ontology → RuleOutput
  | .subClassTransitivity => subclassTransitivity
  | .equivalentSymmetry => AtomrOntology.equivalentSymmetry
  | .equivalentToSubClass => equivalentToSubclass
  | .inverseOfSymmetry => AtomrOntology.inverseOfSymmetry
  | .propertySymmetry => AtomrOntology.propertySymmetry
  | .propertyTransitivity => AtomrOntology.propertyTransitivity
  | .inverseOfMaterializes => AtomrOntology.inverseOfMaterializes

end

end AtomrOntology
