import AtomrOntology.Graph.Ontology

/-!
# Patterns and traversal plans

Patterns for nodes and edges, plans that follow hops from a seed, and result rows.
-/

namespace AtomrOntology

/-- Single-node pattern. -/
structure NodePattern where
  bind : Option String
  types : List String
  properties : BTreeMap String PropertyValue
  id : Option NodeId
  or : List NodePattern
  not : List NodePattern

/-- Anonymous wildcard pattern. -/
def NodePattern.any : NodePattern := ⟨none, [], ∅, none, [], []⟩

/-- Bounds of a repetition, both included. -/
structure RangeInclusive where
  min : UInt64
  max : UInt64
deriving DecidableEq, Repr

/-- Edge pattern of one hop. Without a repetition it is exactly one hop. -/
structure EdgePattern where
  bind : Option String
  label : Option String
  properties : BTreeMap String PropertyValue
  «repeat» : Option RangeInclusive

/-- Anonymous edge pattern. -/
def EdgePattern.any : EdgePattern := ⟨none, none, ∅, none⟩

/-- One step of a plan, along outbound or inbound edges. -/
structure TraversalStep where
  edge : EdgePattern
  target : NodePattern
  outbound : Bool

/-- Sort direction. -/
inductive SortOrder where
  | ascending
  | descending
deriving DecidableEq, Repr

/-- Multi-step traversal: a seed pattern, then a chain of hops. -/
structure TraversalPlan where
  seed : NodePattern
  steps : List TraversalStep
  returnColumns : List String
  order : List (String × SortOrder)
  skip : UInt64
  limit : Option UInt64

/-- Plan starting at a seed. -/
def TraversalPlan.start (seed : NodePattern) : TraversalPlan := ⟨seed, [], [], [], 0, none⟩

/-- A pattern-match result row. -/
structure MatchRow where
  nodes : BTreeMap String NodeId
  edges : BTreeMap String EdgeId

namespace MatchRow

/-- Empty row. -/
def new : MatchRow := ⟨∅, ∅⟩

/-- Bind a node under a name. -/
def bindNode (row : MatchRow) (name : String) (id : NodeId) : MatchRow :=
  { row with nodes := row.nodes.insert name id }

/-- Bind an edge under a name. -/
def bindEdge (row : MatchRow) (name : String) (id : EdgeId) : MatchRow :=
  { row with edges := row.edges.insert name id }

end MatchRow

end AtomrOntology
