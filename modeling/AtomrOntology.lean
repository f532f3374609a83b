import AtomrOntology.Core.OrderedMap
import AtomrOntology.Core.Json
import AtomrOntology.Core.JsonText
import AtomrOntology.Core.Bytes
import AtomrOntology.Core.Serde
import AtomrOntology.Core.Nesting
import AtomrOntology.Core.DebugText
import AtomrOntology.Graph.Id
import AtomrOntology.Graph.Node
import AtomrOntology.Graph.Axiom
import AtomrOntology.Graph.Ontology
import AtomrOntology.Graph.Identity
import AtomrOntology.Provenance.Log
import AtomrOntology.Version.Commit
import AtomrOntology.Version.Store
import AtomrOntology.Version.History
import AtomrOntology.Version.Identity
import AtomrOntology.Version.Lineage
import AtomrOntology.Version.Merge
import AtomrOntology.Version.Persisted
import AtomrOntology.Store.Trait
import AtomrOntology.Store.Trails
import AtomrOntology.Store.Joins
import AtomrOntology.Reason.Conclusions
import AtomrOntology.Reason.Engine
import AtomrOntology.Reason.Fixpoint
import AtomrOntology.Reason.Termination
import AtomrOntology.Reason.Cap
import AtomrOntology.Reason.Semantics
import AtomrOntology.Reason.Materialize
import AtomrOntology.Persist.Wire
import AtomrOntology.Persist.Reload
import AtomrOntology.Persist.Nesting
import AtomrOntology.Persist.Checkpointer
import AtomrOntology.Persist.Durable
import AtomrOntology.Persist.Concurrent
import AtomrOntology.Persist.Atomicity
import AtomrOntology.Persist.Sessions
import AtomrOntology.Actor.Delivery
import AtomrOntology.Actor.Redelivery
import AtomrOntology.Actor.Aggregation
import AtomrOntology.Actor.Replay
import AtomrOntology.Actor.Minting
import AtomrOntology.Actor.Supervision
import AtomrOntology.Actor.SnapshotDiff
import AtomrOntology.Actor.Swallowing
import AtomrOntology.Rdf.Import
import AtomrOntology.Rdf.Export
import AtomrOntology.Rdf.Turtle
import AtomrOntology.Rdf.ReadsBack
import AtomrOntology.Rdf.Dangling
import AtomrOntology.Rdf.TBox
import AtomrOntology.Rdf.Properties
import AtomrOntology.Shacl.Compile
import AtomrOntology.Shacl.Parse
import AtomrOntology.Shacl.Document
import AtomrOntology.Shacl.RoundTrip
import AtomrOntology.Shacl.Survival
import AtomrOntology.Shacl.Normalization
import AtomrOntology.Shacl.Cutting
import AtomrOntology.Rdf.NTriples
import AtomrOntology.Rdf.Lines
import AtomrOntology.Query.Chains
import AtomrOntology.Logic.BreadthFirst
import AtomrOntology.Version.Log
import AtomrOntology.Version.Union
import AtomrOntology.Logic.Printing
import AtomrOntology.Logic.Layout
import AtomrOntology.Query.CypherGrammar
import AtomrOntology.Query.CypherTokens
import AtomrOntology.Query.CypherReads
import AtomrOntology.Query.CypherPlans
import AtomrOntology.Query.CypherStrings
import AtomrOntology.Query.CypherAnswers
import AtomrOntology.Query.SparqlForms
import AtomrOntology.Query.SparqlGrammar
import AtomrOntology.Query.SparqlTokens
import AtomrOntology.Query.SparqlTriples
import AtomrOntology.Query.SparqlBlocks
import AtomrOntology.Query.SparqlReads
import AtomrOntology.Query.SparqlPlans
import AtomrOntology.Query.SparqlAnswers
import AtomrOntology.Rdf.TurtleWriter
import AtomrOntology.Rdf.TurtleRoundTrip
import AtomrOntology.Rdf.TurtleSteps
import AtomrOntology.Rdf.Comments
import AtomrOntology.Rdf.TurtleReturns
import AtomrOntology.Rdf.Boundaries
import AtomrOntology.Logic.Segments
import AtomrOntology.Logic.StableSort
import AtomrOntology.Store.Ordering
import AtomrOntology.Logic.SliceSort
import AtomrOntology.Embed.Index
import AtomrOntology.Embed.Resolver
import AtomrOntology.Logic.Recency
import AtomrOntology.Logic.Brackets
import AtomrOntology.Core.PrettyText
import AtomrOntology.Extract.Cache
import AtomrOntology.Extract.LeastRecent
import AtomrOntology.Extract.Interleaving
import AtomrOntology.Logic.Runs
import AtomrOntology.Logic.Lockstep
import AtomrOntology.Persist.Queries
import AtomrOntology.Persist.Observation
import AtomrOntology.Persist.FileWrites
import AtomrOntology.Remote.Framing
import AtomrOntology.Remote.Wire
import AtomrOntology.Remote.Codecs
import AtomrOntology.Remote.Server
import AtomrOntology.Remote.Client
import AtomrOntology.Remote.Carried
import AtomrOntology.Remote.Transparency
import AtomrOntology.Remote.Runs
import AtomrOntology.Remote.Direct
import AtomrOntology.Remote.Concurrent
import AtomrOntology.Graph.Supertypes
import AtomrOntology.Validate.AfterReasoning
import AtomrOntology.Validate.Conformance
import AtomrOntology.Actor.FixedSchema
import AtomrOntology.Actor.Sequential
import AtomrOntology.Rdf.Curies
import AtomrOntology.Rdf.Shorthand
import AtomrOntology.Rdf.Base64
import AtomrOntology.Rdf.Values
import AtomrOntology.Core.Grouping
import AtomrOntology.Rdf.JsonLdWriter
import AtomrOntology.Rdf.JsonLdTerms
import AtomrOntology.Import.Order
import AtomrOntology.Import.SchemaOrg
import AtomrOntology.Actor.PathOrder
import AtomrOntology.Actor.StateJoin
import AtomrOntology.Actor.ActorSchema
