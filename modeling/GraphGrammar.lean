import GraphGrammar.Derivation
import GraphGrammar.Grammar
import GraphGrammar.Graph.Consistency
import GraphGrammar.Random.Draw
import GraphGrammar.Toml.Document
import GraphGrammar.Proofs.FindAll
import GraphGrammar.Proofs.Rewrite
import GraphGrammar.Proofs.Session
import GraphGrammar.Proofs.Trace
import GraphGrammar.Proofs.SearchLimits
import GraphGrammar.Proofs.SearchCost
import GraphGrammar.Proofs.Gluing
import GraphGrammar.Proofs.Independence
import GraphGrammar.Proofs.Inverse
import GraphGrammar.Proofs.Rounds
import GraphGrammar.Proofs.Resumption
import GraphGrammar.Proofs.Counts
import GraphGrammar.Proofs.Draws
import GraphGrammar.Proofs.Ledger
import GraphGrammar.Proofs.Similarity
import GraphGrammar.Proofs.SearchView
import GraphGrammar.Proofs.OrderIndependence
import GraphGrammar.Proofs.Collisions
import GraphGrammar.Proofs.FirstFault
import GraphGrammar.Proofs.Summaries
import GraphGrammar.Proofs.MatchOrder
import GraphGrammar.Proofs.PhaseEffects
import GraphGrammar.Proofs.Untouched
import GraphGrammar.Proofs.Reachability
import GraphGrammar.Proofs.Identity
import GraphGrammar.Proofs.Quotas
import GraphGrammar.Proofs.TargetOrder
import GraphGrammar.Proofs.VertexErasure
import GraphGrammar.Proofs.Endings
import GraphGrammar.Proofs.Shrinking
import GraphGrammar.Proofs.Declarations
import GraphGrammar.Proofs.Rebuilding
import GraphGrammar.Proofs.CarryOver
import GraphGrammar.Proofs.RenamedSearch
import GraphGrammar.Proofs.Components
import GraphGrammar.Proofs.Documents
import GraphGrammar.Proofs.PlanShape
