import GraphGrammar.Derivation
import GraphGrammar.Proofs.Consistency
import GraphGrammar.Proofs.Failures
import GraphGrammar.Proofs.Rewrite

/-!
# Sessions

A session calls operations on one graph in any order: the operations on vertices and edges, the phases of an
application each on its own and with mappings nobody has judged, whole applications, and derivations under any
strategy. Calls that fail are part of it. Each call keeps the invariant of graphs, so a session that starts with
the empty graph has it at every point.

Nothing is assumed, neither of productions and mappings nor of the counter. A call whose search for an identifier never
ends leaves no graph behind; the graph that it was made on then stands for all that follow.
-/

namespace GraphGrammar

/-- A call of an operation that changes a graph. -/
inductive Call where
  | addVertex (v : Vertex)
  | addEdge (source target : Vertex)
  | connect (source target : VertexId)
  | eraseEdge (source target : VertexId)
  | eraseVertex (id : VertexId)
  | fresh
  | eraseEdges (p : Production) (left right : Mapping)
  | eraseVertices (p : Production) (left : Mapping)
  | addVertices (p : Production) (right : Mapping)
  | addEdges (p : Production) (right : Mapping)
  | apply (p : Production) (left : Mapping)
  | derive {σ : Type} (settings : SearchSettings) (ps : List Production) (strategy : Strategy σ) (memory : σ)
      (rounds : Nat)

/-- The graph that a call leaves behind. A call that never ends is the last one, and the graph it was made on the last
one that is seen. -/
def Call.perform (g : Graph) : Call → Graph
  | .addVertex v => (g.addVertex v).1
  | .addEdge source target => (g.addEdge source target).1
  | .connect source target => (g.connect source target).1
  | .eraseEdge source target => (g.eraseEdge source target).1
  | .eraseVertex id => (g.eraseVertex id).1
  | .fresh => g.fresh.elim g (·.1)
  | .eraseEdges p left right => (p.eraseEdges left right g).1
  | .eraseVertices p left => (p.eraseVertices left g).1
  | .addVertices p right => (p.addVertices right g).elim g (·.1)
  | .addEdges p right => (p.addEdges right g).1
  | .apply p left => (p.apply left g).elim g (·.1)
  | .derive settings ps strategy memory rounds =>
    (Derivation.run settings ps strategy rounds { graph := g, memory := memory }).1.graph

/-- The graph after a session that starts with the empty graph. -/
def session (calls : List Call) : Graph := calls.foldl Call.perform ∅

namespace Graph.WellFormed

variable {g : Graph} {p : Production} {left : Mapping}

/-! ## Applications -/

theorem apply {r : Graph × Except Error Summary} (hg : g.WellFormed) (h : p.apply left g = some r) :
    r.1.WellFormed := by
  obtain ⟨g', e | summary⟩ := r
  · obtain ⟨rfl, -⟩ := Production.apply_eq_error.mp h
    exact hg
  · exact hg.commit (Production.apply_eq_ok.mp h).2

/-! ## Derivations -/

section
open GraphGrammar.Derivation

variable {σ : Type} {s : State σ} (settings : SearchSettings) (ps : List Production) (strategy : Strategy σ)

theorem step (hs : s.graph.WellFormed) (o : Occurrence) : (s.step o).1.graph.WellFormed := by
  rw [State.step]
  split
  · exact hs
  · next h => exact hs.apply h
  · next h => exact hs.apply h

theorem round (hs : s.graph.WellFormed) : (round settings ps strategy s).1.graph.WellFormed := by
  rw [Derivation.round]
  split
  · exact hs
  · split
    · exact hs
    · exact hs
    · dsimp only
      split
      · exact hs
      · refine step ?_ _
        exact hs

theorem run (hs : s.graph.WellFormed) (rounds : Nat) :
    (run settings ps strategy rounds s).1.graph.WellFormed := by
  induction rounds generalizing s with
  | zero => exact hs
  | succ rounds ih =>
    -- The graph that a round leaves behind is the one that the next round starts with.
    have hround := hs.round settings ps strategy
    rw [Derivation.run]
    split
    · next h => rwa [h] at hround
    · next h =>
      rw [h] at hround
      exact ih hround

end

/-! ## Calls -/

theorem perform (hg : g.WellFormed) (call : Call) : (call.perform g).WellFormed := by
  -- What the calls keep that may never end.
  have ended {α : Type} (result : Option (Graph × α)) (h : ∀ r, result = some r → r.1.WellFormed) :
      (result.elim g (·.1)).WellFormed := by
    cases result with
    | none => exact hg
    | some r => exact h r rfl
  cases call with
  | addVertex v => exact hg.addVertex v
  | addEdge source target => exact hg.addEdge source target
  | connect source target => exact hg.connect source target
  | eraseEdge source target => exact hg.eraseEdge source target
  | eraseVertex id => exact hg.eraseVertex id
  | fresh => exact ended _ fun r => hg.fresh
  | eraseEdges => exact hg.eraseEdges
  | eraseVertices => exact hg.eraseVertices
  | addVertices => exact ended _ fun r => hg.addVertices
  | addEdges => exact hg.addEdges
  | apply p left => exact ended _ fun r => hg.apply
  | derive settings ps strategy memory rounds => exact run settings ps strategy hg rounds

theorem session (calls : List Call) : (session calls).WellFormed :=
  List.foldlRecOn calls _ empty fun _ hg call _ => hg.perform call

end Graph.WellFormed

/-- At every point of a session the tables of the graph agree, each vertex is found under its own identifier, the
check of consistency accepts the graph, and the predecessors of a vertex are the sources of the edges to it, in
order and each once. -/
theorem session_invariant (calls : List Call) :
    (session calls).WellFormed ∧
      (∀ x v, (session calls).vertex? x = some v → v.id = x) ∧
      (session calls).isConsistent = true ∧
      ∀ y, ((session calls).predecessors y).Pairwise (· < ·) ∧
        ∀ x, x ∈ (session calls).predecessors y ↔ (session calls).hasEdge x y = true := by
  have hg := Graph.WellFormed.session calls
  refine ⟨hg, hg.keyed, hg.isConsistent, fun y => ⟨Graph.predecessors_ordered _ y, fun x => ?_⟩⟩
  rw [Graph.mem_predecessors, hg.mem_sourceSet, Graph.hasEdge_iff]

end GraphGrammar
