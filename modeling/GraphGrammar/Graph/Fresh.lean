import GraphGrammar.Graph.Basic

/-!
# Fresh identifiers

Fresh identifiers are `v0`, `v1`, and so on, numbered by the counter of the graph. The counter never goes back,
and numbers whose identifier is a vertex already are passed over. Among one more number than the graph has
vertices one is free, so a search that has not ended after that many rounds has come to the largest word and never
ends.

Correspondence: `fresh_identifier` ↔ `Graph.fresh`. The loop of the one has no bound and the search of the other has;
that the search finds nothing exactly when the loop never ends is proved in `GraphGrammar.Proofs.FreshNames`
(`taken_of_fresh`, `searchFresh_of_fresh`).
-/

namespace GraphGrammar

/-- The identifier of number `n`. -/
def VertexId.numbered (n : Counter) : VertexId := ⟨"v" ++ toString n.toNat⟩

namespace Graph

/-- The first identifier from number `n` on that is no vertex, and the number behind it. Nothing when it is not
among those that `rounds` rounds try. -/
def searchFresh (g : Graph) : (rounds : Nat) → (n : Counter) → Option (VertexId × Counter)
  | 0, _ => none
  | rounds + 1, n =>
    if g.contains (.numbered n) then g.searchFresh rounds n.next else some (.numbered n, n.next)

/-- An identifier that is no vertex of the graph. No vertex is added; only the counter moves. Nothing when the search
never ends: the counter stands at the largest word, and the identifier of that number is taken. -/
def fresh (g : Graph) : Option (Graph × VertexId) :=
  (g.searchFresh (g.vertexCount + 1) g.nextFresh).map fun (id, next) => ({ g with nextFresh := next }, id)

end Graph
end GraphGrammar
