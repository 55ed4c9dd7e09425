import GraphGrammar.Graph.Basic

/-!
# Consistency of the tables of a graph

`Graph.isConsistent` is a check on any tables at all, also on such as no operation produces: both ends of every
edge are vertices, no target is listed twice, and the source sets are the targets read backwards. It goes through the
edges once, keeps the set of those it has seen, and then compares two totals.

Correspondence: `is_consistent` ↔ `Graph.isConsistent`, whose loop over the edges is `Graph.checkEdges`.
-/

namespace GraphGrammar
open Std

namespace Graph

/-- The set of the edges that have been seen behind the listed ones, when `seen` is that in front of them. Nothing
at an edge that is at fault: an end of it is no vertex, it has been seen, or its source is not in the source set. -/
def checkEdges (g : Graph) : List Edge → (seen : ExtTreeSet Edge) → Option (ExtTreeSet Edge)
  | [], seen => some seen
  | (source, target) :: rest, seen =>
    if !g.contains source || !g.contains target then none
    else if seen.contains (source, target) then none
    else if !(g.sourceSet target).contains source then none
    else g.checkEdges rest (seen.insert (source, target))

/-- How many edges the source sets tell of. -/
def sourceCount (g : Graph) : Nat := g.sources.values.foldl (fun count sources => count + sources.size) 0

/-- Whether the three tables agree on which vertices and edges there are. -/
def isConsistent (g : Graph) : Bool :=
  match g.checkEdges g.edges ∅ with
  | none => false
  | some seen => g.sourceCount == seen.size

end Graph

end GraphGrammar
