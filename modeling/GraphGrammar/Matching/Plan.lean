import GraphGrammar.Graph.Basic

/-!
# Placement plans

A search places the vertices of a pattern one after another. The plan fixes their order before the search
starts: the next vertex is one with the most neighbours among those placed, of these one with the fewest
candidates, of these the least. Each placement lists what an image has to satisfy towards the images before it,
by position, so every edge of the pattern is checked once, when the later of its ends is placed.

Correspondence: `Step`, `Constraint` and `plan` ↔ `Placement`, `Link` and `plan?`.
-/

namespace GraphGrammar

/-- An edge between the vertex being placed and one placed before. -/
structure Link where
  /-- The position of the vertex placed before. -/
  earlier : Nat
  /-- Whether the edge leads to the vertex placed before, and not from it. -/
  outgoing : Bool
  deriving DecidableEq, Repr

/-- How one vertex of a pattern is placed. -/
structure Placement where
  /-- The vertex to place. -/
  pattern : VertexId
  /-- The host vertices that carry its label, in order. -/
  candidates : List VertexId
  /-- Its edges with the vertices placed before. -/
  links : List Link
  /-- Whether the pattern has an edge from the vertex to itself. -/
  selfLoop : Bool
  deriving DecidableEq, Repr

/-- A vertex that waits to be placed, with its candidates. -/
structure Pending where
  pattern : VertexId
  candidates : List VertexId
  deriving DecidableEq, Repr

namespace Pending

/-- The number of placed vertices that share an edge with this one. -/
def linkCount (p : Pending) (pattern : Graph) (placed : List VertexId) : Nat :=
  placed.countP fun q => pattern.hasEdge p.pattern q || pattern.hasEdge q p.pattern

/-- Whether `p` is to be placed before `q`: more neighbours are placed, or as many and fewer candidates, or as
many of both and the lesser identifier. -/
def precedes (pattern : Graph) (placed : List VertexId) (p q : Pending) : Bool :=
  (compare (q.linkCount pattern placed) (p.linkCount pattern placed)
    |>.then (compare p.candidates.length q.candidates.length)
    |>.then (compare p.pattern q.pattern)).isLT

/-- The one of the waiting vertices that precedes the others. -/
def first? (pattern : Graph) (placed : List VertexId) : List Pending → Option Pending
  | [] => none
  | p :: rest => some (rest.foldl (fun best q => if q.precedes pattern placed best then q else best) p)

/-- Places a vertex behind the ones that are placed. -/
def place (p : Pending) (pattern : Graph) (placed : List VertexId) : Placement where
  pattern := p.pattern
  candidates := p.candidates
  links := placed.zipIdx.flatMap fun (q, earlier) =>
    (if pattern.hasEdge p.pattern q then [⟨earlier, true⟩] else []) ++
    (if pattern.hasEdge q p.pattern then [⟨earlier, false⟩] else [])
  selfLoop := pattern.hasEdge p.pattern p.pattern

end Pending

/-- The placements of the waiting vertices behind the ones that are placed, at most `count` of them. -/
def placements (pattern : Graph) : (count : Nat) → (placed : List VertexId) → List Pending → List Placement
  | 0, _, _ => []
  | count + 1, placed, waiting =>
    match Pending.first? pattern placed waiting with
    | none => []
    | some next =>
      next.place pattern placed ::
        placements pattern count (placed ++ [next.pattern]) (waiting.filter (·.pattern ≠ next.pattern))

/-- The vertices of the pattern with their candidates; nothing when one of them has none. -/
def pendings? (pattern host : Graph) : Option (List Pending) :=
  pattern.vertices.mapM fun v =>
    match host.withLabel v.label with
    | [] => none
    | candidates => some ⟨v.id, candidates⟩

/-- The plan of a search for the pattern in the host; nothing when a label of the pattern is not in the host. -/
def plan? (pattern host : Graph) : Option (List Placement) :=
  (pendings? pattern host).map fun waiting => placements pattern waiting.length [] waiting

end GraphGrammar
