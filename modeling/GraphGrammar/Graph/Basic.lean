import GraphGrammar.Error

/-!
# Labelled directed graphs

A graph keeps three tables: the vertex stored under each identifier, the targets of each vertex in the order in
which its edges were added, and, so that a vertex is erased by visiting its neighbours alone, the set of sources of
each vertex. Beside them stands the counter behind fresh identifiers (`GraphGrammar.Graph.Fresh`). Host graphs and
the two sides of a production are graphs of this one type.

An operation that changes a graph returns the new graph and what it reports about the change.

Correspondence (table or operation ↔ definition):
  `vertices`, `edges`, `incoming`, `next_fresh` ↔ `stored`, `targets`, `sources`, `nextFresh`
  `add_vertex`, `add_edge`, `connect`           ↔ `addVertex`, `addEdge`, `connect`
  `remove_edge`, `remove_vertex`                ↔ `eraseEdge`, `eraseVertex`
  `contains_vertex`, `vertex`, `label`          ↔ `contains`, `vertex?`, `label?`
  `vertex_ids`, `vertices_with_label`           ↔ `ids`, `withLabel`
-/

namespace GraphGrammar
open Std

/-- A directed graph of labelled vertices, at most one edge from a vertex to another. -/
structure Graph where
  /-- The vertex stored under each identifier. -/
  stored : ExtTreeMap VertexId Vertex := ∅
  /-- The targets of each vertex, in the order in which the edges were added. -/
  targets : ExtTreeMap VertexId (List VertexId) := ∅
  /-- The sources of each vertex: `targets` read backwards. -/
  sources : ExtTreeMap VertexId (ExtTreeSet VertexId) := ∅
  /-- The number that the next fresh identifier is tried with. -/
  nextFresh : Counter := 0
  deriving DecidableEq

namespace Graph

def empty : Graph := {}

instance : EmptyCollection Graph := ⟨empty⟩
instance : Inhabited Graph := ⟨empty⟩

/-! ## Reading a graph -/

def contains (g : Graph) (id : VertexId) : Bool := g.stored.contains id

def vertex? (g : Graph) (id : VertexId) : Option Vertex := g.stored[id]?

def label? (g : Graph) (id : VertexId) : Option Label := (g.vertex? id).map (·.label)

/-- The targets of the edges from a vertex, in the order in which they were added; none for an unknown one. -/
def successors (g : Graph) (id : VertexId) : List VertexId := g.targets[id]?.getD []

/-- The set of sources of the edges to a vertex; empty for an unknown one. -/
def sourceSet (g : Graph) (id : VertexId) : ExtTreeSet VertexId := g.sources[id]?.getD ∅

/-- The sources of the edges to a vertex, in identifier order. -/
def predecessors (g : Graph) (id : VertexId) : List VertexId := (g.sourceSet id).toList

def hasEdge (g : Graph) (source target : VertexId) : Bool := target ∈ g.successors source

def outDegree (g : Graph) (id : VertexId) : Nat := (g.successors id).length

/-- The identifiers of the vertices, in order. -/
def ids (g : Graph) : List VertexId := g.stored.keys

def vertices (g : Graph) : List Vertex := g.stored.values

/-- The edges, by source and then in the order in which they were added. -/
def edges (g : Graph) : List Edge :=
  g.targets.toList.flatMap fun (source, targets) => targets.map fun target => (source, target)

/-- The identifiers of the vertices that carry a label, in order. -/
def withLabel (g : Graph) (label : Label) : List VertexId :=
  (g.vertices.filter (·.label = label)).map (·.id)

def vertexCount (g : Graph) : Nat := g.stored.size

def edgeCount (g : Graph) : Nat := g.edges.length

def isEmpty (g : Graph) : Bool := g.stored.isEmpty

/-! ## Changing a graph -/

/-- Adds a vertex and reports whether it is new. A vertex that is there already keeps its label. -/
def addVertex (g : Graph) (v : Vertex) : Graph × Bool :=
  if g.contains v.id then (g, false)
  else
    ({ g with
        stored := g.stored.insert v.id v
        targets := g.targets.insertIfNew v.id []
        sources := g.sources.insertIfNew v.id ∅ }, true)

/-- Adds an edge behind the others of its source and reports whether it is new. -/
def link (g : Graph) (source target : VertexId) : Graph × Bool :=
  if g.hasEdge source target then (g, false)
  else
    ({ g with
        targets := g.targets.insert source (g.successors source ++ [target])
        sources := g.sources.insert target ((g.sourceSet target).insert source) }, true)

/-- Adds an edge between two vertices of the graph and reports whether it is new, or which end is unknown. -/
def connect (g : Graph) (source target : VertexId) : Graph × Except Error Bool :=
  if !g.contains source then (g, .error (.unknownVertex source))
  else if !g.contains target then (g, .error (.unknownVertex target))
  else
    let (g, added) := g.link source target
    (g, .ok added)

/-- Adds an edge, and first each of its ends that is not there yet. Reports whether the edge is new. -/
def addEdge (g : Graph) (source target : Vertex) : Graph × Bool :=
  (((g.addVertex source).1.addVertex target).1).link source.id target.id

/-- Erases an edge and reports whether it was there. -/
def eraseEdge (g : Graph) (source target : VertexId) : Graph × Bool :=
  if g.hasEdge source target then
    ({ g with
        targets := g.targets.insert source ((g.successors source).erase target)
        sources := g.sources.modify target (·.erase source) }, true)
  else (g, false)

/-- Erases a vertex and every edge at it, visiting its neighbours alone, and returns the vertex that was there.
The targets of the vertex lose it as a source; what is then left of its own sources loses it as a target. -/
def eraseVertex (g : Graph) (id : VertexId) : Graph × Option Vertex :=
  match g.vertex? id with
  | none => (g, none)
  | some vertex =>
    let sources := (g.successors id).foldl (fun table target => table.modify target (·.erase id)) g.sources
    let remaining := (sources[id]?.getD ∅).toList
    let targets :=
      remaining.foldl (fun table source => table.modify source (·.filter (· ≠ id))) (g.targets.erase id)
    ({ g with stored := g.stored.erase id, targets := targets, sources := sources.erase id }, some vertex)

end Graph
end GraphGrammar
