import GraphGrammar.Graph.Fresh
import GraphGrammar.Occurrence

/-!
# Applying a production

A production is applied at an occurrence in five phases: the images of the preserved vertices are carried over
to the right side; the images of left edges that no right edge falls on are erased; so are the images of the
deleted vertices, with all their edges; a vertex under a fresh identifier is added for each created one; the
images of the right edges are added. Edges go before vertices, so that their ends are still there to decide by,
and come after them, so that they can lead to new ones.

Each phase takes any mappings at all, passes over what is not mapped, and reports how much it changed. Only
`Production.apply` judges the mapping, before anything is changed.

Correspondence (operation ↔ definition):
  `map_rhs_to_graph`          ↔ `Production.carryOver`
  `delete_missing_edges`      ↔ `Production.eraseEdges`
  `delete_missing_vertices`   ↔ `Production.eraseVertices`
  `add_new_vertices`          ↔ `Production.addVertices`
  `add_new_edges`             ↔ `Production.addEdges`
  `apply_production`          ↔ `Production.apply`, of which `Production.commit` is all behind the judgement
  `RewriteSummary`, `is_noop` ↔ `Summary`, `Summary.isNoop`
-/

namespace GraphGrammar

/-- What applying a production changed. -/
structure Summary where
  edgesErased : Nat
  verticesErased : Nat
  verticesAdded : Nat
  edgesAdded : Nat
  /-- The images of the vertices of the right side, the created ones among them. -/
  rhsMapping : Mapping
  deriving DecidableEq

def Summary.isNoop (s : Summary) : Bool :=
  s.edgesErased == 0 && s.verticesErased == 0 && s.verticesAdded == 0 && s.edgesAdded == 0

namespace Production

/-- The mapping of the right side: the images of the vertices that the left mapping knows. -/
def carryOver (p : Production) (left : Mapping) : Mapping :=
  .ofList (p.rhs.ids.filterMap fun id => (left.get? id).map (id, ·))

/-- Whether an edge of the right side falls on an edge of the host. -/
def keeps (p : Production) (right : Mapping) (e : Edge) : Bool :=
  p.rhs.edges.any fun r => right.edgeImage? r == some e

/-- Erases the image of each left edge that no right edge falls on. Returns the number of edges erased. -/
def eraseEdges (p : Production) (left right : Mapping) (g : Graph) : Graph × Nat :=
  p.lhs.edges.foldl (fun (g, count) e =>
    match left.edgeImage? e with
    | none => (g, count)
    | some image =>
      if p.keeps right image then (g, count)
      else
        let (g, erased) := g.eraseEdge image.1 image.2
        (g, if erased then count + 1 else count)) (g, 0)

/-- Erases the image of each deleted vertex, with all its edges. Returns the number of vertices erased. -/
def eraseVertices (p : Production) (left : Mapping) (g : Graph) : Graph × Nat :=
  p.deleted.foldl (fun (g, count) id =>
    match left.get? id with
    | none => (g, count)
    | some host =>
      let (g, erased) := g.eraseVertex host
      (g, if erased.isSome then count + 1 else count)) (g, 0)

/-- Adds a vertex under a fresh identifier for each created one and maps it there. Returns the number of vertices
added, with the mapping. Nothing when the search for an identifier never ends. -/
def addVertices (p : Production) (right : Mapping) (g : Graph) : Option (Graph × Nat × Mapping) :=
  p.created.foldlM (fun (g, count, right) v => do
    let (g, host) ← g.fresh
    return ((g.addVertex ⟨host, v.label⟩).1, count + 1, right.insert v.id host)) (g, 0, right)

/-- Adds the image of each right edge between vertices of the graph. Returns the number of edges added. -/
def addEdges (p : Production) (right : Mapping) (g : Graph) : Graph × Nat :=
  p.rhs.edges.foldl (fun (g, count) e =>
    match right.edgeImage? e with
    | none => (g, count)
    | some image =>
      match g.connect image.1 image.2 with
      | (g, .ok added) => (g, if added then count + 1 else count)
      | (g, .error _) => (g, count)) (g, 0)

/-- Runs the phases one after another, whatever the mapping is. -/
def commit (p : Production) (left : Mapping) (g : Graph) : Option (Graph × Summary) := do
  let right := p.carryOver left
  let (g, edgesErased) := p.eraseEdges left right g
  let (g, verticesErased) := p.eraseVertices left g
  let (g, verticesAdded, right) ← p.addVertices right g
  let (g, edgesAdded) := p.addEdges right g
  return (g, ⟨edgesErased, verticesErased, verticesAdded, edgesAdded, right⟩)

/-- Applies the production at a mapping, which has to be an occurrence of it in the graph. Returns the graph that is
left behind, with the summary or with what is wrong; nothing when the search for an identifier never ends. -/
def apply (p : Production) (left : Mapping) (g : Graph) : Option (Graph × Except Error Summary) :=
  match p.validate g left with
  | .error e => some (g, .error e)
  | .ok () => (p.commit left g).map fun (g, summary) => (g, .ok summary)

end Production
end GraphGrammar
