import GraphGrammar.Graph.Basic

/-!
# Productions

A production is a pair of patterns. Its sides are correlated by identifier alone: a vertex on both sides is
preserved, one on the left side only is deleted, one on the right side only is created. The label of a preserved
vertex is that of the left side, whatever the right side declares.

Correspondence (operation ↔ definition):
  `from_parts`, `build_pattern`                      ↔ `Production.ofParts`, `Graph.ofParts`
  `preserved_ids`, `deleted_ids`, `created_vertices` ↔ `preserved`, `deleted`, `created`
  `relabelled_ids`, `is_identity`                    ↔ `relabelled`, `isIdentity`
-/

namespace GraphGrammar

/-- A pattern to find, and the pattern to leave in its place. -/
structure Production where
  name : Option String := none
  lhs : Graph
  rhs : Graph
  deriving DecidableEq

namespace Graph

/-- Declares a vertex of a pattern. A repeated declaration has to give the same label. -/
def declare (side : PatternSide) (g : Graph) (v : Vertex) : Except ProductionFault Graph :=
  match g.label? v.id with
  | none => .ok (g.addVertex v).1
  | some existing =>
    if existing = v.label then .ok g else .error (.conflictingLabels side v.id existing v.label)

/-- Draws an edge of a pattern between declared vertices. -/
def draw (side : PatternSide) (g : Graph) (e : Edge) : Except ProductionFault Graph :=
  match g.connect e.1 e.2 with
  | (g, .ok _) => .ok g
  | (_, .error _) => .error (.danglingEdge side e.1 e.2)

def ofParts (side : PatternSide) (vertices : List Vertex) (edges : List Edge) : Except ProductionFault Graph := do
  edges.foldlM (draw side) (← vertices.foldlM (declare side) ∅)

end Graph

namespace Production

def ofParts (name : Option String) (lhs rhs : List Vertex × List Edge) : Except ProductionFault Production := do
  let left ← Graph.ofParts .lhs lhs.1 lhs.2
  let right ← Graph.ofParts .rhs rhs.1 rhs.2
  return ⟨name, left, right⟩

/-- The identifiers on both sides, in order. -/
def preserved (p : Production) : List VertexId := p.lhs.ids.filter p.rhs.contains

/-- The identifiers on the left side only, in order. -/
def deleted (p : Production) : List VertexId := p.lhs.ids.filter fun id => !p.rhs.contains id

/-- The vertices on the right side only, in identifier order. -/
def created (p : Production) : List Vertex := p.rhs.vertices.filter fun v => !p.lhs.contains v.id

/-- The identifiers on both sides whose labels differ, in order. -/
def relabelled (p : Production) : List VertexId :=
  (p.lhs.vertices.filter fun v => (p.rhs.vertex? v.id).any fun w => !w.sameLabel v).map (·.id)

/-- Whether both sides have the same vertices, labels and edges: their counts agree, and the right side has all
that the left side has. -/
def isIdentity (p : Production) : Bool :=
  p.lhs.vertexCount == p.rhs.vertexCount &&
  p.lhs.edgeCount == p.rhs.edgeCount &&
  (p.lhs.vertices.all fun v => (p.rhs.vertex? v.id).any (·.sameLabel v)) &&
  p.lhs.edges.all fun (source, target) => p.rhs.hasEdge source target

end Production
end GraphGrammar
