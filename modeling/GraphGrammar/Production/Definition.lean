import GraphGrammar.Format
import GraphGrammar.Production

/-!
# Productions in documents

A definition lists the vertices and edges of both sides of a production as a document gives them. It need not be
well formed; `ProductionDefinition.production` tells.

Correspondence: `PatternDef` and `ProductionDef` ↔ `PatternDefinition` and `ProductionDefinition`.
-/

namespace GraphGrammar

structure PatternDefinition where
  vertices : List Vertex := []
  edges : List Edge := []
  deriving DecidableEq, Repr

structure ProductionDefinition where
  name : Option String := none
  lhs : PatternDefinition := {}
  rhs : PatternDefinition := {}
  deriving DecidableEq, Repr

def VertexId.read (e : Encoding) (x : e.Value) : Option VertexId := (e.text? x).map VertexId.mk

def Label.read (e : Encoding) (x : e.Value) : Option Label := (e.text? x).map Label.mk

/-- A vertex, from the fields `id` and `label`, which have to be given. -/
def Vertex.read (e : Encoding) (x : e.Value) : Option Vertex := do
  let fields ← e.fields? ["id", "label"] x
  let id ← fields.get "id" (VertexId.read e)
  let label ← fields.get "label" (Label.read e)
  return { id, label }

def PatternDefinition.read (e : Encoding) (x : e.Value) : Option PatternDefinition := do
  let fields ← e.fields? ["vertices", "edges"] x
  let vertices ← fields.getD "vertices" (e.list? (Vertex.read e)) []
  let edges ← fields.getD "edges" (e.list? (e.pair? (VertexId.read e))) []
  return { vertices, edges }

namespace ProductionDefinition

def read (e : Encoding) (x : e.Value) : Option ProductionDefinition := do
  let fields ← e.fields? ["name", "lhs", "rhs"] x
  let name ← fields.getD "name" (e.optional? e.text?) none
  let lhs ← fields.getD "lhs" (PatternDefinition.read e) {}
  let rhs ← fields.getD "rhs" (PatternDefinition.read e) {}
  return { name, lhs, rhs }

def production (d : ProductionDefinition) : Except ProductionFault Production :=
  Production.ofParts d.name (d.lhs.vertices, d.lhs.edges) (d.rhs.vertices, d.rhs.edges)

end ProductionDefinition
end GraphGrammar
