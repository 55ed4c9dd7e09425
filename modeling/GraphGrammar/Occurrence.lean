import GraphGrammar.Production
import GraphGrammar.Settings

/-!
# Occurrences of productions

`SearchSettings.occurrences` finds where the productions of a list apply. `Production.fault?` is the other side:
it judges any mapping at all and names the first thing that keeps it from being an occurrence.

Correspondence (operation ↔ definition):
  `find_matching_productions` ↔ `SearchSettings.occurrences`
  `validate_mapping`          ↔ `Production.validate`, with the fault that it names in `Production.fault?`
-/

namespace GraphGrammar

structure Occurrence where
  /-- The position of the production in the list. -/
  index : Nat
  production : Production
  mapping : Mapping
  deriving DecidableEq

namespace SearchSettings

def occurrencesOf (s : SearchSettings) (host : Graph) (p : Production) (index : Nat) :
    Except Error (List Occurrence) := do
  if s.skipEmptyPatterns && p.lhs.isEmpty then return []
  return (← findAll s.limits p.lhs host).map fun mapping => ⟨index, p, mapping⟩

/-- The occurrences of all productions of the list, by production and then in the order of the search. -/
def occurrences (s : SearchSettings) (host : Graph) (ps : List Production) : Except Error (List Occurrence) := do
  return (← ps.zipIdx.mapM fun (p, index) => s.occurrencesOf host p index).flatten

end SearchSettings

namespace Production

/-- A vertex that is mapped though the left side does not have it. -/
def keyFault? (p : Production) (m : Mapping) : Option MappingFault :=
  (m.toList.find? fun (pattern, _) => !p.lhs.contains pattern).map fun (pattern, _) =>
    .unknownPatternVertex pattern

def collisionFault? (m : Mapping) : Option MappingFault :=
  m.collision?.map fun c => .notInjective c.host c.first c.second

def vertexFault? (g : Graph) (m : Mapping) (v : Vertex) : Option MappingFault :=
  match m.get? v.id with
  | none => some (.missingVertex v.id)
  | some host =>
    match g.label? host with
    | none => some (.unknownHostVertex v.id host)
    | some found => if found = v.label then none else some (.labelMismatch v.id host v.label found)

def edgeFault? (g : Graph) (m : Mapping) (e : Edge) : Option MappingFault :=
  if (m.edgeImage? e).any fun (source, target) => g.hasEdge source target then none
  else some (.missingEdge e.1 e.2)

/-- What keeps the mapping from being an occurrence of the production in the graph, if anything does. Looked at
in turn: the vertices that are mapped, in order; collisions; the vertices of the left side, in order; its edges,
in order. -/
def fault? (p : Production) (g : Graph) (m : Mapping) : Option MappingFault :=
  p.keyFault? m <|> collisionFault? m <|> p.lhs.vertices.findSome? (vertexFault? g m) <|>
    p.lhs.edges.findSome? (edgeFault? g m)

/-- Refuses a mapping that is no occurrence of the production in the graph. -/
def validate (p : Production) (g : Graph) (m : Mapping) : Except Error Unit :=
  match p.fault? g m with
  | none => .ok ()
  | some fault => .error (.invalidMapping fault)

end Production
end GraphGrammar
