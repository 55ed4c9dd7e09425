import Std.Data.ExtTreeMap
import Std.Data.ExtTreeSet

/-!
# Identifiers, labels, vertices

Vertices are named by identifiers and carry labels. Both are texts compared by code points, so every
container keyed by them has one order, the same in every run. Containers are the extensional ordered trees
of the standard library: two with the same entries are equal.
-/

namespace GraphGrammar
open Std

/-- The identifier of a vertex, unique within its graph. -/
structure VertexId where
  name : String
  deriving DecidableEq, Repr, Inhabited

/-- The label of a vertex. Matching compares labels and never identifiers. -/
structure Label where
  name : String
  deriving DecidableEq, Repr, Inhabited

instance : Ord VertexId := ⟨compareOn VertexId.name⟩
instance : Ord Label := ⟨compareOn Label.name⟩

instance : TransOrd VertexId := inferInstanceAs (TransCmp (compareOn VertexId.name))
instance : TransOrd Label := inferInstanceAs (TransCmp (compareOn Label.name))

instance : LawfulEqOrd VertexId where
  eq_of_compare {a b} h := by
    have hn : a.name = b.name := LawfulEqOrd.eq_of_compare h
    cases a; cases b; simp_all

instance : LawfulEqOrd Label where
  eq_of_compare {a b} h := by
    have hn : a.name = b.name := LawfulEqOrd.eq_of_compare h
    cases a; cases b; simp_all

instance : LT VertexId := ltOfOrd
instance : LT Label := ltOfOrd

theorem VertexId.lt_iff_compare {a b : VertexId} : a < b ↔ compare a b = .lt := Iff.rfl

/-- Identifiers in ascending order, repeats kept. -/
def VertexId.sort (ids : List VertexId) : List VertexId :=
  ids.mergeSort fun a b => (compare a b).isLE

/-- Labels in ascending order, each once. -/
def Label.distinct (labels : List Label) : List Label :=
  (ExtTreeSet.ofList labels).toList

structure Vertex where
  id : VertexId
  label : Label
  deriving DecidableEq, Repr, Inhabited

def Vertex.sameLabel (v w : Vertex) : Bool := v.label = w.label

/-- An edge, from its first identifier to its second. -/
abbrev Edge := VertexId × VertexId

instance : Ord Edge := lexOrd
instance : TransOrd Edge := instTransOrdProd
instance : LawfulEqOrd Edge := instLawfulEqOrdProd

end GraphGrammar
