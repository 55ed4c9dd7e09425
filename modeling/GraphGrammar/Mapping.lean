import GraphGrammar.Identifier

/-!
# Mappings

A mapping sends identifiers of a pattern to identifiers of a host graph. It need be neither total nor injective:
`Mapping.collision?` finds the first two pattern vertices with one image.

Correspondence (operation ↔ definition):
  `insert`, `remove`               ↔ `exchange`, `remove`; `insert` and `erase` leave out what is returned
  `images`, `iter`, `from_iter`    ↔ `hosts`, `toList`, `ofList`
  `edge_image`                     ↔ `edgeImage?`
  `find_collision`, `is_injective` ↔ `collision?`, `isInjective`
-/

namespace GraphGrammar
open Std

/-- A partial function from pattern identifiers to host identifiers. -/
structure Mapping where
  images : ExtTreeMap VertexId VertexId := ∅
  deriving DecidableEq

/-- Two pattern vertices with one image, `first` before `second`. -/
structure Collision where
  host : VertexId
  first : VertexId
  second : VertexId
  deriving DecidableEq, Repr

namespace Mapping

instance : EmptyCollection Mapping := ⟨{}⟩
instance : Inhabited Mapping := ⟨∅⟩

def get? (m : Mapping) (pattern : VertexId) : Option VertexId := m.images[pattern]?

def contains (m : Mapping) (pattern : VertexId) : Bool := m.images.contains pattern

def insert (m : Mapping) (pattern host : VertexId) : Mapping := ⟨m.images.insert pattern host⟩

def erase (m : Mapping) (pattern : VertexId) : Mapping := ⟨m.images.erase pattern⟩

/-- Inserts, and returns the image that is replaced. -/
def exchange (m : Mapping) (pattern host : VertexId) : Mapping × Option VertexId :=
  (m.insert pattern host, m.get? pattern)

/-- Erases, and returns the image that is lost. -/
def remove (m : Mapping) (pattern : VertexId) : Mapping × Option VertexId :=
  (m.erase pattern, m.get? pattern)

def size (m : Mapping) : Nat := m.images.size

def isEmpty (m : Mapping) : Bool := m.images.isEmpty

/-- The pairs of pattern and host vertex, in pattern order. -/
def toList (m : Mapping) : List (VertexId × VertexId) := m.images.toList

/-- The mapping of a list of pairs; of several for one pattern vertex the last counts. -/
def ofList (pairs : List (VertexId × VertexId)) : Mapping :=
  pairs.foldl (fun m (pattern, host) => m.insert pattern host) ∅

/-- The images, in pattern order. -/
def hosts (m : Mapping) : List VertexId := m.images.values

/-- The image of an edge, when both its ends have one. -/
def edgeImage? (m : Mapping) (e : Edge) : Option Edge :=
  match m.get? e.1, m.get? e.2 with
  | some source, some target => some (source, target)
  | _, _ => none

/-- The first pair whose image is in `seen`, which gives to each image met so far its pattern vertex. -/
def collisionAmong (seen : ExtTreeMap VertexId VertexId) : List (VertexId × VertexId) → Option Collision
  | [] => none
  | (pattern, host) :: rest =>
    match seen[host]? with
    | some first => some ⟨host, first, pattern⟩
    | none => collisionAmong (seen.insert host pattern) rest

/-- The first pattern vertex whose image an earlier one has too, with that image and the earlier one. -/
def collision? (m : Mapping) : Option Collision := collisionAmong ∅ m.toList

def isInjective (m : Mapping) : Bool := m.collision?.isNone

end Mapping
end GraphGrammar
