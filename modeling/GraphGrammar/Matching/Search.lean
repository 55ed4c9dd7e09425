import GraphGrammar.Mapping
import GraphGrammar.Matching.Plan

/-!
# The search for a pattern

The occurrences of a pattern are the injective mappings into the host that keep labels and edges. They are found
by depth-first search along the plan, candidates in identifier order, so they come in one order, the same in
every run. Two limits cut the search short: a budget of candidates to try and a quota of mappings to find.

Correspondence (operation ↔ definition):
  `extend`, `admits`       ↔ `explore`, `Placement.admits`
  `find_all`, `find_first` ↔ `findAll`, `findFirst`
-/

namespace GraphGrammar

structure SearchLimits where
  /-- How many candidates may be tried. -/
  stepLimit : Option UInt64 := none
  /-- How many mappings are wanted. -/
  maxMatches : Option UInt64 := none
  deriving DecidableEq, Repr

/-- The candidates tried and the mappings found so far. -/
structure Progress where
  steps : Counter := 0
  found : Array Mapping := #[]
  deriving DecidableEq

/-- Why a search ends before all candidates are tried. -/
inductive Cut where
  /-- The wanted number of mappings is found. -/
  | quotaReached (found : Array Mapping)
  /-- The budget is used up; `steps` counts the candidate that went beyond it. -/
  | budgetExhausted (steps : Counter)
  deriving DecidableEq

namespace Progress

/-- Counts a candidate as tried. -/
def tick (limits : SearchLimits) (p : Progress) : Except Cut Progress :=
  let steps := p.steps.next
  if limits.stepLimit.any (· < steps) then .error (.budgetExhausted steps) else .ok { p with steps := steps }

/-- Adds a mapping to those found. -/
def record (limits : SearchLimits) (m : Mapping) (p : Progress) : Except Cut Progress :=
  let found := p.found.push m
  if limits.maxMatches.any (·.toNat ≤ found.size) then .error (.quotaReached found)
  else .ok { p with found := found }

end Progress

/-- The vertices placed so far with their images, in the order of the plan. -/
abbrev Placed := List (VertexId × VertexId)

/-- Whether the edges of the vertex being placed lead to and from the images before it as the pattern asks. -/
def Placement.admits (host : Graph) (placed : Placed) (p : Placement) (candidate : VertexId) : Bool :=
  (!p.selfLoop || host.hasEdge candidate candidate) &&
  p.links.all fun link =>
    match placed[link.earlier]? with
    | none => false
    | some (_, image) => if link.outgoing then host.hasEdge candidate image else host.hasEdge image candidate

/-- Whether the candidate can be the next image: it is no image yet, and the edges agree. -/
def Placement.accepts (host : Graph) (placed : Placed) (p : Placement) (candidate : VertexId) : Bool :=
  !(placed.any (·.2 = candidate)) && p.admits host placed candidate

/-- Tries every way to place the vertices of the plan behind those that are placed. -/
def explore (host : Graph) (limits : SearchLimits) : List Placement → Placed → Progress → Except Cut Progress
  | [], placed, progress => progress.record limits (.ofList placed)
  | p :: rest, placed, progress =>
    p.candidates.foldlM (fun progress candidate => do
      let progress ← progress.tick limits
      if p.accepts host placed candidate then
        explore host limits rest (placed ++ [(p.pattern, candidate)]) progress
      else
        return progress) progress

/-- The occurrences of the pattern in the host, in order. An empty pattern occurs once. -/
def findAll (limits : SearchLimits) (pattern host : Graph) : Except Error (List Mapping) :=
  if limits.maxMatches = some 0 then .ok []
  else if pattern.isEmpty then .ok [∅]
  else
    match plan? pattern host with
    | none => .ok []
    | some plan =>
      match explore host limits plan [] {} with
      | .ok progress => .ok progress.found.toList
      | .error (.quotaReached found) => .ok found.toList
      | .error (.budgetExhausted steps) => .error (.searchBudgetExhausted steps)

def findFirst (limits : SearchLimits) (pattern host : Graph) : Except Error (Option Mapping) :=
  (findAll { limits with maxMatches := some 1 } pattern host).map List.head?

end GraphGrammar
