import GraphGrammar.Identifier
import GraphGrammar.Counter

/-!
# Errors

Each error is a cause, a value that names what is at fault. Its text is given by one function, `Error.message`.

Correspondence: `GraftError` and `MappingViolation` ↔ `Error` and `MappingFault`. What a format says of a text that it
cannot parse is left out: `unreadable` stands for any such message.
-/

namespace GraphGrammar

inductive PatternSide where
  | lhs
  | rhs
  deriving DecidableEq, Repr

def PatternSide.text : PatternSide → String
  | .lhs => "lhs"
  | .rhs => "rhs"

/-- Why a mapping is no occurrence of a left side in a host graph. -/
inductive MappingFault where
  /-- Two pattern vertices have one image. -/
  | notInjective (host first second : VertexId)
  /-- A pattern vertex has no image. -/
  | missingVertex (pattern : VertexId)
  /-- An identifier is mapped that the pattern does not have. -/
  | unknownPatternVertex (pattern : VertexId)
  /-- An image is no vertex of the host graph. -/
  | unknownHostVertex (pattern host : VertexId)
  /-- An image carries another label than its pattern vertex. -/
  | labelMismatch (pattern host : VertexId) (expected found : Label)
  /-- The image of a pattern edge is no edge of the host graph. -/
  | missingEdge (source target : VertexId)
  deriving DecidableEq, Repr

/-- Why listed vertices and edges make no pattern graph. -/
inductive ProductionFault where
  /-- An edge has an endpoint that its side does not declare. -/
  | danglingEdge (side : PatternSide) (source target : VertexId)
  /-- One identifier is declared with two labels. -/
  | conflictingLabels (side : PatternSide) (id : VertexId) (existing declared : Label)
  deriving DecidableEq, Repr

/-- Why settings are refused. -/
inductive SettingsFault where
  /-- The document is not well formed, or a value in it has the wrong type. -/
  | unreadable
  /-- A quota of no matches at all. -/
  | zeroMaxMatches
  /-- A budget of no steps at all. -/
  | zeroStepLimit
  deriving DecidableEq, Repr

inductive Error where
  | invalidMapping (fault : MappingFault)
  | malformedProduction (fault : ProductionFault)
  /-- An edge was asked for at an identifier that is no vertex. -/
  | unknownVertex (id : VertexId)
  /-- A search tried more candidates than its budget allows; `steps` counts the one that was refused. -/
  | searchBudgetExhausted (steps : Counter)
  | settings (fault : SettingsFault)
  deriving DecidableEq, Repr

def MappingFault.message : MappingFault → String
  | .notInjective host first second =>
    "host vertex " ++ host.name ++ " is the image of both " ++ first.name ++ " and " ++ second.name
  | .missingVertex pattern => "lhs vertex " ++ pattern.name ++ " is not mapped"
  | .unknownPatternVertex pattern => pattern.name ++ " is not an lhs vertex"
  | .unknownHostVertex pattern host =>
    "host vertex " ++ host.name ++ " (image of " ++ pattern.name ++ ") does not exist"
  | .labelMismatch pattern host expected found =>
    pattern.name ++ " has label " ++ expected.name ++ " but host vertex " ++ host.name ++ " has label " ++ found.name
  | .missingEdge source target =>
    "lhs edge " ++ source.name ++ " -> " ++ target.name ++ " is not realized in the host graph"

def ProductionFault.message : ProductionFault → String
  | .danglingEdge side source target =>
    side.text ++ " edge " ++ source.name ++ " -> " ++ target.name ++ " references an undeclared vertex"
  | .conflictingLabels side id existing declared =>
    side.text ++ " vertex " ++ id.name ++ " is both " ++ existing.name ++ " and " ++ declared.name

def SettingsFault.message : SettingsFault → String
  | .unreadable => "the document cannot be read"
  | .zeroMaxMatches => "search.max_matches must be at least 1"
  | .zeroStepLimit => "search.step_limit must be at least 1"

def Error.message : Error → String
  | .invalidMapping fault => "Invalid mapping: " ++ fault.message
  | .malformedProduction fault => "Malformed production: " ++ fault.message
  | .unknownVertex id => "Vertex not found: " ++ id.name
  | .searchBudgetExhausted steps => "Search budget exhausted after " ++ toString steps.toNat ++ " steps"
  | .settings fault => "Configuration error: " ++ fault.message

end GraphGrammar
