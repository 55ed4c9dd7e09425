import GraphGrammar.Matching.Search

/-!
# Settings

What a run can be told: how to search, how long to go on, and which occurrence to pick.

Correspondence: `SearchConfig`, `SelectionPolicy`, `DerivationConfig` and `GeneratorConfig` ↔ `SearchSettings`,
`Selection`, `DerivationSettings` and `Settings`; `validate` ↔ `Settings.validate`.
-/

namespace GraphGrammar

structure SearchSettings where
  /-- How many candidates may be tried in one search. -/
  stepLimit : Option UInt64 := none
  /-- How many occurrences of one production are wanted. -/
  maxMatches : Option UInt64 := none
  /-- Whether productions with an empty left side are left out. -/
  skipEmptyPatterns : Bool := false
  deriving DecidableEq, Repr

def SearchSettings.limits (s : SearchSettings) : SearchLimits := ⟨s.stepLimit, s.maxMatches⟩

/-- Which of the occurrences on offer is picked. -/
inductive Selection where
  | first
  | last
  | random
  deriving DecidableEq, Repr

namespace Selection

/-- The word for a selection in documents. -/
def word : Selection → String
  | .first => "first"
  | .last => "last"
  | .random => "random"

def ofWord? : String → Option Selection
  | "first" => some .first
  | "last" => some .last
  | "random" => some .random
  | _ => none

end Selection

structure DerivationSettings where
  /-- How many productions are applied at most. -/
  maxSteps : UInt64 := 100
  /-- What the random selection starts from. -/
  seed : UInt64 := 0
  selection : Selection := .first
  deriving DecidableEq, Repr

structure Settings where
  search : SearchSettings := {}
  derivation : DerivationSettings := {}
  deriving DecidableEq, Repr

namespace Settings

/-- The first limit that leaves a search nothing to do. -/
def fault? (s : Settings) : Option SettingsFault :=
  if s.search.maxMatches = some 0 then some .zeroMaxMatches
  else if s.search.stepLimit = some 0 then some .zeroStepLimit
  else none

/-- Refuses settings under which no search can find anything. -/
def validate (s : Settings) : Except Error Unit :=
  match s.fault? with
  | none => .ok ()
  | some fault => .error (.settings fault)

end Settings
end GraphGrammar
