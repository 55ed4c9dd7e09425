import GraphGrammar.Format
import GraphGrammar.Settings

/-!
# Settings in documents

How settings are read from the values of a document. What is not given takes its default.
-/

namespace GraphGrammar

variable (e : Encoding)

def SearchLimits.read (x : e.Value) : Option SearchLimits := do
  let fields ← e.fields? ["step_limit", "max_matches"] x
  let stepLimit ← fields.getD "step_limit" (e.optional? e.word?) none
  let maxMatches ← fields.getD "max_matches" (e.optional? e.word?) none
  return { stepLimit, maxMatches }

def SearchSettings.read (x : e.Value) : Option SearchSettings := do
  let fields ← e.fields? ["step_limit", "max_matches", "skip_empty_patterns"] x
  let stepLimit ← fields.getD "step_limit" (e.optional? e.word?) none
  let maxMatches ← fields.getD "max_matches" (e.optional? e.word?) none
  let skipEmptyPatterns ← fields.getD "skip_empty_patterns" e.bool? false
  return { stepLimit, maxMatches, skipEmptyPatterns }

def Selection.read (x : e.Value) : Option Selection := e.case? x >>= ofWord?

def DerivationSettings.read (x : e.Value) : Option DerivationSettings := do
  let fields ← e.fields? ["max_steps", "seed", "selection"] x
  let maxSteps ← fields.getD "max_steps" e.word? 100
  let seed ← fields.getD "seed" e.word? 0
  let selection ← fields.getD "selection" (Selection.read e) .first
  return { maxSteps, seed, selection }

def Settings.read (x : e.Value) : Option Settings := do
  let fields ← e.fields? ["search", "derivation"] x
  let search ← fields.getD "search" (SearchSettings.read e) {}
  let derivation ← fields.getD "derivation" (DerivationSettings.read e) {}
  return { search, derivation }

end GraphGrammar
