import GraphGrammar.Application
import GraphGrammar.Derivation.Strategy

/-!
# Derivations

A derivation applies productions to a graph again and again, as a strategy decides. One round asks whether to go
on, finds the occurrences, asks which to apply, and applies it. Nothing bounds the number of rounds but the
strategy, so `Derivation.run` takes the number of rounds to carry out; a run that is still going then ends as
`Ending.unfinished`. A strategy with a cap is asked once more than it continues, so `cap + 1` rounds finish it.

Correspondence (operation ↔ definition):
  `run`                  ↔ `Derivation.run`, of which `Derivation.round` is one pass
  `strategy_from_config` ↔ the cases of `Derivation.runSelected`
  `apply_productions`    ↔ `Derivation.applyProductions`
-/

namespace GraphGrammar

/-- Why a derivation stopped. -/
inductive StopReason where
  /-- The strategy did not want another step. -/
  | halted
  /-- No production occurs in the graph. -/
  | exhausted
  /-- The strategy chose none of the occurrences. -/
  | declined
  deriving DecidableEq, Repr

/-- One application within a derivation. -/
structure AppliedStep where
  /-- The position of the production in the list. -/
  index : Nat
  name : Option String
  summary : Summary
  deriving DecidableEq

/-- What a derivation did that stopped without an error. -/
structure Report where
  steps : List AppliedStep
  stop : StopReason
  deriving DecidableEq

namespace Derivation

/-- A derivation under way, with the memory of its strategy. -/
structure State (σ : Type) where
  graph : Graph
  memory : σ
  /-- The applications so far. -/
  steps : Array AppliedStep := #[]

inductive Ending where
  | stopped (reason : StopReason)
  | failed (error : Error)
  /-- The last application never ends: it searches for an identifier and there is none. -/
  | endless
  /-- All rounds are used up. -/
  | unfinished
  deriving DecidableEq

/-- The state after a round, and how the run ends if this was its last. -/
abbrev Round (σ : Type) := State σ × Option Ending

def State.step {σ : Type} (s : State σ) (o : Occurrence) : Round σ :=
  match o.production.apply o.mapping s.graph with
  | none => (s, some .endless)
  | some (graph, .error e) => ({ s with graph := graph }, some (.failed e))
  | some (graph, .ok summary) =>
    ({ s with graph := graph, steps := s.steps.push ⟨o.index, o.production.name, summary⟩ }, none)

def round {σ : Type} (settings : SearchSettings) (ps : List Production) (strategy : Strategy σ) (s : State σ) :
    Round σ :=
  match strategy.continues s.steps.size s.graph s.memory with
  | (false, memory) => ({ s with memory := memory }, some (.stopped .halted))
  | (true, memory) =>
    match settings.occurrences s.graph ps with
    | .error e => ({ s with memory := memory }, some (.failed e))
    | .ok [] => ({ s with memory := memory }, some (.stopped .exhausted))
    | .ok offer =>
      let (choice, memory) := strategy.choose offer memory
      match choice.bind (offer[·]?) with
      | none => ({ s with memory := memory }, some (.stopped .declined))
      | some occurrence => { s with memory := memory }.step occurrence

/-- Carries out up to `rounds` rounds. -/
def run {σ : Type} (settings : SearchSettings) (ps : List Production) (strategy : Strategy σ) :
    (rounds : Nat) → State σ → State σ × Ending
  | 0, s => (s, .unfinished)
  | rounds + 1, s =>
    match round settings ps strategy s with
    | (s, some ending) => (s, ending)
    | (s, none) => run settings ps strategy rounds s

/-- What is left of a run once the strategy is forgotten: the graph, the applications, the ending. -/
structure Outcome where
  graph : Graph
  steps : List AppliedStep
  ending : Ending
  deriving DecidableEq

def Outcome.report? (o : Outcome) : Option Report :=
  match o.ending with
  | .stopped reason => some ⟨o.steps, reason⟩
  | _ => none

/-- Runs a strategy that continues for no more than `cap` steps, from its memory and a graph. -/
def runCapped {σ : Type} (settings : SearchSettings) (ps : List Production) (cap : UInt64) (strategy : Strategy σ)
    (memory : σ) (g : Graph) : Outcome × σ :=
  let (s, ending) := run settings ps strategy (cap.toNat + 1) { graph := g, memory := memory }
  (⟨s.graph, s.steps.toList, ending⟩, s.memory)

def runSelected (sampler : Random.Sampler) (search : SearchSettings) (d : DerivationSettings) (ps : List Production)
    (g : Graph) : Outcome :=
  match d.selection with
  | .first => (runCapped search ps d.maxSteps (.firstMatch d.maxSteps) () g).1
  | .last => (runCapped search ps d.maxSteps (.lastMatch d.maxSteps) () g).1
  | .random => (runCapped search ps d.maxSteps (.randomMatch sampler d.maxSteps) (sampler.ofSeed d.seed) g).1

/-- Applies productions to a graph as the settings say. Settings that are refused leave it as it is. -/
def applyProductions (sampler : Random.Sampler) (settings : Settings) (ps : List Production) (g : Graph) : Outcome :=
  match settings.fault? with
  | some fault => ⟨g, [], .failed (.settings fault)⟩
  | none => runSelected sampler settings.search settings.derivation ps g

end Derivation
end GraphGrammar
