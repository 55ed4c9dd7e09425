import GraphGrammar.Occurrence
import GraphGrammar.Random.Sampler

/-!
# Strategies

A strategy decides whether a derivation goes on and which of the occurrences on offer is applied. It may keep a
memory of any kind and change it with every answer.

Correspondence (operation ↔ definition):
  `choose`, `should_continue`               ↔ `Strategy.choose`, `Strategy.continues`
  `FirstMatch`, `LastMatch`, `SeededRandom` ↔ `firstMatch`, `lastMatch`, `randomMatch`
-/

namespace GraphGrammar

/-- The two decisions of a derivation, made with a memory of type `σ`. -/
structure Strategy (σ : Type) where
  /-- Whether to attempt step number `step`, counted from zero, on the graph. -/
  continues : (step : Nat) → Graph → σ → Bool × σ
  /-- The position of the occurrence to apply, or nothing to stop. At least one occurrence is on offer. -/
  choose : List Occurrence → σ → Option Nat × σ

/-- What a scripted strategy remembers. -/
structure Script where
  /-- The answers still to give. -/
  choices : List (Option Nat)
  /-- How many occurrences each answered question offered. -/
  offered : Array Nat := #[]
  deriving DecidableEq, Repr

namespace Strategy

/-- Applies the first occurrence, up to `cap` times. -/
def firstMatch (cap : UInt64) : Strategy Unit where
  continues step _ _ := (step < cap.toNat, ())
  choose _ _ := (some 0, ())

def lastMatch (cap : UInt64) : Strategy Unit where
  continues step _ _ := (step < cap.toNat, ())
  choose offer _ := (if offer.length = 0 then none else some (offer.length - 1), ())

/-- Applies an occurrence that the sampler draws, up to `cap` times. It draws also when one occurrence alone is
on offer. -/
def randomMatch (sampler : Random.Sampler) (cap : UInt64) : Strategy sampler.State where
  continues step _ state := (step < cap.toNat, state)
  choose offer state :=
    if offer.length = 0 then (none, state)
    else
      let (index, state) := sampler.draw offer.length state
      (some index, state)

/-- Answers as the script says, and nothing behind its end, for up to `cap` steps, and while the graph has fewer
vertices than `vertexCap` if that is given. -/
def scripted (cap : UInt64) (vertexCap : Option UInt64) : Strategy Script where
  continues step g script :=
    (step < cap.toNat && vertexCap.all fun bound => g.vertexCount < bound.toNat, script)
  choose offer script :=
    (script.choices.head?.join, ⟨script.choices.tail, script.offered.push offer.length⟩)

end Strategy
end GraphGrammar
