/-!
# Samplers

A sampler draws numbers at random from a state that every draw changes. Derivations take the sampler that they use, so
nothing that is proved of them rests on how numbers are drawn. The one assumption that some results name is
`Sampler.StaysBelow`. The sampler that runs is `Sampler.keystream`.
-/

namespace GraphGrammar.Random

/-- A source of random numbers, started from a seed. -/
structure Sampler where
  State : Type
  ofSeed : UInt64 → State
  /-- Draws a number below `n`, where `n` is not zero. -/
  draw : (n : Nat) → State → Nat × State

/-- Every number that is drawn below `n` is below `n`. -/
def Sampler.StaysBelow (sampler : Sampler) : Prop := ∀ n state, 0 < n → (sampler.draw n state).1 < n

end GraphGrammar.Random
