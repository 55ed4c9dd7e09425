import GraphGrammar.Random.Keystream
import GraphGrammar.Random.Sampler

/-!
# Uniform draws

A number below `n` is the upper half of the product of a random word with `n`. Words whose product has its lower
half beyond the largest multiple of `n` by a power of two that fits a word are passed over, so that every number
is as likely as the others. More than half of all words are good; a draw gives nothing only when no word of the whole
stream is.

`Sampler.keystream` is the sampler that runs. The laws of derivations do not rest on it: they take any sampler
(`GraphGrammar.Random.Sampler`).
-/

namespace GraphGrammar.Random

namespace Generator

/-- How many words a stream has before it repeats: eight in each block. -/
def period : Nat := 8 * UInt64.size

/-- The largest lower half of a product that is accepted for a draw below `n`: `n` shifted up until its highest
bit is that of a word, less one. -/
def zone (n : Nat) : Nat := (n <<< (63 - n.log2)) - 1

/-- Draws a number below `n` from the first of the next `attempts` words that is good, if one is. -/
def drawWithin (n : Nat) : (attempts : Nat) → Generator → Option (Nat × Generator)
  | 0, _ => none
  | attempts + 1, g =>
    let (word, g) := g.next
    let product := word.toNat * n
    if product % UInt64.size ≤ zone n then some (product / UInt64.size, g) else drawWithin n attempts g

/-- Draws a number below `n`, where `n` is not zero and fits a word. Nothing when no word is good, which is when a
draw without a bound on its attempts never ends. -/
def draw (n : Nat) (g : Generator) : Option (Nat × Generator) := drawWithin n period g

end Generator

/-- The sampler that reads the keystream. -/
def Sampler.keystream : Sampler where
  State := Generator
  ofSeed := .ofSeed
  -- A draw that never ends answers zero here, since a sampler always answers.
  draw n g := (g.draw n).getD (0, g)

end GraphGrammar.Random
