/-!
# The keystream

A deterministic source of random words: the ChaCha stream with twelve rounds, read as 64-bit words, low half
first. A block of sixteen 32-bit words depends on the key and the number of the block alone, so a generator is
its key and the number of words already taken.
-/

namespace GraphGrammar.Random

abbrev Block := Vector UInt32 16

abbrev Key := Vector UInt32 8

def rotateLeft (x : UInt32) (n : UInt32) : UInt32 := (x <<< n) ||| (x >>> (32 - n))

def rotateRight (x : UInt32) (n : UInt32) : UInt32 := (x >>> n) ||| (x <<< (32 - n))

namespace Block

/-- Mixes four words of a block: additions, exclusive ors, and turns by 16, 12, 8 and 7 bits. -/
def quarterRound (a b c d : Fin 16) (s : Block) : Block :=
  let s := s.set a (s[a] + s[b])
  let s := s.set d (rotateLeft (s[d] ^^^ s[a]) 16)
  let s := s.set c (s[c] + s[d])
  let s := s.set b (rotateLeft (s[b] ^^^ s[c]) 12)
  let s := s.set a (s[a] + s[b])
  let s := s.set d (rotateLeft (s[d] ^^^ s[a]) 8)
  let s := s.set c (s[c] + s[d])
  s.set b (rotateLeft (s[b] ^^^ s[c]) 7)

/-- Mixes the four columns and then the four diagonals. -/
def doubleRound (s : Block) : Block :=
  s |> quarterRound 0 4 8 12 |> quarterRound 1 5 9 13 |> quarterRound 2 6 10 14 |> quarterRound 3 7 11 15
    |> quarterRound 0 5 10 15 |> quarterRound 1 6 11 12 |> quarterRound 2 7 8 13 |> quarterRound 3 4 9 14

/-- The block before it is mixed: four constant words, the key, the number of the block, and two zero words. -/
def start (key : Key) (number : UInt64) : Block :=
  (#v[0x61707865, 0x3320646e, 0x79622d32, 0x6b206574] : Vector UInt32 4) ++ key ++
    (#v[number.toUInt32, (number >>> 32).toUInt32, 0, 0] : Vector UInt32 4)

/-- A block of the stream: the start of it, mixed by twelve rounds and added to itself. -/
def ofNumber (key : Key) (number : UInt64) : Block :=
  let s := start key number
  Vector.zipWith (· + ·) (Nat.repeat doubleRound 6 s) s

end Block

/-- A generator of random words: its key, and how many words it has given. -/
structure Generator where
  key : Key
  position : Nat := 0
  deriving DecidableEq

namespace Generator

def next (g : Generator) : UInt64 × Generator :=
  let block := Block.ofNumber g.key (.ofNat (g.position / 8))
  let low := block.getD (2 * (g.position % 8)) 0
  let high := block.getD (2 * (g.position % 8) + 1) 0
  (low.toUInt64 ||| (high.toUInt64 <<< 32), { g with position := g.position + 1 })

/-- One step of the congruential sequence that spreads a seed. -/
def advanceSeed (state : UInt64) : UInt64 := state * 6364136223846793005 + 11634580027462260723

/-- The word that a state of the sequence gives: its upper bits, turned by its five uppermost. -/
def seedWord (state : UInt64) : UInt32 :=
  rotateRight ((((state >>> 18) ^^^ state) >>> 27).toUInt32) (state >>> 59).toUInt32

/-- The first `count` words that a seed spreads to. -/
def seedWords : (count : Nat) → (state : UInt64) → List UInt32
  | 0, _ => []
  | count + 1, state => seedWord (advanceSeed state) :: seedWords count (advanceSeed state)

def ofSeed (seed : UInt64) : Generator where
  key := Vector.ofFn fun i => (seedWords 8 seed).getD i 0

end Generator
end GraphGrammar.Random
