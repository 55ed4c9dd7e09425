import GraphGrammar.Datum
import GraphGrammar.Toml.Reader

/-!
# Values without quotes

Truth values, integers, other numbers, and moments. Such a value is one word: bare characters, points, and blanks that
lead to more bare characters. A word that is no value is refused where it stands. A number is checked there for its
shape alone; one that passes and still has no value, because digits are missing, foreign to its base or too many, is a
malformed datum, which fails where it is read.
-/

namespace GraphGrammar.Toml.Scalar

/-! ## Words -/

/-- Whether a character can be part of a word. -/
def isBare (c : Char) : Bool :=
  !(['.', '=', ',', '[', ']', '\x7b', '\x7d', ' ', '\t', '#', '\r', '\n'].contains c)

/-- Whether a character can begin a run of bare characters: a quote there begins a quoted text. -/
def beginsRun (c : Char) : Bool := isBare c && c ≠ '"' && c ≠ '\''

/-- The word at the front of a text, and what follows it; `inRun` tells whether a bare character stands before. -/
def splitWord (inRun : Bool) : List Char → List Char × List Char
  | [] => ([], [])
  | c :: rest =>
    if if inRun then isBare c else beginsRun c then
      let (word, behind) := splitWord true rest
      (c :: word, behind)
    else if c = '.' || (isBlank c && (rest.dropWhile isBlank).head?.any beginsRun) then
      let (word, behind) := splitWord false rest
      (c :: word, behind)
    else ([], c :: rest)

/-! ## Numbers -/

def ofDigits (base : Nat) (ds : List Nat) : Nat := ds.foldl (fun n d => n * base + d) 0

def isAnyDigit (c : Char) : Bool := (digit? 16 c).isSome

/-- Whether each underscore is followed by a digit and has one before it; `before` tells whether one stands before all
of the characters. -/
def underscoresFit (isDigit : Char → Bool) : (before : Bool) → List Char → Bool
  | _, [] => true
  | before, c :: rest =>
    if c = '_' then before && rest.head?.any isDigit && underscoresFit isDigit false rest
    else underscoresFit isDigit (isDigit c) rest

def dropUnderscores (cs : List Char) : List Char := cs.filter (· ≠ '_')

/-- The sign at the front of a number, `some true` for a minus, and what follows it. -/
def sign : List Char → Option Bool × List Char
  | '-' :: rest => (some true, rest)
  | '+' :: rest => (some false, rest)
  | cs => (none, cs)

def signed (sign : Option Bool) (n : Nat) : Int := if sign = some true then -n else n

/-- Whether an integer fits 128 bits, with or without a sign. -/
def isWide : Int → Bool
  | .ofNat n => n.log2 < 128
  | .negSucc n => n.log2 < 127

/-- The integer that characters write in a base. -/
def integer (base : Nat) (sign : Option Bool) (cs : List Char) : Datum :=
  match (dropUnderscores cs).mapM (digit? base) with
  | none => .malformed
  | some ds =>
    let n := signed sign (ofDigits base ds)
    if ds.isEmpty || !isWide n then .malformed else .int n

/-- An integer in another base than ten, behind the letter that tells the base. -/
def based? (base : Nat) (cs : List Char) : Option Datum := do
  guard ((dropUnderscores cs).all fun c => (digit? base c).isSome)
  guard (underscoresFit isAnyDigit false cs)
  return integer base none cs

/-- An integer in base ten, behind its sign: digits without a zero before others, or digits and an underscore that
anything may follow. -/
def decimal? (sign : Option Bool) (cs : List Char) : Option Datum := do
  guard (cs.length = 1 ∨ cs.head? ≠ some '0')
  guard (underscoresFit isAnyDigit false cs)
  return integer 10 sign cs

/-- The least number that rounds to no double: halfway from the largest one to the power of two above it. -/
def doubleBound : Nat := (1 <<< 1024) - (1 <<< 970)

/-- Whether the decimal number of `n` times ten to the `e` rounds to no double. -/
def exceedsDouble (n : Nat) (e : Int) : Bool :=
  let size : Int := (Nat.toDigits 10 n).length + e
  if n = 0 || size ≤ 308 then false
  else if 310 ≤ size then true
  else
    match e with
    | .ofNat e => doubleBound ≤ n * Nat.pow 10 e
    | .negSucc e => doubleBound * Nat.pow 10 (e + 1) ≤ n

/-- The digits at the front, of which there has to be one, underscores left out, and what follows them. -/
def digits? (cs : List Char) : Option (List Nat × List Char) :=
  let isPart (c : Char) : Bool := c.isDigit || c = '_'
  match (cs.takeWhile isPart).filterMap (digit? 10) with
  | [] => none
  | ds => some (ds, cs.dropWhile isPart)

/-- The digits behind a point, if there is one, and what follows them. -/
def fraction? : List Char → Option (List Nat × List Char)
  | '.' :: rest => digits? rest
  | cs => some ([], cs)

/-- The exponent up to the end, zero when none is written. -/
def exponent? : List Char → Option Int
  | [] => some 0
  | c :: rest => do
    guard (c = 'e' ∨ c = 'E')
    let (sign, cs) := sign rest
    let (ds, behind) ← digits? cs
    guard behind.isEmpty
    return signed sign (ofDigits 10 ds)

/-- A number with a fraction, with an exponent, or with both, behind its sign. -/
def real? (cs : List Char) : Option Datum := do
  guard (underscoresFit Char.isDigit false cs)
  let (whole, rest) ← digits? cs
  guard (whole.length = 1 ∨ cs.head? ≠ some '0')
  let (fraction, rest) ← fraction? rest
  let e ← exponent? rest
  return if exceedsDouble (ofDigits 10 (whole ++ fraction)) (e - fraction.length) then .malformed else .real

/-- A number in base ten. What follows its first digits tells which kind it is. -/
def number? (cs : List Char) : Option Datum :=
  let (sign, cs) := sign cs
  if cs = ['i', 'n', 'f'] || cs = ['n', 'a', 'n'] then some .real
  else
    let rest := cs.dropWhile Char.isDigit
    if rest.contains ' ' then none
    else if rest.any fun c => c = '.' || c = 'e' || c = 'E' then real? cs
    else if !cs.isEmpty && rest.head?.all (· = '_') then decimal? sign cs
    else none

/-! ## Moments -/

/-- A number of exactly `count` decimal digits. -/
def fixed (count : Nat) : Reader Nat := do
  let cs := (← get).take count
  guard (cs.length = count ∧ cs.all Char.isDigit)
  modify (·.drop count)
  return ofDigits 10 (cs.map fun c => c.toNat - '0'.toNat)

def monthLength (year month : Nat) : Nat :=
  if month = 2 then if year % 4 = 0 ∧ (year % 100 ≠ 0 ∨ year % 400 = 0) then 29 else 28
  else if month = 4 ∨ month = 6 ∨ month = 9 ∨ month = 11 then 30
  else 31

def date : Reader Unit := do
  let year ← fixed 4
  Reader.expect "-"
  let month ← fixed 2
  Reader.expect "-"
  let day ← fixed 2
  guard (1 ≤ month ∧ month ≤ 12 ∧ 1 ≤ day ∧ day ≤ monthLength year month)

/-- A time of day; seconds may be left out, and have a fraction. -/
def time : Reader Unit := do
  let hour ← fixed 2
  Reader.expect ":"
  let minute ← fixed 2
  guard (hour ≤ 23 ∧ minute ≤ 59)
  if ← Reader.accept ":" then
    let second ← fixed 2
    guard (second ≤ 60)
    if ← Reader.accept "." then
      guard !(← Reader.takeWhile Char.isDigit).isEmpty

/-- The distance from universal time, if one is written. -/
def offset : Reader Unit := do
  if ← Reader.acceptAny "Zz" then return
  if ← Reader.acceptAny "+-" then
    let hour ← fixed 2
    Reader.expect ":"
    let minute ← fixed 2
    guard (hour ≤ 23 ∧ minute ≤ 59)

/-- A date with a time and perhaps an offset, a date, or a time. A letter or one space stands between date and time. -/
def moment : Reader Unit := do
  match (← get)[2]? with
  | some ':' => time
  | _ =>
    date
    if ← Reader.acceptAny "Tt " then
      time
      offset

/-- Whether the characters are taken by the reader to the last. -/
def isExactly (r : Reader Unit) (cs : List Char) : Bool := ((r.run cs).map (·.2)) == some []

/-! ## All of them -/

def ofWord? : List Char → Option Datum
  | ['t', 'r', 'u', 'e'] => some (.bool true)
  | ['f', 'a', 'l', 's', 'e'] => some (.bool false)
  | '0' :: 'x' :: rest => based? 16 rest
  | '0' :: 'o' :: rest => based? 8 rest
  | '0' :: 'b' :: rest => based? 2 rest
  | cs => if isExactly moment cs then some .moment else number? cs

def scalar : Reader Datum := do
  let (word, rest) := splitWord false (← get)
  set rest
  Reader.lift (ofWord? word)

end GraphGrammar.Toml.Scalar
