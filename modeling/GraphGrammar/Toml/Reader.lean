/-!
# Reading TOML text

A reader takes characters from the front of a text, or fails. Here are the pieces that all parts of the language
share: which characters may stand in text and in comments, digits, blanks, line ends, and gaps over several lines.
-/

namespace GraphGrammar.Toml

/-- Takes characters from the front of a text and gives a value, or fails. -/
abbrev Reader := StateT (List Char) Option

/-- Whether a character may stand for itself in text and in comments: a tab, or no control character. -/
def isPlain (c : Char) : Bool := c = '\t' || (' ' ≤ c && c ≠ '\x7f')

def isBlank (c : Char) : Bool := c = ' ' || c = '\t'

/-- The value of a digit in a base up to sixteen. -/
def digit? (base : Nat) (c : Char) : Option Nat :=
  let value :=
    if c.isDigit then some (c.toNat - '0'.toNat)
    else if 'a' ≤ c && c ≤ 'f' then some (c.toNat - 'a'.toNat + 10)
    else if 'A' ≤ c && c ≤ 'F' then some (c.toNat - 'A'.toNat + 10)
    else none
  value.filter (· < base)

namespace Reader

def takeWhile (p : Char → Bool) : Reader (List Char) :=
  modifyGet fun cs => (cs.takeWhile p, cs.dropWhile p)

/-- Takes the given characters if the text begins with them, and tells whether it does. -/
def accept (s : String) : Reader Bool :=
  modifyGet fun cs => if s.toList.isPrefixOf cs then (true, cs.drop s.length) else (false, cs)

/-- Takes one character if it is among the given ones, and tells whether it is. -/
def acceptAny (s : String) : Reader Bool :=
  modifyGet fun
    | c :: rest => if s.toList.contains c then (true, rest) else (false, c :: rest)
    | [] => (false, [])

/-- Takes the given characters, with which the text has to begin. -/
def expect (s : String) : Reader Unit := do
  guard (← accept s)

def atEnd : Reader Bool := return (← get).isEmpty

def lift {α : Type} (x : Option α) : Reader α := StateT.lift x

def blanks : Reader Unit := do
  let _ ← takeWhile isBlank

/-- What is left behind blanks, comments and line ends. -/
def dropGap (inComment : Bool) : List Char → List Char
  | [] => []
  | '\n' :: rest => dropGap false rest
  | '\r' :: '\n' :: rest => dropGap false rest
  | c :: rest =>
    if inComment then if isPlain c then dropGap true rest else c :: rest
    else if c = '#' then dropGap true rest
    else if isBlank c then dropGap false rest
    else c :: rest

/-- Passes over blanks, comments and line ends. -/
def gap : Reader Unit := modify (dropGap false)

/-- Passes over the rest of a line, where nothing but a comment may stand. -/
def lineEnd : Reader Unit := do
  blanks
  if ← accept "#" then
    let _ ← takeWhile isPlain
  match ← get with
  | [] => return
  | '\n' :: rest => set rest
  | '\r' :: '\n' :: rest => set rest
  | _ => failure

end Reader
end GraphGrammar.Toml
