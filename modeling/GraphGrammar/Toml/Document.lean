import GraphGrammar.Toml.Scalar
import GraphGrammar.Toml.Table
import GraphGrammar.Toml.Text

/-!
# TOML documents

`Toml.parse?` reads a document of TOML 1.1, which is one table, or gives nothing for a text that is none. Lists
and tables written as values may be nested `maxNesting` deep, and a dotted key may have as many parts.

`Format.toml` is the format that runs. The laws of documents do not rest on it: the loaders take any format
(`GraphGrammar.Format`).
-/

namespace GraphGrammar.Toml

/-- How deep lists and tables written as values may be nested, and how many parts a dotted key may have. -/
def maxNesting : Nat := 80

/-! ## Keys -/

def isKeyChar (c : Char) : Bool := c.isAlphanum || c = '_' || c = '-'

/-- One part of a key, bare or quoted. -/
def key : Reader String := do
  match ← Text.oneLine? with
  | some text => return text
  | none =>
    let cs ← Reader.takeWhile isKeyChar
    guard !cs.isEmpty
    return String.ofList cs

/-- The parts of a dotted key, at most `count` of them. -/
def keysWithin : (count : Nat) → Reader (List String)
  | 0 => failure
  | count + 1 => do
    Reader.blanks
    let part ← key
    Reader.blanks
    if ← Reader.accept "." then return part :: (← keysWithin count) else return [part]

def keys : Reader (List String) := keysWithin maxNesting

/-! ## Values -/

/-- The items of a list up to its closing bracket, at most `count` of them. -/
def itemsWithin (item : Reader Datum) : (count : Nat) → Reader (List Datum)
  | 0 => failure
  | count + 1 => do
    Reader.gap
    if ← Reader.accept "]" then return []
    let x ← item
    Reader.gap
    if ← Reader.accept "," then return x :: (← itemsWithin item count)
    Reader.expect "]"
    return [x]

/-- A key with its value, and what may stand on both sides of the sign between them. -/
def assignment (space : Reader Unit) (item : Reader Datum) : Reader (List String × Datum) := do
  let path ← keys
  space
  Reader.expect "="
  space
  return (path, ← item)

/-- The keys and values of a table up to its closing brace, at most `count` of them. Lines may end between any two
parts of it, but not within a key. -/
def assignmentsWithin (item : Reader Datum) : (count : Nat) → Reader (List (List String × Datum))
  | 0 => failure
  | count + 1 => do
    Reader.gap
    if ← Reader.accept "\x7d" then return []
    let x ← assignment Reader.gap item
    Reader.gap
    if ← Reader.accept "," then return x :: (← assignmentsWithin item count)
    Reader.expect "\x7d"
    return [x]

/-- A value, in which values are nested at most `depth` deep. -/
def value (depth : Nat) : Reader Datum := do
  match depth, ← get with
  | 0, '[' :: _ => failure
  | 0, '\x7b' :: _ => failure
  | depth + 1, '[' :: rest =>
    set rest
    return .list (← itemsWithin (value depth) rest.length)
  | depth + 1, '\x7b' :: rest =>
    set rest
    let assignments ← assignmentsWithin (value depth) rest.length
    let entries ← Reader.lift (assignments.foldlM (fun entries (path, x) => Entries.assign x path entries) [])
    return .record (fieldsOf entries)
  | _, _ =>
    match ← Text.quoted? with
    | some text => return .text text
    | none => Scalar.scalar

/-! ## Statements -/

/-- One statement, with the end of its line. -/
def statement : Reader Statement := do
  match ← get with
  | '[' :: '[' :: rest =>
    set rest
    let path ← keys
    Reader.expect "]]"
    Reader.lineEnd
    return .element path
  | '[' :: rest =>
    set rest
    let path ← keys
    Reader.expect "]"
    Reader.lineEnd
    return .table path
  | _ =>
    let (path, x) ← assignment Reader.blanks (value maxNesting)
    Reader.lineEnd
    return .assign path x

/-- The statements up to the end of the text, fewer than `count` of them. -/
def statementsWithin : (count : Nat) → Reader (List Statement)
  | 0 => failure
  | count + 1 => do
    Reader.gap
    if ← Reader.atEnd then return []
    let s ← statement
    return s :: (← statementsWithin count)

def dropMark : List Char → List Char
  | '\uFEFF' :: rest => rest
  | cs => cs

def statements? (text : String) : Option (List Statement) :=
  let cs := dropMark text.toList
  (statementsWithin (cs.length + 1)).run' cs

/-- The table that a document writes. -/
def parse? (text : String) : Option Datum := do
  let draft ← (← statements? text).foldlM Draft.perform {}
  return .record (fieldsOf draft.entries)

end GraphGrammar.Toml

namespace GraphGrammar

def Format.toml : Format := { Dialect.toml.encoding with parse? := Toml.parse? }

end GraphGrammar
