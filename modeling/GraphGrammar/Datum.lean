import GraphGrammar.Format

/-!
# Data of documents

A datum is what a document holds before anything is known of the type that is wanted: the shape that several
document formats have in common. Typed values are read from data by the functions below, which say no more than
whether a datum fits. Formats differ in two points, which a `Dialect` states. With one of them the functions make up an
`Encoding`.

A structure is given by a record or by a list of its fields in order. Fields of a record that the structure does
not have are passed over, as long as no number among them is malformed.
-/

namespace GraphGrammar

inductive Datum where
  | null
  | bool (b : Bool)
  | int (n : Int)
  /-- A number that is not written as an integer. -/
  | real
  /-- A number that its format cannot give a value: nothing can be read from it, and no field can hold it. -/
  | malformed
  | text (s : String)
  /-- A date, a time, or both. -/
  | moment
  | list (items : List Datum)
  | record (fields : List (String × Datum))
  deriving Inhabited

/-- In what formats differ when typed values are read. -/
structure Dialect where
  /-- Whether items of a list behind the last one that is wanted are passed over. -/
  skipsSurplus : Bool
  /-- Whether a datum stands for no content at all. -/
  isUnit : Datum → Bool

/-- TOML passes over surplus items and has no null: an empty list or an empty table is no content. -/
def Dialect.toml : Dialect where
  skipsSurplus := true
  isUnit
    | .list [] => true
    | .record [] => true
    | _ => false

/-- JSON takes lists of the wanted length alone, and null is no content. -/
def Dialect.json : Dialect where
  skipsSurplus := false
  isUnit
    | .null => true
    | _ => false

namespace Datum

mutual

/-- Whether a datum can be the value of a field that is passed over: no number in it is malformed. -/
def isReadable : Datum → Bool
  | .malformed => false
  | .list items => areReadable items
  | .record fields => areReadableFields fields
  | _ => true

def areReadable : List Datum → Bool
  | [] => true
  | x :: rest => x.isReadable && areReadable rest

def areReadableFields : List (String × Datum) → Bool
  | [] => true
  | (_, x) :: rest => x.isReadable && areReadableFields rest

end

def bool? : Datum → Option Bool
  | .bool b => some b
  | _ => none

def text? : Datum → Option String
  | .text s => some s
  | _ => none

/-- A 64-bit word, from an integer in its range. -/
def word? : Datum → Option UInt64
  | .int (.ofNat n) => if n < UInt64.size then some (.ofNat n) else none
  | _ => none

def optional? {α : Type} (read : Datum → Option α) : Datum → Option (Option α)
  | .null => some none
  | x => (read x).map some

def list? {α : Type} (read : Datum → Option α) : Datum → Option (List α)
  | .list items => items.mapM read
  | _ => none

/-- A list of two of what `read` reads. -/
def pair? {α : Type} (dialect : Dialect) (read : Datum → Option α) : Datum → Option (α × α)
  | .list (x :: y :: rest) =>
    if rest.isEmpty || dialect.skipsSurplus then do return (← read x, ← read y) else none
  | _ => none

/-- The word of a case: a text, or the name of the one field of a record that has no content there. -/
def case? (dialect : Dialect) : Datum → Option String
  | .text word => some word
  | .record [(word, content)] => if dialect.isUnit content then some word else none
  | _ => none

/-- The fields that a datum gives for a structure with the named ones. A moment gives none of them. -/
def fields? (dialect : Dialect) (names : List String) : Datum → Option (Fields Datum)
  | .record given =>
    if given.all fun (name, x) => names.contains name || x.isReadable then some fun name => given.lookup name
    else none
  | .list items =>
    if items.length ≤ names.length || dialect.skipsSurplus then some fun name => (names.zip items).lookup name
    else none
  | .moment => some fun _ => none
  | _ => none

end Datum

/-- Typed values as data hold them. -/
def Dialect.encoding (dialect : Dialect) : Encoding where
  Value := Datum
  bool? := Datum.bool?
  text? := Datum.text?
  word? := Datum.word?
  case? := Datum.case? dialect
  optional? := Datum.optional?
  list? := Datum.list?
  pair? := Datum.pair? dialect
  fields? := Datum.fields? dialect

def Encoding.json : Encoding := Dialect.json.encoding

end GraphGrammar
