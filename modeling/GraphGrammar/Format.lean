/-!
# Document formats

What the readers of documents take from a format: a parser, which gives the value that a text writes, and readers of
typed values. Settings and grammars are read by these alone, so what is proved of documents is proved of every format.
The one assumption that a result names is `Format.ParsesTable`. The formats that run are `Format.toml` and the
encoding `Encoding.json`.

A structure is read by its fields. Fields that are not given are left to the reader of the structure.
-/

namespace GraphGrammar

abbrev Fields (Value : Type) := String → Option Value

namespace Fields

/-- The field of a name as `read` reads it, or the default when it is not given. -/
def getD {Value α : Type} (fields : Fields Value) (name : String) (read : Value → Option α) (default : α) : Option α :=
  match fields name with
  | none => some default
  | some x => read x

/-- The field of a name as `read` reads it; it has to be given. -/
def get {Value α : Type} (fields : Fields Value) (name : String) (read : Value → Option α) : Option α :=
  fields name >>= read

end Fields

/-- How the values of a document hold typed values. Each reader gives nothing for a value that does not fit. -/
structure Encoding where
  Value : Type
  bool? : Value → Option Bool
  text? : Value → Option String
  /-- A 64-bit word. -/
  word? : Value → Option UInt64
  /-- The word by which a value names one of several cases. -/
  case? : Value → Option String
  /-- Null, or what `read` reads. -/
  optional? : {α : Type} → (read : Value → Option α) → Value → Option (Option α)
  /-- A list of what `read` reads. -/
  list? : {α : Type} → (read : Value → Option α) → Value → Option (List α)
  /-- A list of two of what `read` reads. -/
  pair? : {α : Type} → (read : Value → Option α) → Value → Option (α × α)
  /-- The fields that a value gives for a structure with the named ones. -/
  fields? : (names : List String) → Value → Option (Fields Value)

/-- An encoding, and how the values of a document are parsed from its text. -/
structure Format extends Encoding where
  parse? : String → Option Value

/-- A table has a value under each of some keys. Whatever fields a structure has, a table gives for each of them what
is under its name; the other keys are ignored. -/
def Encoding.IsTable (e : Encoding) (x : e.Value) : Prop :=
  ∃ entries : Fields e.Value, ∀ names, ∃ fields, e.fields? names x = some fields ∧
    ∀ name ∈ names, fields name = entries name

/-- The text is one table, if it can be parsed. -/
def Format.ParsesTable (format : Format) (text : String) : Prop :=
  ∀ x, format.parse? text = some x → format.IsTable x

end GraphGrammar
