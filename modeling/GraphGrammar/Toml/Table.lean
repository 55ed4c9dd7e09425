import GraphGrammar.Datum

/-!
# Tables

The statements of a document build one table, in which each key has one value and each table is opened once. A
table can be opened by its own header, be implied by the header of a table inside it, or come from dotted keys;
an array of tables grows by one element with each of its headers. Tables and lists written as values are closed:
no statement reaches into them.
-/

namespace GraphGrammar.Toml

/-- How a table came to be. -/
inductive Origin where
  /-- By its own header. -/
  | opened
  /-- By the header of a table inside it. -/
  | implied
  /-- By a dotted key, or by a header first and then by a dotted key. -/
  | dotted
  deriving DecidableEq, Repr

/-- What a key of a table under construction stands for. -/
inductive Node where
  /-- A value, closed. -/
  | value (x : Datum)
  | table (origin : Origin) (entries : List (String × Node))
  /-- An array of tables, the latest first. -/
  | elements (latest : List (String × Node)) (before : List (List (String × Node)))

/-- The keys of a table with what they stand for. -/
abbrev Entries := List (String × Node)

namespace Entries

def replace (entries : Entries) (key : String) (node : Node) : Entries :=
  entries.map fun entry => if entry.1 = key then (key, node) else entry

def add (entries : Entries) (key : String) (node : Node) : Entries := entries ++ [(key, node)]

/-- Changes the table at the end of a path of headers. Tables on the path that are not there are implied; an array
of tables stands for its latest element. -/
def within (change : Entries → Option Entries) : (path : List String) → Entries → Option Entries
  | [], entries => change entries
  | key :: path, entries =>
    match entries.lookup key with
    | none => (within change path []).map fun inner => entries.add key (.table .implied inner)
    | some (.table origin inner) =>
      (within change path inner).map fun inner => entries.replace key (.table origin inner)
    | some (.elements latest before) =>
      (within change path latest).map fun latest => entries.replace key (.elements latest before)
    | some (.value _) => none

/-- Opens the table of a key, which may be there only by implication. -/
def openTable (key : String) (entries : Entries) : Option Entries :=
  match entries.lookup key with
  | none => some (entries.add key (.table .opened []))
  | some (.table .implied inner) => some (entries.replace key (.table .opened inner))
  | _ => none

/-- Adds an element to the array of tables of a key. -/
def openElement (key : String) (entries : Entries) : Option Entries :=
  match entries.lookup key with
  | none => some (entries.add key (.elements [] []))
  | some (.elements latest before) => some (entries.replace key (.elements [] (latest :: before)))
  | _ => none

/-- Gives a value to a dotted key. A table on the way that is not there comes from dotted keys, and so from now on does
one that a header implied; one that its own header opened is closed to dotted keys. The latest element of an array of
tables can be on the way, but not at its end. -/
def assign (x : Datum) : (path : List String) → Entries → Option Entries
  | [], _ => none
  | [key], entries =>
    match entries.lookup key with
    | none => some (entries.add key (.value x))
    | some _ => none
  | key :: path, entries =>
    match entries.lookup key with
    | none => (assign x path []).map fun inner => entries.add key (.table .dotted inner)
    | some (.value _) => none
    | some (.table .opened _) => none
    | some (.table _ inner) => (assign x path inner).map fun inner => entries.replace key (.table .dotted inner)
    | some (.elements latest before) =>
      if path.length = 1 then none
      else (assign x path latest).map fun latest => entries.replace key (.elements latest before)

end Entries

mutual

def Node.datum : Node → Datum
  | .value x => x
  | .table _ entries => .record (fieldsOf entries)
  | .elements latest before => .list ((recordsOf before).reverse ++ [.record (fieldsOf latest)])

def fieldsOf : List (String × Node) → List (String × Datum)
  | [] => []
  | (key, node) :: rest => (key, node.datum) :: fieldsOf rest

def recordsOf : List (List (String × Node)) → List Datum
  | [] => []
  | entries :: rest => .record (fieldsOf entries) :: recordsOf rest

end

/-- One statement of a document. -/
inductive Statement where
  /-- Opens a table. -/
  | table (path : List String)
  /-- Adds an element to an array of tables. -/
  | element (path : List String)
  /-- Gives a value to a key of the table opened last. -/
  | assign (path : List String) (x : Datum)

/-- A table under construction: its entries, and the path of the table opened last. -/
structure Draft where
  entries : Entries := []
  path : List String := []

namespace Draft

def perform (d : Draft) : Statement → Option Draft
  | .table path => do
    let key ← path.getLast?
    return ⟨← d.entries.within (Entries.openTable key) path.dropLast, path⟩
  | .element path => do
    let key ← path.getLast?
    return ⟨← d.entries.within (Entries.openElement key) path.dropLast, path⟩
  | .assign path x => do
    return { d with entries := ← d.entries.within (Entries.assign x path) d.path }

end Draft
end GraphGrammar.Toml
