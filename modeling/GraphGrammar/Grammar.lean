import GraphGrammar.Production.Definition
import GraphGrammar.Settings.Document

/-!
# Grammars

A grammar is a list of productions with the settings to derive by. Both stand in one document: the tables `search` and
`derivation` and the array of tables `production`. A document can also be read for its settings alone. The format of
documents is a parameter of both readers.

Correspondence: `from_toml_str` of `GeneratorConfig` and of `Grammar` ↔ `Settings.load` and `Grammar.load`; `GrammarDef`
↔ `GrammarDefinition`.
-/

namespace GraphGrammar

structure Grammar where
  settings : Settings
  productions : List Production
  deriving DecidableEq

/-- The settings of a document, refused when no search can find anything under them. -/
def Settings.load (format : Format) (text : String) : Except Error Settings :=
  match format.parse? text >>= Settings.read format.toEncoding with
  | none => .error (.settings .unreadable)
  | some settings => settings.validate.map fun _ => settings

structure GrammarDefinition where
  search : SearchSettings := {}
  derivation : DerivationSettings := {}
  productions : List ProductionDefinition := []
  deriving DecidableEq, Repr

def GrammarDefinition.read (e : Encoding) (x : e.Value) : Option GrammarDefinition := do
  let fields ← e.fields? ["search", "derivation", "production"] x
  let search ← fields.getD "search" (SearchSettings.read e) {}
  let derivation ← fields.getD "derivation" (DerivationSettings.read e) {}
  let productions ← fields.getD "production" (e.list? (ProductionDefinition.read e)) []
  return { search, derivation, productions }

namespace Grammar

/-- The grammar that is defined: settings are judged before any production, and productions in turn. -/
def ofDefinition (d : GrammarDefinition) : Except Error Grammar := do
  let settings : Settings := { search := d.search, derivation := d.derivation }
  settings.validate
  let productions ← d.productions.mapM fun p => p.production.mapError .malformedProduction
  return { settings, productions }

def load (format : Format) (text : String) : Except Error Grammar :=
  match format.parse? text >>= GrammarDefinition.read format.toEncoding with
  | none => .error (.settings .unreadable)
  | some d => ofDefinition d

end Grammar
end GraphGrammar
