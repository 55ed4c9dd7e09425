import GraphGrammar.Grammar
import GraphGrammar.Toml.Document
import GraphGrammar.Proofs.Failures

/-!
# Documents read for settings and for grammars

One document can be read for its settings alone or for a grammar. Both readers take the same two tables for the settings
and judge them in the same way; the grammar takes the productions besides and judges them last, one after another.

The readers are declared apart, so that they take the same tables is a result: `definitionOf?_eq`. `load_agree` says
what it means for the documents of any format.

The parser is not part of this library. Of it one thing is assumed, of each document that is read: what is parsed is one
table, and a structure gets the fields that the table has under its names, whatever other keys there are
(`Format.ParsesTable`). The format that runs has this for every document in which each number has a value
(`Format.toml_parsesTable`).
-/

namespace GraphGrammar

/-! ## Fields -/

theorem Fields.getD_congr {Value α : Type} {fields fields' : Fields Value} {name : String}
    (h : fields name = fields' name) (read : Value → Option α) (default : α) :
    fields.getD name read default = fields'.getD name read default := by
  rw [getD, h, ← getD]

section

variable {e : Encoding} {x : e.Value}

/-- The production entries, from the field `production`. -/
def ProductionDefinition.readEntries (e : Encoding) (x : e.Value) : Option (List ProductionDefinition) := do
  let fields ← e.fields? ["production"] x
  fields.getD "production" (e.list? (ProductionDefinition.read e)) []

def GrammarDefinition.settings (d : GrammarDefinition) : Settings := { search := d.search, derivation := d.derivation }

/-- From a table, a grammar takes what settings take, and the production entries. -/
theorem GrammarDefinition.read_of_isTable (h : e.IsTable x) : GrammarDefinition.read e x =
    (Settings.read e x).bind fun s =>
      (ProductionDefinition.readEntries e x).map fun ds => ⟨s.search, s.derivation, ds⟩ := by
  obtain ⟨entries, h⟩ := h
  obtain ⟨forSettings, hforSettings, inSettings⟩ := h ["search", "derivation"]
  obtain ⟨forEntries, hforEntries, inEntries⟩ := h ["production"]
  obtain ⟨forGrammar, hforGrammar, inGrammar⟩ := h ["search", "derivation", "production"]
  have search : forGrammar "search" = forSettings "search" := by
    rw [inGrammar _ (by simp), inSettings _ (by simp)]
  have derivation : forGrammar "derivation" = forSettings "derivation" := by
    rw [inGrammar _ (by simp), inSettings _ (by simp)]
  have productions : forGrammar "production" = forEntries "production" := by
    rw [inGrammar _ (by simp), inEntries _ (by simp)]
  rw [GrammarDefinition.read, Settings.read, ProductionDefinition.readEntries, hforSettings, hforEntries, hforGrammar]
  simp only [Option.bind_eq_bind, Option.bind_some, Fields.getD_congr search, Fields.getD_congr derivation,
    Fields.getD_congr productions, Option.bind_assoc, Option.pure_def, Option.map_eq_bind, Function.comp_def]

end

/-! ## Documents -/

variable {format : Format} {text : String} {s : Settings} {d : GrammarDefinition} {ds : List ProductionDefinition}
  {g : Grammar} {e : Error}

/-- The settings of a document, before they are judged. -/
def settingsOf? (format : Format) (text : String) : Option Settings :=
  format.parse? text >>= Settings.read format.toEncoding

/-- The grammar of a document, before anything in it is judged. -/
def definitionOf? (format : Format) (text : String) : Option GrammarDefinition :=
  format.parse? text >>= GrammarDefinition.read format.toEncoding

/-- The production entries of a document, before they are judged. -/
def productionsOf? (format : Format) (text : String) : Option (List ProductionDefinition) :=
  format.parse? text >>= ProductionDefinition.readEntries format.toEncoding

/-- The grammar of a document is its settings and its production entries. -/
theorem definitionOf?_eq (table : format.ParsesTable text) : definitionOf? format text =
    (settingsOf? format text).bind fun s =>
      (productionsOf? format text).map fun ds => ⟨s.search, s.derivation, ds⟩ := by
  rw [definitionOf?, settingsOf?, productionsOf?]
  cases h : format.parse? text with
  | none => rfl
  | some x => exact GrammarDefinition.read_of_isTable (table x h)

theorem definitionOf?_eq_some (table : format.ParsesTable text) : definitionOf? format text = some d ↔
    settingsOf? format text = some d.settings ∧ productionsOf? format text = some d.productions := by
  obtain ⟨search, derivation, productions⟩ := d
  rw [definitionOf?_eq table, GrammarDefinition.settings]
  simp only [Option.bind_eq_some_iff, Option.map_eq_some_iff, GrammarDefinition.mk.injEq]
  constructor
  · intro h
    obtain ⟨⟨_, _⟩, hs, ds, hds, rfl, rfl, rfl⟩ := h
    exact ⟨hs, hds⟩
  · intro h
    exact ⟨_, h.1, _, h.2, rfl, rfl, rfl⟩

/-! ## Judging what is read -/

theorem Settings.load_eq (format : Format) (text : String) : Settings.load format text =
    match settingsOf? format text with
    | none => .error (.settings .unreadable)
    | some s => s.validate.map fun _ => s := rfl

theorem Settings.load_eq_ok :
    Settings.load format text = .ok s ↔ settingsOf? format text = some s ∧ s.validate = .ok () := by
  rw [load_eq]
  cases settingsOf? format text with
  | none => simp
  | some r =>
    cases hr : r.validate with
    | error e => simp [Except.map, hr]; grind
    | ok u => simp [Except.map]; grind

theorem Settings.load_eq_error : Settings.load format text = .error e ↔
    (settingsOf? format text = none ∧ e = .settings .unreadable) ∨
      ∃ s, settingsOf? format text = some s ∧ s.validate = .error e := by
  rw [load_eq]
  cases settingsOf? format text with
  | none => simp [eq_comm]
  | some r => cases hr : r.validate <;> simp [Except.map, hr]

namespace Grammar

theorem load_eq (format : Format) (text : String) : load format text =
    match definitionOf? format text with
    | none => .error (.settings .unreadable)
    | some d => ofDefinition d := rfl

theorem load_of_definition (h : definitionOf? format text = some d) : load format text = ofDefinition d := by
  rw [load_eq, h]

theorem exists_definition (h : load format text = .ok g) :
    ∃ d, definitionOf? format text = some d ∧ ofDefinition d = .ok g := by
  rw [load_eq] at h
  split at h
  · cases h
  · next d hd => exact ⟨d, hd, h⟩

theorem ofDefinition_eq : ofDefinition d = d.settings.validate >>= fun _ =>
    d.productions.mapM (fun p => p.production.mapError .malformedProduction) >>= fun ps => .ok ⟨d.settings, ps⟩ := rfl

theorem ofDefinition_of_refused (h : d.settings.validate = .error e) : ofDefinition d = .error e := by
  rw [ofDefinition_eq, h]
  rfl

theorem ofDefinition_of_accepted (h : d.settings.validate = .ok ()) : ofDefinition d =
    d.productions.mapM (fun p => p.production.mapError .malformedProduction) >>= fun ps => .ok ⟨d.settings, ps⟩ := by
  rw [ofDefinition_eq, h]
  rfl

theorem settings_of_ofDefinition (h : ofDefinition d = .ok g) :
    d.settings.validate = .ok () ∧ g.settings = d.settings := by
  obtain ⟨u, hu, hps⟩ := bind_eq_ok.mp (ofDefinition_eq ▸ h)
  obtain ⟨ps, -, hg⟩ := bind_eq_ok.mp hps
  cases hg
  exact ⟨hu, rfl⟩

theorem judged_eq_ok {x : Except ProductionFault Production} {q : Production} :
    x.mapError Error.malformedProduction = .ok q ↔ x = .ok q := by
  cases x <;> simp [Except.mapError]

theorem ofDefinition_eq_ok (h : d.settings.validate = .ok ()) : ofDefinition d = .ok g ↔
    g.settings = d.settings ∧ List.Forall₂ (fun p q => p.production = .ok q) d.productions g.productions := by
  obtain ⟨settings, productions⟩ := g
  rw [ofDefinition_of_accepted h, bind_eq_ok]
  simp only [Except.ok.injEq, Grammar.mk.injEq, mapM_eq_ok, judged_eq_ok]
  grind

theorem ofDefinition_of_rejected (h : d.settings.validate = .ok ()) {before after : List ProductionDefinition}
    {p : ProductionDefinition} {fault : ProductionFault} (split : d.productions = before ++ p :: after)
    (accepted : ∀ q ∈ before, ∃ r, q.production = .ok r) (rejected : p.production = .error fault) :
    ofDefinition d = .error (.malformedProduction fault) := by
  obtain ⟨rs, hrs⟩ := exists_forall₂_iff.mpr accepted
  rw [ofDefinition_of_accepted h, bind_eq_error]
  refine .inl (mapM_eq_error.mpr ⟨before, p, after, rs, split, mapM_eq_ok.mpr ?_, ?_⟩)
  · exact hrs.imp fun q r hr => judged_eq_ok.mpr hr
  · rw [rejected]
    rfl

end Grammar

/-! ## The two readers -/

theorem Settings.load_of_grammar (table : format.ParsesTable text) (h : Grammar.load format text = .ok g) :
    Settings.load format text = .ok g.settings := by
  obtain ⟨d, hd, hof⟩ := Grammar.exists_definition h
  obtain ⟨accepted, same⟩ := Grammar.settings_of_ofDefinition hof
  rw [same]
  exact Settings.load_eq_ok.mpr ⟨((definitionOf?_eq_some table).mp hd).1, accepted⟩

/-- Where the settings of a grammar that can be read are refused, the grammar is, for the same reason. -/
theorem Grammar.load_of_refused (table : format.ParsesTable text) (h : Settings.load format text = .error e)
    (hd : definitionOf? format text = some d) : d.settings.validate = .error e ∧ load format text = .error e := by
  obtain ⟨hs, -⟩ := (definitionOf?_eq_some table).mp hd
  rcases Settings.load_eq_error.mp h with ⟨hnone, -⟩ | ⟨s, hsome, hvalidate⟩
  · rw [hs] at hnone
    cases hnone
  · rw [hs, Option.some.injEq] at hsome
    subst hsome
    exact ⟨hvalidate, (load_of_definition hd).trans (ofDefinition_of_refused hvalidate)⟩

theorem definition_of_settings (table : format.ParsesTable text) (hs : Settings.load format text = .ok s)
    (hds : productionsOf? format text = some ds) :
    s.validate = .ok () ∧ definitionOf? format text = some ⟨s.search, s.derivation, ds⟩ := by
  obtain ⟨hread, accepted⟩ := Settings.load_eq_ok.mp hs
  exact ⟨accepted, (definitionOf?_eq_some table).mpr ⟨hread, hds⟩⟩

theorem Grammar.load_eq_ok (table : format.ParsesTable text) (hs : Settings.load format text = .ok s)
    (hds : productionsOf? format text = some ds) : load format text = .ok g ↔
      g.settings = s ∧ List.Forall₂ (fun p q => p.production = .ok q) ds g.productions := by
  obtain ⟨accepted, hd⟩ := definition_of_settings table hs hds
  rw [load_of_definition hd]
  exact ofDefinition_eq_ok accepted

/-- The settings of a document are those of its grammar: they are accepted with it, and it is refused with them, for the
same reason if it can be read at all. Where they are accepted, the grammar has them and the productions that the entries
define, if all of these are accepted, and else is refused for the first that is not. So settings that are refused are
reported before any production. -/
theorem load_agree (format : Format) (text : String) (table : format.ParsesTable text) :
    (∀ g, Grammar.load format text = .ok g → Settings.load format text = .ok g.settings) ∧
    (∀ e, Settings.load format text = .error e → (∃ e', Grammar.load format text = .error e') ∧
      ∀ d, definitionOf? format text = some d →
        d.settings.validate = .error e ∧ Grammar.load format text = .error e) ∧
    (∀ s ds, Settings.load format text = .ok s → productionsOf? format text = some ds →
      (∀ g, Grammar.load format text = .ok g ↔
        g.settings = s ∧ List.Forall₂ (fun p q => p.production = .ok q) ds g.productions) ∧
      ((∃ g, Grammar.load format text = .ok g) ↔ ∀ p ∈ ds, ∃ q, p.production = .ok q) ∧
      ∀ before p after fault, ds = before ++ p :: after → (∀ q ∈ before, ∃ r, q.production = .ok r) →
        p.production = .error fault → Grammar.load format text = .error (.malformedProduction fault)) ∧
    ∀ d e, definitionOf? format text = some d → d.settings.validate = .error e →
      Grammar.load format text = .error e := by
  refine ⟨fun g hg => Settings.load_of_grammar table hg, fun e he => ⟨?_, fun d hd => ?_⟩,
    fun s ds hs hds => ⟨fun g => Grammar.load_eq_ok table hs hds, ?_,
      fun before p after fault split hbefore rejected => ?_⟩,
    fun d e hd he => ?_⟩
  · cases hd : definitionOf? format text with
    | none => exact ⟨_, by rw [Grammar.load_eq, hd]⟩
    | some d => exact ⟨e, (Grammar.load_of_refused table he hd).2⟩
  · exact Grammar.load_of_refused table he hd
  · rw [← exists_forall₂_iff]
    constructor
    · intro h
      obtain ⟨g, hg⟩ := h
      exact ⟨_, ((Grammar.load_eq_ok table hs hds).mp hg).2⟩
    · intro h
      obtain ⟨ps, hps⟩ := h
      exact ⟨⟨s, ps⟩, (Grammar.load_eq_ok table hs hds).mpr ⟨rfl, hps⟩⟩
  · obtain ⟨accepted, hd⟩ := definition_of_settings table hs hds
    rw [Grammar.load_of_definition hd]
    exact Grammar.ofDefinition_of_rejected (d := ⟨s.search, s.derivation, ds⟩) accepted split hbefore rejected
  · exact (Grammar.load_of_definition hd).trans (Grammar.ofDefinition_of_refused he)

/-! ## The format that runs -/

theorem Datum.areReadableFields_eq_all (given : List (String × Datum)) :
    areReadableFields given = given.all fun field => field.2.isReadable := by
  induction given with
  | nil => rfl
  | cons field rest ih => rw [areReadableFields, List.all_cons, ih]

theorem Datum.isTable_record (dialect : Dialect) {given : List (String × Datum)}
    (readable : (Datum.record given).isReadable = true) : dialect.encoding.IsTable (.record given) := by
  rw [isReadable, areReadableFields_eq_all, List.all_eq_true] at readable
  refine ⟨fun name => given.lookup name, fun names => ⟨fun name => given.lookup name, ?_, fun name _ => rfl⟩⟩
  exact if_pos (List.all_eq_true.mpr fun field hfield => Bool.or_eq_true_iff.mpr (.inr (readable field hfield)))

theorem Toml.parse?_eq_some {x : Datum} (h : parse? text = some x) : ∃ given, x = .record given := by
  rw [parse?] at h
  simp only [Option.bind_eq_bind, Option.bind_eq_some_iff, Option.pure_def, Option.some.injEq] at h
  obtain ⟨statements, -, draft, -, rfl⟩ := h
  exact ⟨_, rfl⟩

/-- What is parsed is a table, if every number in it has a value. -/
theorem Format.toml_parsesTable (readable : ∀ x ∈ Toml.parse? text, x.isReadable = true) :
    Format.toml.ParsesTable text := by
  intro x hx
  obtain ⟨given, rfl⟩ := Toml.parse?_eq_some hx
  exact Datum.isTable_record .toml (readable _ hx)

section

def idle : ProductionDefinition := {}

/-- A production with an edge between vertices that it does not declare. -/
def dangles (x y : String) : ProductionDefinition := { rhs := { edges := [(⟨x⟩, ⟨y⟩)] } }

/-- Two productions, a quota, and a key that no reader knows. -/
def twoProductions : String := "note=1\nsearch.max_matches=3\n[[production]]\n[[production]]"

/-- The last two of three productions have edges between vertices that they do not declare. -/
def threeProductions : String :=
  "search.max_matches=3\n[[production]]\n[[production]]\nrhs.edges=[['b','c']]\n[[production]]\nrhs.edges=[['d','d']]"

/-- The quota leaves nothing to find, and the production has an edge between vertices that it does not declare. -/
def noQuota : String := "search.max_matches=0\n[[production]]\nrhs.edges=[['b','c']]"

/-- Behind the two parts of a vertex stands a number that is too large for its format. -/
def tooLarge : String := "[[production]]\nlhs.vertices=[['a','A',1e999]]"

/-- The settings of the first document are those of its grammar. The second one gives settings, and its grammar is
refused for the second production; the grammar of the third one is refused for its settings. -/
theorem load_agree_toml :
    Format.toml.ParsesTable twoProductions ∧ Format.toml.ParsesTable threeProductions ∧
      Format.toml.ParsesTable noQuota ∧
      Settings.load .toml twoProductions = .ok { search := { maxMatches := some 3 } } ∧
      Grammar.load .toml threeProductions = .error (.malformedProduction (.danglingEdge .rhs ⟨"b"⟩ ⟨"c"⟩)) ∧
      Grammar.load .toml noQuota = .error (.settings .zeroMaxMatches) := by
  have two : Grammar.load .toml twoProductions =
      .ok ⟨{ search := { maxMatches := some 3 } }, [⟨none, ∅, ∅⟩, ⟨none, ∅, ∅⟩]⟩ := by
    decide +kernel
  have three : Settings.load .toml threeProductions = .ok { search := { maxMatches := some 3 } } ∧
      productionsOf? .toml threeProductions = some ([idle] ++ dangles "b" "c" :: [dangles "d" "d"]) := by
    decide +kernel
  have zero : Settings.load .toml noQuota = .error (.settings .zeroMaxMatches) ∧
      definitionOf? .toml noQuota = some ⟨{ maxMatches := some 0 }, {}, [dangles "b" "c"]⟩ := by
    decide +kernel
  have accepted : ∀ p ∈ [idle], ∃ q, p.production = .ok q :=
    List.forall_mem_singleton.mpr ⟨⟨none, ∅, ∅⟩, by decide +kernel⟩
  have first : Format.toml.ParsesTable twoProductions := Format.toml_parsesTable (by decide +kernel)
  have second : Format.toml.ParsesTable threeProductions := Format.toml_parsesTable (by decide +kernel)
  have third : Format.toml.ParsesTable noQuota := Format.toml_parsesTable (by decide +kernel)
  obtain ⟨agree, -⟩ := load_agree .toml twoProductions first
  obtain ⟨-, -, shared, -⟩ := load_agree .toml threeProductions second
  obtain ⟨-, -, rejected⟩ := shared _ _ three.1 three.2
  obtain ⟨-, refused, -⟩ := load_agree .toml noQuota third
  obtain ⟨-, report⟩ := refused _ zero.1
  exact ⟨first, second, third, agree _ two, rejected _ _ _ _ rfl accepted (by decide +kernel), (report _ zero.2).2⟩

/-- Settings look at all keys of a document, and a grammar at none beneath a vertex. -/
example : Grammar.load .toml tooLarge = .ok ⟨{}, [⟨none, (Graph.empty.addVertex ⟨⟨"a"⟩, ⟨"A"⟩⟩).1, ∅⟩]⟩ ∧
    Settings.load .toml tooLarge = .error (.settings .unreadable) := by
  decide +kernel

end

end GraphGrammar
