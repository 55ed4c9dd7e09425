import GraphGrammar.Derivation
import GraphGrammar.Proofs.Occurrences
import GraphGrammar.Proofs.Rewrite

/-!
# Derivations as traces

A trace tells a derivation from outside: the graphs in a row, what the strategy is asked on each of them and what
it answers, and the application that leads to the next. `Derivation.run` goes through a trace, reports its
applications and leaves its last graph behind. What the strategy is offered is accepted by the validator, so that
an application does not fail, and a run fails for the search budget alone. An application may still never end, when the
numbers for fresh identifiers are used up.
-/

namespace GraphGrammar.Derivation

variable {σ : Type} (settings : SearchSettings) (ps : List Production) (strategy : Strategy σ)

/-- Step number `n`: the strategy wants it, some occurrences are found, it is offered these and chooses one, and
that one is applied. -/
inductive Applies (n : Nat) (g : Graph) (memory : σ) : AppliedStep → Graph → σ → Prop where
  | intro {asked chosen : σ} {offer : List Occurrence} {choice : Nat} {o : Occurrence} {g' : Graph}
      {summary : Summary}
      (continues : strategy.continues n g memory = (true, asked))
      (found : settings.occurrences g ps = .ok offer)
      (nonempty : offer ≠ [])
      (choose : strategy.choose offer asked = (some choice, chosen))
      (offered : offer[choice]? = some o)
      (applied : o.production.apply o.mapping g = some (g', .ok summary)) :
      Applies n g memory ⟨o.index, o.production.name, summary⟩ g' chosen

/-- The steps lead from one graph to another, numbered from `n` on. -/
inductive Trace : (n : Nat) → Graph → σ → List AppliedStep → Graph → σ → Prop where
  | nil {n : Nat} {g : Graph} {memory : σ} : Trace n g memory [] g memory
  | cons {n : Nat} {g g₁ g' : Graph} {memory memory₁ memory' : σ} {step : AppliedStep} {steps : List AppliedStep}
      (head : Applies settings ps strategy n g memory step g₁ memory₁)
      (tail : Trace (n + 1) g₁ memory₁ steps g' memory') :
      Trace n g memory (step :: steps) g' memory'

/-- The run ends where step number `n` would come, and its ending tells why there is none. -/
structure Ends (n : Nat) (g : Graph) (memory : σ) (ending : Ending) : Prop where
  /-- The strategy does not want the step. -/
  halted : ending = .stopped .halted ↔ (strategy.continues n g memory).1 = false
  /-- It wants the step, and no production occurs. -/
  exhausted : ending = .stopped .exhausted ↔
    (strategy.continues n g memory).1 = true ∧ settings.occurrences g ps = .ok []
  /-- It is offered some occurrences and chooses nothing, or a position behind the last of them. -/
  declined : ending = .stopped .declined ↔
    (strategy.continues n g memory).1 = true ∧ ∃ offer, settings.occurrences g ps = .ok offer ∧ offer ≠ [] ∧
      ∀ choice, (strategy.choose offer (strategy.continues n g memory).2).1 = some choice → offer.length ≤ choice
  /-- It wants the step, and the search for occurrences fails. -/
  failed : ∀ e, ending = .failed e ↔
    (strategy.continues n g memory).1 = true ∧ settings.occurrences g ps = .error e
  /-- It chooses an occurrence, and applying that never ends. -/
  endless : ending = .endless ↔
    (strategy.continues n g memory).1 = true ∧ ∃ offer choice o, settings.occurrences g ps = .ok offer ∧
      (strategy.choose offer (strategy.continues n g memory).2).1 = some choice ∧ offer[choice]? = some o ∧
      o.production.apply o.mapping g = none
  /-- There is one way to fail. -/
  budget : ∀ e, ending = .failed e → ∃ candidates, e = .searchBudgetExhausted candidates

variable {settings ps strategy} {n rounds : Nat} {g : Graph} {memory asked : σ} {s t : State σ} {ending : Ending}
  {offer : List Occurrence} {e : Error}

/-! ## The ways to end -/

namespace Ends

theorem of_halted (hc : strategy.continues n g memory = (false, asked)) :
    Ends settings ps strategy n g memory (.stopped .halted) := by
  constructor <;> simp [hc]

variable (hc : strategy.continues n g memory = (true, asked))
include hc

theorem of_exhausted (ho : settings.occurrences g ps = .ok []) :
    Ends settings ps strategy n g memory (.stopped .exhausted) := by
  constructor <;> simp [hc, ho]

theorem of_declined (ho : settings.occurrences g ps = .ok offer) (hne : offer ≠ [])
    (hd : (strategy.choose offer asked).1.bind (offer[·]?) = none) :
    Ends settings ps strategy n g memory (.stopped .declined) := by
  have outside : ∀ choice, (strategy.choose offer asked).1 = some choice → offer.length ≤ choice := by
    intro choice hchoice
    simpa [hchoice] using hd
  constructor <;> simp_all

theorem of_endless {choice : Nat} {chosen : σ} {o : Occurrence} (ho : settings.occurrences g ps = .ok offer)
    (hne : offer ≠ []) (hch : strategy.choose offer asked = (some choice, chosen)) (hindex : offer[choice]? = some o)
    (happly : o.production.apply o.mapping g = none) : Ends settings ps strategy n g memory .endless := by
  have inside : choice < offer.length := (List.getElem?_eq_some_iff.mp hindex).1
  refine ⟨by simp [hc], by simp [hc, ho, hne], ?_, by simp [hc, ho], ?_, nofun⟩
  · simp [hc, ho, hne, hch, inside]
  · simp [hc, ho, hch, hindex, happly]

theorem of_failed (ho : settings.occurrences g ps = .error e) :
    Ends settings ps strategy n g memory (.failed e) := by
  have budget := SearchSettings.error_of_occurrences ho
  constructor <;> simp_all

end Ends

/-! ## One round -/

theorem Applies.keyed {step : AppliedStep} {g' : Graph} {memory' : σ}
    (h : Applies settings ps strategy n g memory step g' memory') (hg : g.Keyed) : g'.Keyed := by
  obtain @⟨_, _, _, _, _, _, _, -, -, -, -, -, applied⟩ := h
  exact hg.commit (Production.apply_eq_ok.mp applied).2

variable (hps : ∀ p ∈ ps, p.lhs.WellFormed)
include hps

theorem round_spec (s : State σ) (hs : s.graph.Keyed) :
    (∃ step g' memory', Applies settings ps strategy s.steps.size s.graph s.memory step g' memory' ∧
      round settings ps strategy s = (⟨g', memory', s.steps.push step⟩, none)) ∨
    ∃ memory' ending, ending ≠ .unfinished ∧ Ends settings ps strategy s.steps.size s.graph s.memory ending ∧
      round settings ps strategy s = (⟨s.graph, memory', s.steps⟩, some ending) := by
  rw [round]
  rcases hc : strategy.continues s.steps.size s.graph s.memory with ⟨wanted, asked⟩
  cases wanted with
  | false => exact .inr ⟨asked, .stopped .halted, nofun, .of_halted hc, rfl⟩
  | true =>
    cases ho : settings.occurrences s.graph ps with
    | error e => exact .inr ⟨asked, .failed e, nofun, .of_failed hc ho, rfl⟩
    | ok offer =>
      by_cases hne : offer = []
      · subst hne
        exact .inr ⟨asked, .stopped .exhausted, nofun, .of_exhausted hc ho, rfl⟩
      · rcases hch : strategy.choose offer asked with ⟨choice, chosen⟩
        cases hd : choice.bind (offer[·]?) with
        | none =>
          refine .inr ⟨chosen, .stopped .declined, nofun, .of_declined hc ho hne (by rw [hch]; exact hd), ?_⟩
          simp [hch, hd]
        | some o =>
          obtain ⟨index, rfl, hindex⟩ := Option.bind_eq_some_iff.mp hd
          -- What the validator accepts is applied without fail.
          have hvalid := SearchSettings.validate_of_mem_occurrences hps hs ho (List.mem_of_getElem? hindex)
          have happly := Production.apply_of_accepted hvalid
          cases hcommit : o.production.commit o.mapping s.graph with
          | none =>
            rw [hcommit, Option.map_none] at happly
            refine .inr ⟨chosen, .endless, nofun, .of_endless hc ho hne hch hindex happly, ?_⟩
            simp [hch, hindex, State.step, happly]
          | some result =>
            rw [hcommit, Option.map_some] at happly
            refine .inl ⟨_, _, chosen, .intro hc ho hne hch hindex happly, ?_⟩
            simp [hch, hindex, State.step, happly]

/-! ## A run -/

theorem run_spec (hs : s.graph.Keyed) (h : run settings ps strategy rounds s = (t, ending)) :
    ∃ steps last, t.steps.toList = s.steps.toList ++ steps ∧
      Trace settings ps strategy s.steps.size s.graph s.memory steps t.graph last ∧
      (ending = .unfinished → steps.length = rounds) ∧
      (ending ≠ .unfinished → Ends settings ps strategy t.steps.size t.graph last ending) := by
  induction rounds generalizing s with
  | zero =>
    rw [run, Prod.mk.injEq] at h
    obtain ⟨rfl, rfl⟩ := h
    exact ⟨[], s.memory, by simp, .nil, fun _ => rfl, fun h => absurd rfl h⟩
  | succ rounds ih =>
    rw [run] at h
    rcases round_spec hps s hs with ⟨step, g', memory', happlies, hround⟩ | ⟨memory', ending, hne, hends, hround⟩
    · rw [hround] at h
      obtain ⟨steps, last, hsteps, htrace, hlength, hends⟩ := ih (happlies.keyed hs) h
      rw [Array.size_push] at htrace
      refine ⟨step :: steps, last, ?_, .cons happlies htrace, fun hu => ?_, hends⟩
      · simpa using hsteps
      · rw [List.length_cons, hlength hu]
    · rw [hround] at h
      cases h
      exact ⟨[], s.memory, by simp, .nil, fun hu => absurd hu hne, fun _ => hends⟩

/-- A run goes through a trace that starts with its first graph. It reports the steps of the trace and leaves its
last graph behind, and it ends for the reason for which there is no further step. When its rounds are used up
there is none, and each of them was a step. -/
theorem run_traces (hg : g.Keyed) (h : run settings ps strategy rounds { graph := g, memory := memory } = (t, ending)) :
    ∃ last, Trace settings ps strategy 0 g memory t.steps.toList t.graph last ∧
      (ending = .unfinished → t.steps.size = rounds) ∧
      (ending ≠ .unfinished → Ends settings ps strategy t.steps.size t.graph last ending) := by
  obtain ⟨steps, last, hsteps, htrace, hlength, hends⟩ := run_spec hps hg h
  rw [List.nil_append] at hsteps
  subst hsteps
  exact ⟨last, htrace, hlength, hends⟩

omit hps in
/-- A run in which a vertex gets a leaf twice, and a third is not wanted. -/
theorem run_traces_sprouting :
    let sprout : Production :=
      { lhs := (Graph.empty.addVertex ⟨⟨"r"⟩, ⟨"R"⟩⟩).1
        rhs := (Graph.empty.addEdge ⟨⟨"r"⟩, ⟨"R"⟩⟩ ⟨⟨"l"⟩, ⟨"L"⟩⟩).1 }
    let root : Graph := (Graph.empty.addVertex ⟨⟨"root"⟩, ⟨"R"⟩⟩).1
    (∀ p ∈ [sprout], p.lhs.WellFormed) ∧ root.Keyed ∧
      ∃ t, run {} [sprout] (.firstMatch 2) 5 { graph := root, memory := () } = (t, .stopped .halted) ∧
        t.steps.size = 2 ∧ ∃ last, Trace {} [sprout] (.firstMatch 2) 0 root () t.steps.toList t.graph last ∧
          Ends {} [sprout] (.firstMatch 2) t.steps.size t.graph last (.stopped .halted) := by
  intro sprout root
  have hps : ∀ p ∈ [sprout], p.lhs.WellFormed := by
    intro p hp
    rw [List.mem_singleton.mp hp]
    exact Graph.WellFormed.empty.addVertex _
  have hg : root.Keyed := (Graph.WellFormed.empty.addVertex _).keyed
  rcases h : run {} [sprout] (.firstMatch 2) 5 { graph := root, memory := () } with ⟨t, ending⟩
  have hend : (run {} [sprout] (.firstMatch 2) 5 { graph := root, memory := () }).2 = .stopped .halted := by
    decide +kernel
  have hsize : (run {} [sprout] (.firstMatch 2) 5 { graph := root, memory := () }).1.steps.size = 2 := by
    decide +kernel
  rw [h] at hend hsize
  obtain rfl : ending = .stopped .halted := hend
  obtain ⟨last, htrace, -, hends⟩ := run_traces hps hg h
  exact ⟨hps, hg, t, rfl, hsize, last, htrace, hends nofun⟩

end GraphGrammar.Derivation
