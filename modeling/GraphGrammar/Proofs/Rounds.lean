import GraphGrammar.Derivation
import GraphGrammar.Proofs.Occurrences

/-!
# Rounds of a derivation

A round applies one occurrence, or it ends the run and leaves graph and steps as they are. So a run can be cut after
any number of rounds, what it does depends on the steps taken before only through the answers of the strategy, and a
strategy with a cap comes to an end.
-/

namespace GraphGrammar.Derivation

variable {σ : Type} {settings : SearchSettings} {ps : List Production} {strategy strategy' : Strategy σ}
  {s t : State σ} {o : Occurrence} {rounds cap : Nat} {pre : Array AppliedStep}

/-! ## One round -/

/-- The occurrence that the round applies, if it comes to that. -/
def chosen? (settings : SearchSettings) (ps : List Production) (strategy : Strategy σ) (s : State σ) :
    Option Occurrence :=
  match strategy.continues s.steps.size s.graph s.memory with
  | (false, _) => none
  | (true, memory) =>
    match settings.occurrences s.graph ps with
    | .error _ => none
    | .ok offer => (strategy.choose offer memory).1.bind (offer[·]?)

section
variable {offer : List Occurrence} {choice : Option Nat} {memory memory' : σ} {e : Error}

theorem round_of_halt (hcontinues : strategy.continues s.steps.size s.graph s.memory = (false, memory)) :
    round settings ps strategy s = ({ s with memory := memory }, some (.stopped .halted)) := by
  rw [round, hcontinues]

variable (hcontinues : strategy.continues s.steps.size s.graph s.memory = (true, memory))
include hcontinues

theorem round_of_failure (hoffer : settings.occurrences s.graph ps = .error e) :
    round settings ps strategy s = ({ s with memory := memory }, some (.failed e)) := by
  rw [round, hcontinues, hoffer]

theorem round_of_exhaustion (hoffer : settings.occurrences s.graph ps = .ok []) :
    round settings ps strategy s = ({ s with memory := memory }, some (.stopped .exhausted)) := by
  rw [round, hcontinues, hoffer]

/-- With occurrences on offer, the answer of the strategy decides. -/
theorem round_of_offer (hoffer : settings.occurrences s.graph ps = .ok offer) (hne : offer ≠ [])
    (hchoose : strategy.choose offer memory = (choice, memory')) :
    round settings ps strategy s =
      (choice.bind (offer[·]?)).elim ({ s with memory := memory' }, some (.stopped .declined))
        (State.step { s with memory := memory' }) := by
  rw [round, hcontinues, hoffer]
  cases offer with
  | nil => exact absurd rfl hne
  | cons first others =>
    simp only [hchoose]
    cases choice.bind ((first :: others)[·]?) <;> rfl

end

theorem round_of_chosen (h : chosen? settings ps strategy s = some o) :
    ∃ memory, round settings ps strategy s = { s with memory := memory }.step o := by
  rw [chosen?] at h
  rcases hc : strategy.continues s.steps.size s.graph s.memory with ⟨_ | _, asked⟩ <;> rw [hc] at h
  · cases h
  cases ho : settings.occurrences s.graph ps with
  | error e => simp [ho] at h
  | ok offer =>
    simp only [ho] at h
    have hne : offer ≠ [] := by
      intro hnil
      simp [hnil] at h
    refine ⟨(strategy.choose offer asked).2, ?_⟩
    rw [round_of_offer hc ho hne rfl, h]
    rfl

theorem round_of_not_chosen (h : chosen? settings ps strategy s = none) :
    ∃ memory ending, ending ≠ .unfinished ∧
      round settings ps strategy s = ({ s with memory := memory }, some ending) := by
  rw [chosen?] at h
  rcases hc : strategy.continues s.steps.size s.graph s.memory with ⟨_ | _, asked⟩ <;> rw [hc] at h
  · exact ⟨asked, .stopped .halted, nofun, round_of_halt hc⟩
  cases ho : settings.occurrences s.graph ps with
  | error e => exact ⟨asked, .failed e, nofun, round_of_failure hc ho⟩
  | ok offer =>
    simp only [ho] at h
    by_cases hne : offer = []
    · subst hne
      exact ⟨asked, .stopped .exhausted, nofun, round_of_exhaustion hc ho⟩
    · refine ⟨(strategy.choose offer asked).2, .stopped .declined, nofun, ?_⟩
      rw [round_of_offer hc ho hne rfl, h]
      rfl

theorem continues_of_chosen (h : chosen? settings ps strategy s = some o) :
    (strategy.continues s.steps.size s.graph s.memory).1 = true := by
  rw [chosen?] at h
  split at h
  · cases h
  · next hc => rw [hc]

theorem getElem?_of_chosen (h : chosen? settings ps strategy s = some o) : ps[o.index]? = some o.production := by
  rw [chosen?] at h
  split at h
  · cases h
  · split at h
    · cases h
    · next hoffer =>
      obtain ⟨index, -, hindex⟩ := Option.bind_eq_some_iff.mp h
      exact (SearchSettings.mem_of_occurrences hoffer (List.mem_of_getElem? hindex)).1

theorem exists_applied (h : round settings ps strategy s = (t, none)) :
    ∃ o summary, chosen? settings ps strategy s = some o ∧
      o.production.apply o.mapping s.graph = some (t.graph, .ok summary) ∧
      t.steps = s.steps.push ⟨o.index, o.production.name, summary⟩ := by
  cases hc : chosen? settings ps strategy s with
  | none =>
    obtain ⟨memory, ending, -, hround⟩ := round_of_not_chosen hc
    rw [hround] at h
    cases h
  | some o =>
    obtain ⟨memory, hround⟩ := round_of_chosen hc
    rw [hround, State.step] at h
    split at h
    · cases h
    · cases h
    · next happly =>
      cases h
      exact ⟨o, _, rfl, happly, rfl⟩

theorem left_of_ended {ending : Ending} (h : round settings ps strategy s = (t, some ending)) :
    t.graph = s.graph ∧ t.steps = s.steps ∧ ending ≠ .unfinished := by
  cases hc : chosen? settings ps strategy s with
  | none =>
    obtain ⟨memory, ending, hne, hround⟩ := round_of_not_chosen hc
    rw [hround] at h
    cases h
    exact ⟨rfl, rfl, hne⟩
  | some o =>
    obtain ⟨memory, hround⟩ := round_of_chosen hc
    rw [hround, State.step] at h
    split at h
    · cases h
      exact ⟨rfl, rfl, nofun⟩
    · next happly =>
      -- An application that fails leaves the graph.
      obtain ⟨same, -⟩ := Production.apply_eq_error.mp happly
      cases h
      exact ⟨same, rfl, nofun⟩
    · cases h

theorem ended_cases {ending : Ending} (h : round settings ps strategy s = (t, some ending)) :
    (ending = .stopped .halted ∧ (strategy.continues s.steps.size s.graph s.memory).1 = false) ∨
    ending = .stopped .exhausted ∨
    (ending = .stopped .declined ∧ ∃ offer memory, offer ≠ [] ∧
      (strategy.choose offer memory).1.bind (offer[·]?) = none) ∨
    (∃ e, ending = .failed e) ∨ ending = .endless := by
  rw [round] at h
  split at h
  · next hc =>
    cases h
    exact .inl ⟨rfl, by rw [hc]⟩
  · split at h
    · cases h
      exact .inr (.inr (.inr (.inl ⟨_, rfl⟩)))
    · cases h
      exact .inr (.inl rfl)
    · next offer hne _ =>
      dsimp only at h
      split at h
      · next hnone =>
        cases h
        exact .inr (.inr (.inl ⟨rfl, offer, _, hne, hnone⟩))
      · rw [State.step] at h
        split at h
        · cases h
          exact .inr (.inr (.inr (.inr rfl)))
        · cases h
          exact .inr (.inr (.inr (.inl ⟨_, rfl⟩)))
        · cases h

/-! ## Rounds in a row -/

/-- A run is a run with fewer rounds, and one with the rest of them where that is not finished. -/
theorem run_add (first second : Nat) (s : State σ) :
    run settings ps strategy (first + second) s =
      match run settings ps strategy first s with
      | (t, .unfinished) => run settings ps strategy second t
      | result => result := by
  induction first generalizing s with
  | zero => rw [Nat.zero_add, run]
  | succ first ih =>
    rw [Nat.succ_add, run, run]
    rcases hround : round settings ps strategy s with ⟨t, _ | ending⟩
    · exact ih t
    · obtain ⟨-, -, hne⟩ := left_of_ended hround
      cases ending with
      | unfinished => exact absurd rfl hne
      | stopped | failed | endless => rfl

/-- A run that is finished is so by the last of its rounds. -/
theorem exists_last_round {ending : Ending} (h : run settings ps strategy rounds s = (t, ending))
    (hne : ending ≠ .unfinished) :
    ∃ s', s'.steps.size < s.steps.size + rounds ∧ round settings ps strategy s' = (t, some ending) := by
  induction rounds generalizing s with
  | zero =>
    cases h
    exact absurd rfl hne
  | succ rounds ih =>
    rw [run] at h
    rcases hround : round settings ps strategy s with ⟨u, _ | last⟩
    · rw [hround] at h
      obtain ⟨o, summary, -, -, hsteps⟩ := exists_applied hround
      have hsize : u.steps.size = s.steps.size + 1 := by rw [hsteps, Array.size_push]
      obtain ⟨s', hlt, hlast⟩ := ih h
      exact ⟨s', by omega, hlast⟩
    · rw [hround] at h
      cases h
      exact ⟨s, by omega, hround⟩

/-- What each step keeps of the graph and the steps, a run keeps, for a round that ends it leaves both. -/
theorem run_invariant {P : Graph → Array AppliedStep → Prop} {ending : Ending}
    (step : ∀ s t, round settings ps strategy s = (t, none) → P s.graph s.steps → P t.graph t.steps)
    (h : run settings ps strategy rounds s = (t, ending)) (hs : P s.graph s.steps) : P t.graph t.steps := by
  induction rounds generalizing s with
  | zero =>
    cases h
    exact hs
  | succ rounds ih =>
    rw [run] at h
    rcases hround : round settings ps strategy s with ⟨u, _ | last⟩
    · rw [hround] at h
      exact ih h (step s u hround hs)
    · rw [hround] at h
      cases h
      obtain ⟨hgraph, hsteps, -⟩ := left_of_ended hround
      rwa [hgraph, hsteps]

theorem size_eq_of_unfinished (h : run settings ps strategy rounds s = (t, .unfinished)) :
    t.steps.size = s.steps.size + rounds := by
  induction rounds generalizing s with
  | zero =>
    cases h
    rfl
  | succ rounds ih =>
    rw [run] at h
    rcases hround : round settings ps strategy s with ⟨u, _ | ending⟩
    · rw [hround] at h
      obtain ⟨o, summary, -, -, hsteps⟩ := exists_applied hround
      rw [ih h, hsteps, Array.size_push, Nat.add_right_comm, Nat.add_assoc]
    · rw [hround] at h
      obtain ⟨-, -, hne⟩ := left_of_ended hround
      cases h
      exact absurd rfl hne

/-! ## Steps taken before -/

def State.behind (pre : Array AppliedStep) (s : State σ) : State σ := { s with steps := pre ++ s.steps }

theorem State.step_behind : (s.behind pre).step o = ((s.step o).1.behind pre, (s.step o).2) := by
  rw [State.step, State.step, show (s.behind pre).graph = s.graph from rfl]
  rcases o.production.apply o.mapping s.graph with _ | ⟨g', e | summary⟩
  · rfl
  · rfl
  · simp only [State.behind, Array.push_append]

/-- Steps taken before count only where the strategy is asked whether to go on. -/
theorem round_behind (choose : strategy.choose = strategy'.choose)
    (continues : strategy.continues (pre.size + s.steps.size) s.graph s.memory =
      strategy'.continues s.steps.size s.graph s.memory) :
    round settings ps strategy (s.behind pre) =
      ((round settings ps strategy' s).1.behind pre, (round settings ps strategy' s).2) := by
  have hgraph : (s.behind pre).graph = s.graph := rfl
  have hmemory : (s.behind pre).memory = s.memory := rfl
  have hsize : (s.behind pre).steps.size = pre.size + s.steps.size := Array.size_append
  rw [round, round, hgraph, hmemory, hsize, continues, choose]
  rcases strategy'.continues s.steps.size s.graph s.memory with ⟨_ | _, asked⟩
  · rfl
  · rcases settings.occurrences s.graph ps with e | _ | ⟨first, others⟩
    · rfl
    · rfl
    · dsimp only
      rcases (strategy'.choose (first :: others) asked).1.bind ((first :: others)[·]?) with _ | o
      · rfl
      · exact State.step_behind (s := { s with memory := (strategy'.choose (first :: others) asked).2 })

/-- Two strategies that choose alike go through the same rounds, one of them with other steps before, as long as they
want the same steps. -/
theorem run_behind (choose : strategy.choose = strategy'.choose)
    (continues : ∀ k g memory, s.steps.size ≤ k → k < s.steps.size + rounds →
      strategy.continues (pre.size + k) g memory = strategy'.continues k g memory) :
    run settings ps strategy rounds (s.behind pre) =
      ((run settings ps strategy' rounds s).1.behind pre, (run settings ps strategy' rounds s).2) := by
  induction rounds generalizing s with
  | zero => rfl
  | succ rounds ih =>
    rw [run, run, round_behind choose (continues _ _ _ (Nat.le_refl _) (by omega))]
    rcases hround : round settings ps strategy' s with ⟨t, _ | ending⟩
    · obtain ⟨o, summary, -, -, hsteps⟩ := exists_applied hround
      have hsize : t.steps.size = s.steps.size + 1 := by rw [hsteps, Array.size_push]
      refine ih fun k g memory (hle : t.steps.size ≤ k) (hlt : k < t.steps.size + rounds) => ?_
      exact continues k g memory (by omega) (by omega)
    · rfl

/-! ## Caps -/

/-- The strategy wants no step from number `cap` on. -/
def CappedBy (strategy : Strategy σ) (cap : Nat) : Prop :=
  ∀ step g memory, (strategy.continues step g memory).1 = true → step < cap

theorem size_of_unfinished (hcap : CappedBy strategy cap) (hs : s.steps.size ≤ cap)
    (h : run settings ps strategy rounds s = (t, .unfinished)) :
    t.steps.size = s.steps.size + rounds ∧ t.steps.size ≤ cap := by
  refine ⟨size_eq_of_unfinished h, ?_⟩
  apply run_invariant (P := fun _ steps => steps.size ≤ cap) ?_ h hs
  intro s t hround _
  obtain ⟨o, summary, hchosen, -, hsteps⟩ := exists_applied hround
  have hlt := hcap _ _ _ (continues_of_chosen hchosen)
  rw [hsteps, Array.size_push]
  exact hlt

theorem run_finishes (hcap : CappedBy strategy cap) (hs : s.steps.size ≤ cap)
    (enough : cap < s.steps.size + rounds) : (run settings ps strategy rounds s).2 ≠ .unfinished := by
  intro hend
  obtain ⟨hsize, hle⟩ := size_of_unfinished hcap hs (t := (run settings ps strategy rounds s).1) (by rw [← hend])
  omega

end GraphGrammar.Derivation

/-! ## The strategies that settings select -/

namespace GraphGrammar

namespace Selection

/-- What the strategy of a selection remembers. -/
def Memory (sampler : Random.Sampler) : Selection → Type
  | .first | .last => Unit
  | .random => sampler.State

def strategy (sampler : Random.Sampler) : (selection : Selection) → (cap : UInt64) → Strategy (selection.Memory sampler)
  | .first => .firstMatch
  | .last => .lastMatch
  | .random => .randomMatch sampler

def memory (sampler : Random.Sampler) : (selection : Selection) → (seed : UInt64) → selection.Memory sampler
  | .first, _ | .last, _ => ()
  | .random, seed => sampler.ofSeed seed

variable {sampler : Random.Sampler} {selection : Selection} {cap : UInt64}

theorem continues_eq {step : Nat} {g : Graph} {memory : selection.Memory sampler} :
    (selection.strategy sampler cap).continues step g memory = (decide (step < cap.toNat), memory) := by
  cases selection <;> rfl

theorem choose_eq (cap cap' : UInt64) :
    (selection.strategy sampler cap).choose = (selection.strategy sampler cap').choose := by
  cases selection <;> rfl

theorem cappedBy : Derivation.CappedBy (selection.strategy sampler cap) cap.toNat := by
  intro step g memory h
  rw [continues_eq] at h
  exact of_decide_eq_true h

/-- One of the occurrences on offer is chosen, at random too if what is drawn stays below the number of them. -/
theorem exists_chosen {offer : List Occurrence} (below : selection = .random → sampler.StaysBelow) (cap : UInt64)
    (memory : selection.Memory sampler) (hne : offer ≠ []) :
    ∃ o, ((selection.strategy sampler cap).choose offer memory).1.bind (offer[·]?) = some o := by
  have hlength := List.length_pos_iff.mpr hne
  have chosen (index : Nat) (hlt : index < offer.length) : ∃ o, (some index).bind (offer[·]?) = some o :=
    ⟨offer[index], List.getElem?_eq_getElem hlt⟩
  cases selection with
  | first => exact chosen 0 hlength
  | last =>
    simp only [strategy, Strategy.lastMatch, if_neg (Nat.ne_of_gt hlength)]
    exact chosen _ (by omega)
  | random =>
    simp only [strategy, Strategy.randomMatch, if_neg (Nat.ne_of_gt hlength)]
    exact chosen _ (below rfl offer.length _ hlength)

end Selection

namespace Derivation

theorem Outcome.report?_eq_some {o : Outcome} {report : Report} (h : o.report? = some report) :
    o.ending = .stopped report.stop ∧ o.steps = report.steps := by
  rw [report?] at h
  split at h
  · next hending =>
    cases h
    exact ⟨hending, rfl⟩
  · cases h

theorem runSelected_eq {sampler : Random.Sampler} {search : SearchSettings} {d : DerivationSettings}
    {ps : List Production} {g : Graph} :
    runSelected sampler search d ps g = (runCapped search ps d.maxSteps (d.selection.strategy sampler d.maxSteps)
      (d.selection.memory sampler d.seed) g).1 := by
  rw [runSelected]
  cases d.selection <;> rfl

end Derivation
end GraphGrammar
