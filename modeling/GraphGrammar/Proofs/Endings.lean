import GraphGrammar.Proofs.Rounds
import GraphGrammar.Random.Draw

/-!
# Why a derivation stops

The strategies that settings select want every step below their cap and always choose an occurrence that is on offer.
So a derivation that stops has come to its cap, or nothing occurs in the graph that it leaves, and the reason it
reports tells which: the last round changes nothing, so what holds of its graph holds of the graph that is left.

What is assumed: numbers that the sampler draws stay below their bound (`Sampler.StaysBelow`). The sampler that runs is
proved to have this (`Sampler.keystream_staysBelow`).
-/

/-! ## The keystream as a sampler -/

namespace GraphGrammar.Random

/-- What comes from a good word is the upper half of its product with the bound. -/
theorem Generator.drawWithin_lt {n k attempts : Nat} {g g' : Generator} (hn : 0 < n)
    (h : drawWithin n attempts g = some (k, g')) : k < n := by
  induction attempts generalizing g with
  | zero => cases h
  | succ attempts ih =>
    simp only [drawWithin] at h
    split at h
    · cases h
      exact Nat.div_lt_of_lt_mul (Nat.mul_lt_mul_of_pos_right g.next.1.toNat_lt hn)
    · exact ih h

theorem Sampler.keystream_staysBelow : Sampler.keystream.StaysBelow := by
  intro n g hn
  show ((Generator.draw n g).getD (0, g)).1 < n
  cases h : Generator.draw n g with
  | none => exact hn
  | some result => exact Generator.drawWithin_lt hn h

end GraphGrammar.Random

namespace GraphGrammar.Derivation

/-- How a derivation under a cap has ended, after `n` steps and with the graph `g`. -/
structure EndsUnder (search : SearchSettings) (ps : List Production) (cap n : Nat) (g : Graph) (ending : Ending) :
    Prop where
  /-- No step is taken beyond the cap. -/
  le : n ≤ cap
  finished : ending ≠ .unfinished
  /-- Whatever is on offer, something is chosen. -/
  not_declined : ending ≠ .stopped .declined
  /-- At the cap, and there alone, no further step is wanted. -/
  halted : ending = .stopped .halted ↔ n = cap
  /-- Below the cap a step is wanted, and there is none. -/
  exhausted : ending = .stopped .exhausted ↔ n < cap ∧ search.occurrences g ps = .ok []

namespace EndsUnder

variable {search : SearchSettings} {ps : List Production} {cap n : Nat} {g : Graph} {ending : Ending}

theorem of_halt (hn : n = cap) : EndsUnder search ps cap n g (.stopped .halted) where
  le := Nat.le_of_eq hn
  finished := nofun
  not_declined := nofun
  halted := iff_of_true rfl hn
  exhausted := iff_of_false nofun fun h => by omega

theorem of_exhaustion (hn : n < cap) (hoffer : search.occurrences g ps = .ok []) :
    EndsUnder search ps cap n g (.stopped .exhausted) where
  le := Nat.le_of_lt hn
  finished := nofun
  not_declined := nofun
  halted := iff_of_false nofun (Nat.ne_of_lt hn)
  exhausted := iff_of_true rfl ⟨hn, hoffer⟩

/-- Without a stop the run ends below the cap, and not where the search finds that nothing occurs. -/
theorem of_failure (hn : n < cap) (hoffer : search.occurrences g ps ≠ .ok [])
    (hending : (∃ e, ending = .failed e) ∨ ending = .endless) : EndsUnder search ps cap n g ending where
  le := Nat.le_of_lt hn
  finished := by rcases hending with ⟨e, rfl⟩ | rfl <;> nofun
  not_declined := by rcases hending with ⟨e, rfl⟩ | rfl <;> nofun
  halted := iff_of_false (by rcases hending with ⟨e, rfl⟩ | rfl <;> nofun) (Nat.ne_of_lt hn)
  exhausted := iff_of_false (by rcases hending with ⟨e, rfl⟩ | rfl <;> nofun) fun h => hoffer h.2

end EndsUnder

variable {sampler : Random.Sampler} {search : SearchSettings} {ps : List Production} {selection : Selection}
  {cap : UInt64} {s t : State (selection.Memory sampler)} {ending : Ending}

/-! ## The last round -/

theorem endsUnder_of_round (below : selection = .random → sampler.StaysBelow) (hs : s.steps.size ≤ cap.toNat)
    (h : round search ps (selection.strategy sampler cap) s = (t, some ending)) :
    EndsUnder search ps cap.toNat t.steps.size t.graph ending := by
  obtain ⟨hgraph, hsteps, -⟩ := left_of_ended h
  rw [hgraph, hsteps]
  have hcontinues : (selection.strategy sampler cap).continues s.steps.size s.graph s.memory = _ :=
    Selection.continues_eq
  by_cases hlt : s.steps.size < cap.toNat
  · rw [decide_eq_true hlt] at hcontinues
    cases hoffer : search.occurrences s.graph ps with
    | error e =>
      rw [round_of_failure hcontinues hoffer] at h
      cases h
      exact .of_failure hlt (by simp [hoffer]) (.inl ⟨e, rfl⟩)
    | ok offer =>
      by_cases hne : offer = []
      · subst hne
        rw [round_of_exhaustion hcontinues hoffer] at h
        cases h
        exact .of_exhaustion hlt hoffer
      · -- Something is chosen, so the round could end the run only by an application that does not succeed.
        have some_offered : search.occurrences s.graph ps ≠ .ok [] := by simp [hoffer, hne]
        obtain ⟨o, ho⟩ := Selection.exists_chosen below cap s.memory hne
        rw [round_of_offer hcontinues hoffer hne rfl, ho, Option.elim_some, State.step] at h
        split at h
        · cases h
          exact .of_failure hlt some_offered (.inr rfl)
        · cases h
          exact .of_failure hlt some_offered (.inl ⟨_, rfl⟩)
        · cases h
  · rw [decide_eq_false hlt] at hcontinues
    rw [round_of_halt hcontinues] at h
    cases h
    exact .of_halt (by omega)

/-! ## The whole derivation -/

theorem endsUnder_of_run (below : selection = .random → sampler.StaysBelow)
    (h : run search ps (selection.strategy sampler cap) (cap.toNat + 1) s = (t, ending)) (hs : s.steps = #[]) :
    EndsUnder search ps cap.toNat t.steps.size t.graph ending := by
  have size : s.steps.size = 0 := by rw [hs]; rfl
  have finishes : (run search ps (selection.strategy sampler cap) (cap.toNat + 1) s).2 ≠ .unfinished :=
    run_finishes Selection.cappedBy (by omega) (by omega)
  rw [h] at finishes
  obtain ⟨s', hlt, hround⟩ := exists_last_round h finishes
  exact endsUnder_of_round below (by omega) hround

theorem endsUnder_runSelected (d : DerivationSettings) (below : d.selection = .random → sampler.StaysBelow)
    (search : SearchSettings) (ps : List Production) (g : Graph) :
    EndsUnder search ps d.maxSteps.toNat (runSelected sampler search d ps g).steps.length
      (runSelected sampler search d ps g).graph (runSelected sampler search d ps g).ending := by
  rw [runSelected_eq, runCapped]
  rcases hrun : run search ps (d.selection.strategy sampler d.maxSteps) (d.maxSteps.toNat + 1)
    { graph := g, memory := d.selection.memory sampler d.seed } with ⟨t, ending⟩
  show EndsUnder search ps d.maxSteps.toNat t.steps.toList.length t.graph ending
  rw [Array.length_toList]
  exact endsUnder_of_run below hrun rfl

/-- Under settings that are accepted a derivation comes to an end. If it reports, it has taken no more steps than its
cap allows and has not declined; it has halted exactly if it took as many as that, and it is exhausted exactly if it
took fewer and no production occurs in the graph that it leaves. Settings that are refused leave the graph as it is.
Of the sampler nothing is assumed but that it stays below the bounds it is given. -/
theorem applyProductions_stops (below : sampler.StaysBelow) (settings : Settings) (ps : List Production) (g : Graph) :
    (settings.validate = .ok () →
      (applyProductions sampler settings ps g).ending ≠ .unfinished ∧
      ∀ report, (applyProductions sampler settings ps g).report? = some report →
        report.steps.length ≤ settings.derivation.maxSteps.toNat ∧ report.stop ≠ .declined ∧
        (report.stop = .halted ↔ report.steps.length = settings.derivation.maxSteps.toNat) ∧
        (report.stop = .exhausted ↔ report.steps.length < settings.derivation.maxSteps.toNat ∧
          settings.search.occurrences (applyProductions sampler settings ps g).graph ps = .ok [])) ∧
    ∀ e, settings.validate = .error e →
      (∃ fault, e = .settings fault) ∧ applyProductions sampler settings ps g = ⟨g, [], .failed e⟩ := by
  rw [Settings.validate, applyProductions]
  cases settings.fault? with
  | some fault =>
    refine ⟨nofun, fun e he => ?_⟩
    cases he
    exact ⟨⟨fault, rfl⟩, rfl⟩
  | none =>
    refine ⟨fun _ => ?_, nofun⟩
    have ends := endsUnder_runSelected settings.derivation (fun _ => below) settings.search ps g
    refine ⟨ends.finished, fun report hreport => ?_⟩
    obtain ⟨hending, hsteps⟩ := Outcome.report?_eq_some hreport
    obtain ⟨le, -, not_declined, halted, exhausted⟩ := ends
    simp only [hending, hsteps, ne_eq, Ending.stopped.injEq] at le not_declined halted exhausted
    exact ⟨le, not_declined, halted, exhausted⟩

section

def wither : Production where
  lhs := (Graph.empty.addVertex ⟨⟨"x"⟩, ⟨"B"⟩⟩).1
  rhs := ∅

def branches : Graph :=
  let root : Vertex := ⟨⟨"root"⟩, ⟨"A"⟩⟩
  ((Graph.empty.addEdge root ⟨⟨"left"⟩, ⟨"B"⟩⟩).1.addEdge root ⟨⟨"right"⟩, ⟨"B"⟩⟩).1

/-- The last occurrence is chosen, up to `cap` times. -/
def lastUpTo (cap : UInt64) : Settings where
  derivation := { maxSteps := cap, selection := .last }

/-- A cap of three is not reached. A cap of two is, and counts as the reason though nothing is left to erase. -/
theorem applyProductions_stops_wither :
    Random.Sampler.keystream.StaysBelow ∧ (lastUpTo 3).validate = .ok () ∧ (lastUpTo 2).validate = .ok () ∧
      (∃ report, (applyProductions .keystream (lastUpTo 3) [wither] branches).report? = some report ∧
        report.stop = .exhausted ∧ report.steps.length < 3 ∧
        (lastUpTo 3).search.occurrences (applyProductions .keystream (lastUpTo 3) [wither] branches).graph [wither] =
          .ok []) ∧
      (∃ report, (applyProductions .keystream (lastUpTo 2) [wither] branches).report? = some report ∧
        report.steps.length = 2 ∧ report.stop = .halted) ∧
      applyProductions .keystream { search := { stepLimit := some 0 } } [wither] branches =
        ⟨branches, [], .failed (.settings .zeroStepLimit)⟩ := by
  have below := Random.Sampler.keystream_staysBelow
  have run₃ : ((applyProductions .keystream (lastUpTo 3) [wither] branches).report?.map (·.stop)) =
      some .exhausted := by
    decide +kernel
  have run₂ : ((applyProductions .keystream (lastUpTo 2) [wither] branches).report?.map (·.steps.length)) = some 2 := by
    decide +kernel
  obtain ⟨report₃, h₃, stop₃⟩ := Option.map_eq_some_iff.mp run₃
  obtain ⟨report₂, h₂, steps₂⟩ := Option.map_eq_some_iff.mp run₂
  obtain ⟨-, -, -, exhausted⟩ := ((applyProductions_stops below (lastUpTo 3) [wither] branches).1 rfl).2 report₃ h₃
  obtain ⟨-, -, halted, -⟩ := ((applyProductions_stops below (lastUpTo 2) [wither] branches).1 rfl).2 report₂ h₂
  exact ⟨below, rfl, rfl, ⟨report₃, h₃, stop₃, exhausted.mp stop₃⟩, ⟨report₂, h₂, steps₂, halted.mpr steps₂⟩,
    ((applyProductions_stops below { search := { stepLimit := some 0 } } [wither] branches).2 _ rfl).2⟩

end

end GraphGrammar.Derivation
