import GraphGrammar.Proofs.Rounds
import GraphGrammar.Random.Draw

/-!
# Derivations in two parts

A derivation that stopped at its cap can be taken up again: with a second cap, the graph that is left and what the
strategy remembers, it does what one derivation with both caps together does. Nothing but these two is carried from
one round to the next, so the number of the step is all that has to be shifted.
-/

namespace GraphGrammar.Derivation

variable {σ : Type} {settings : SearchSettings} {ps : List Production} {sampler : Random.Sampler}
  {selection : Selection} {m n : UInt64} {s t : State (selection.Memory sampler)} {ending : Ending}

theorem toNat_add_caps (hmn : m.toNat + n.toNat < UInt64.size) : (m + n).toNat = m.toNat + n.toNat := by
  rw [UInt64.toNat_add]
  exact Nat.mod_eq_of_lt hmn

theorem continues_shift (hmn : m.toNat + n.toNat < UInt64.size) (k : Nat) (g : Graph)
    (memory : selection.Memory sampler) : (selection.strategy sampler (m + n)).continues (m.toNat + k) g memory =
      (selection.strategy sampler n).continues k g memory := by
  rw [Selection.continues_eq, Selection.continues_eq, toNat_add_caps hmn]
  simp only [Nat.add_lt_add_iff_left]

theorem continues_below (hmn : m.toNat + n.toNat < UInt64.size) (k : Nat) (hk : k < m.toNat) (g : Graph)
    (memory : selection.Memory sampler) :
    (selection.strategy sampler (m + n)).continues k g memory =
      (selection.strategy sampler m).continues k g memory := by
  rw [Selection.continues_eq, Selection.continues_eq, toNat_add_caps hmn]
  simp only [hk, Nat.lt_add_right n.toNat hk]

theorem run_first (hmn : m.toNat + n.toNat < UInt64.size) (hs : s.steps = #[]) :
    run settings ps (selection.strategy sampler (m + n)) m.toNat s =
      run settings ps (selection.strategy sampler m) m.toNat s := by
  have behind (s : State (selection.Memory sampler)) : s.behind #[] = s := by
    rw [State.behind, Array.empty_append]
  have hrun : run settings ps (selection.strategy sampler (m + n)) m.toNat (s.behind #[]) =
      ((run settings ps (selection.strategy sampler m) m.toNat s).1.behind #[],
        (run settings ps (selection.strategy sampler m) m.toNat s).2) := by
    refine run_behind (Selection.choose_eq (m + n) m) fun k g memory _ hlt => ?_
    rw [hs] at hlt
    rw [Array.size_empty, Nat.zero_add] at hlt ⊢
    exact continues_below hmn k hlt g memory
  rw [behind, behind] at hrun
  exact hrun

theorem run_second (hmn : m.toNat + n.toNat < UInt64.size) (ht : t.steps.size = m.toNat) (rounds : Nat) :
    run settings ps (selection.strategy sampler (m + n)) rounds t =
      ((run settings ps (selection.strategy sampler n) rounds { t with steps := #[] }).1.behind t.steps,
        (run settings ps (selection.strategy sampler n) rounds { t with steps := #[] }).2) := by
  have behind : t = State.behind t.steps { t with steps := #[] } := by
    rw [State.behind, Array.append_empty]
  rw [behind]
  refine run_behind (Selection.choose_eq (m + n) n) fun k g memory _ _ => ?_
  rw [ht]
  exact continues_shift hmn k g memory

/-- A selected strategy that wants a step ends the run there only when nothing occurs, or the search or the application
fails or never ends; or when what is drawn is out of range. -/
theorem ending_of_wanted {s' : State (selection.Memory sampler)} (hlt : s'.steps.size < m.toNat)
    (h : round settings ps (selection.strategy sampler m) s' = (t, some ending)) :
    ending = .stopped .exhausted ∨ (∃ e, ending = .failed e) ∨ ending = .endless ∨
      ending = .stopped .declined ∧ selection = .random ∧ ¬ sampler.StaysBelow := by
  rcases ended_cases h with ⟨-, hstop⟩ | hexhausted | ⟨hdeclined, offer, memory, hne, hnone⟩ | hfailed | hendless
  · rw [Selection.continues_eq] at hstop
    exact absurd hlt (of_decide_eq_false hstop)
  · exact .inl hexhausted
  · refine .inr (.inr (.inr ⟨hdeclined, Classical.not_imp.mp fun below => ?_⟩))
    obtain ⟨o, ho⟩ := Selection.exists_chosen below m memory hne
    rw [hnone] at ho
    cases ho
  · exact .inr (.inl hfailed)
  · exact .inr (.inr (.inl hendless))

/-- A derivation with the caps `m` and `n` together is one with `m` and, if it stops there, another one with `n` that
goes on from the graph and the memory that the first leaves: the steps come one after another, and graph, ending and
memory are those of the second. If the first ends earlier, for want of occurrences, by an error or with an application
that never ends, it is the whole; so it is if a sampler draws what is not on offer. -/
theorem runCapped_resume (sampler : Random.Sampler) (selection : Selection) (settings : SearchSettings)
    (ps : List Production) (g : Graph) (memory : selection.Memory sampler) (m n : UInt64)
    (hmn : m.toNat + n.toNat < UInt64.size) :
    let first := runCapped settings ps m (selection.strategy sampler m) memory g
    let second := runCapped settings ps n (selection.strategy sampler n) first.2 first.1.graph
    let whole := runCapped settings ps (m + n) (selection.strategy sampler (m + n)) memory g
    (first.1.ending = .stopped .halted ∧
      whole = (⟨second.1.graph, first.1.steps ++ second.1.steps, second.1.ending⟩, second.2)) ∨
    ((first.1.ending = .stopped .exhausted ∨ (∃ e, first.1.ending = .failed e) ∨ first.1.ending = .endless ∨
        first.1.ending = .stopped .declined ∧ selection = .random ∧ ¬ sampler.StaysBelow) ∧
      whole = first) := by
  have hadd := toNat_add_caps hmn
  have hwhole : run settings ps (selection.strategy sampler (m + n)) (m.toNat + (n.toNat + 1))
      { graph := g, memory := memory } = _ := run_add m.toNat (n.toNat + 1) _
  have hfirst : run settings ps (selection.strategy sampler m) (m.toNat + 1) { graph := g, memory := memory } = _ :=
    run_add m.toNat 1 _
  rw [run_first hmn rfl] at hwhole
  simp only [runCapped, hadd, Nat.add_assoc, hwhole, hfirst]
  rcases hrun : run settings ps (selection.strategy sampler m) m.toNat { graph := g, memory := memory } with ⟨t, ending⟩
  by_cases hend : ending = .unfinished
  · -- All rounds of the first part are steps, and one more round finds that the cap is reached.
    subst hend
    obtain ⟨hsize, -⟩ := size_of_unfinished Selection.cappedBy (Nat.zero_le _) hrun
    have ht : t.steps.size = m.toNat := by
      rw [hsize]
      exact Nat.zero_add _
    have halted : run settings ps (selection.strategy sampler m) 1 t = (t, .stopped .halted) := by
      rw [run, round, Selection.continues_eq, ht, decide_eq_false (Nat.lt_irrefl _)]
    left
    simp only [halted, run_second hmn ht, State.behind, Array.toList_append, and_self]
  · -- The first part is finished before its cap, and the whole is finished there as well.
    obtain ⟨s', hlt, hround⟩ := exists_last_round hrun hend
    rw [Array.size_empty, Nat.zero_add] at hlt
    right
    cases ending with
    | unfinished => exact absurd rfl hend
    | stopped | failed | endless => exact ⟨ending_of_wanted hlt hround, rfl⟩

section

/-- Gives a vertex another one like itself. -/
def sprouting : Production where
  lhs := (Graph.empty.addVertex ⟨⟨"r"⟩, ⟨"R"⟩⟩).1
  rhs := (Graph.empty.addEdge ⟨⟨"r"⟩, ⟨"R"⟩⟩ ⟨⟨"s"⟩, ⟨"R"⟩⟩).1

def seedling : Graph := (Graph.empty.addVertex ⟨⟨"root"⟩, ⟨"R"⟩⟩).1

/-- A random derivation of one step, and another one that goes on from what it leaves. -/
def randomStep : Outcome × Selection.random.Memory .keystream :=
  runCapped {} [sprouting] 1 (Selection.random.strategy .keystream 1) (Selection.random.memory .keystream 7) seedling

def nextRandomStep : Outcome × Selection.random.Memory .keystream :=
  runCapped {} [sprouting] 1 (Selection.random.strategy .keystream 1) randomStep.2 randomStep.1.graph

/-- Two random steps, the second of them with the word behind the one that the first took. -/
theorem runCapped_resume_sprouting :
    (1 : UInt64).toNat + (1 : UInt64).toNat < UInt64.size ∧ randomStep.1.ending = .stopped .halted ∧
      nextRandomStep.1.steps.length = 1 ∧
      runCapped {} [sprouting] (1 + 1) (Selection.random.strategy .keystream (1 + 1))
          (Selection.random.memory .keystream 7) seedling =
        (⟨nextRandomStep.1.graph, randomStep.1.steps ++ nextRandomStep.1.steps, nextRandomStep.1.ending⟩,
          nextRandomStep.2) := by
  have hmn : (1 : UInt64).toNat + (1 : UInt64).toNat < UInt64.size := by decide
  have parts : randomStep.1.ending = .stopped .halted ∧ nextRandomStep.1.steps.length = 1 := by decide +kernel
  refine ⟨hmn, parts.1, parts.2, ?_⟩
  rcases runCapped_resume .keystream .random {} [sprouting] seedling (Selection.random.memory .keystream 7) 1 1 hmn with
    ⟨-, hwhole⟩ | ⟨hended, -⟩
  · exact hwhole
  · have hended : randomStep.1.ending = .stopped .exhausted ∨ (∃ e, randomStep.1.ending = .failed e) ∨
        randomStep.1.ending = .endless ∨ randomStep.1.ending = .stopped .declined ∧ _ := hended
    simp [parts.1] at hended

end

end GraphGrammar.Derivation
