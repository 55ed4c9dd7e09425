import GraphGrammar.Proofs.Endings
import GraphGrammar.Proofs.Summaries

/-!
# Grammars that shrink a graph

Nothing but its strategy bounds a derivation, and a strategy may want another step for ever. Where every production
deletes more vertices than it creates, the graph itself is the bound: each step leaves fewer vertices, so after as many
steps as there were vertices at first no production occurs any more. The bound holds of the loop, not of a strategy,
and it needs no room for fresh identifiers, since an application that finds none is no step. A cap above it is never
reached.
-/

namespace GraphGrammar

namespace Production

variable {p : Production} {m : Mapping} {g g' : Graph} {summary : Summary}

def Shrinks (p : Production) : Prop := p.created.length < p.deleted.length

instance : Decidable p.Shrinks := inferInstanceAs (Decidable (_ < _))

/-- All deleted vertices have an image to erase, and the created ones are added. -/
theorem vertexCount_apply (hp : p.lhs.Keyed) (h : p.apply m g = some (g', .ok summary)) :
    g'.vertexCount + p.deleted.length = g.vertexCount + p.created.length := by
  obtain ⟨hm, hcommit⟩ := apply_eq_ok.mp h
  have erased := vertexCount_rest hcommit
  rw [verticesErased_commit ((validate_iff hp).mp hm) hcommit] at erased
  calc g'.vertexCount + p.deleted.length
      = (p.rest m g).vertexCount + p.created.length + p.deleted.length := by rw [vertexCount_commit hcommit]
    _ = (p.rest m g).vertexCount + p.deleted.length + p.created.length := Nat.add_right_comm ..
    _ = g.vertexCount + p.created.length := by rw [erased]

theorem Shrinks.vertexCount_lt (shrinks : p.Shrinks) (hp : p.lhs.Keyed) (h : p.apply m g = some (g', .ok summary)) :
    g'.vertexCount < g.vertexCount := by
  have balance := vertexCount_apply hp h
  unfold Shrinks at shrinks
  omega

end Production

namespace Derivation

variable {σ : Type} {settings : SearchSettings} {ps : List Production} {strategy : Strategy σ} {s t : State σ}
  {ending : Ending} {rounds : Nat}

theorem vertexCount_round_lt (keyed : ∀ p ∈ ps, p.lhs.Keyed) (shrinking : ∀ p ∈ ps, p.Shrinks)
    (h : round settings ps strategy s = (t, none)) :
    t.graph.vertexCount < s.graph.vertexCount := by
  obtain ⟨o, summary, hchosen, happly, -⟩ := exists_applied h
  have hp : o.production ∈ ps := List.mem_of_getElem? (getElem?_of_chosen hchosen)
  exact (shrinking o.production hp).vertexCount_lt (keyed o.production hp) happly

theorem size_add_vertexCount_le (keyed : ∀ p ∈ ps, p.lhs.Keyed) (shrinking : ∀ p ∈ ps, p.Shrinks)
    (h : run settings ps strategy rounds s = (t, ending)) :
    t.steps.size + t.graph.vertexCount ≤ s.steps.size + s.graph.vertexCount := by
  -- Each step adds one to the first summand and takes one at least from the second.
  refine run_invariant (P := fun g steps => steps.size + g.vertexCount ≤ s.steps.size + s.graph.vertexCount)
    (fun u v hround hu => ?_) h (Nat.le_refl _)
  have hlt := vertexCount_round_lt keyed shrinking hround
  obtain ⟨o, summary, -, -, hsteps⟩ := exists_applied hround
  have hsize : v.steps.size = u.steps.size + 1 := by rw [hsteps, Array.size_push]
  omega

/-- Productions that shrink the graph are applied no more often than it has vertices at first, and as many vertices of
it are gone by then, whatever the strategy wants and chooses. One round more finishes the run. -/
theorem run_of_shrinking (keyed : ∀ p ∈ ps, p.lhs.Keyed) (shrinking : ∀ p ∈ ps, p.Shrinks) {g : Graph} {memory : σ}
    (h : run settings ps strategy rounds { graph := g, memory := memory } = (t, ending)) :
    t.steps.size ≤ g.vertexCount ∧ t.graph.vertexCount ≤ g.vertexCount - t.steps.size ∧
      (g.vertexCount < rounds → ending ≠ .unfinished) := by
  have hle : t.steps.size + t.graph.vertexCount ≤ 0 + g.vertexCount := size_add_vertexCount_le keyed shrinking h
  refine ⟨by omega, by omega, fun enough hend => ?_⟩
  rw [hend] at h
  have hsize : t.steps.size = 0 + rounds := size_eq_of_unfinished h
  omega

section

/-- Two vertices with the label `B` become one. -/
def merge : Production where
  lhs := ((Graph.empty.addVertex ⟨⟨"x"⟩, ⟨"B"⟩⟩).1.addVertex ⟨⟨"y"⟩, ⟨"B"⟩⟩).1
  rhs := (Graph.empty.addVertex ⟨⟨"z"⟩, ⟨"B"⟩⟩).1

/-- Three vertices with the label `B`, two of them at an edge. -/
def threeOfAKind : Graph :=
  ((Graph.empty.addEdge ⟨⟨"a"⟩, ⟨"B"⟩⟩ ⟨⟨"b"⟩, ⟨"B"⟩⟩).1.addVertex ⟨⟨"c"⟩, ⟨"B"⟩⟩).1

/-- Always goes on, and applies the first and the last occurrence by turns. -/
def restless : Strategy Bool where
  continues _ _ memory := (true, memory)
  choose offer memory := (some (if memory then 0 else offer.length - 1), !memory)

/-- Two steps leave one vertex, and nothing to merge. -/
theorem run_of_shrinking_merge :
    (∀ p ∈ [merge], p.lhs.Keyed) ∧ (∀ p ∈ [merge], p.Shrinks) ∧ threeOfAKind.vertexCount = 3 ∧ ∃ t ending,
      run {} [merge] restless 4 { graph := threeOfAKind, memory := true } = (t, ending) ∧
      t.steps.size = 2 ∧ t.steps.size ≤ threeOfAKind.vertexCount ∧
      t.graph.vertexCount ≤ threeOfAKind.vertexCount - t.steps.size ∧ ending ≠ .unfinished := by
  have keyed : ∀ p ∈ [merge], p.lhs.Keyed := by
    intro p hp
    rw [List.mem_singleton.mp hp]
    exact ((Graph.WellFormed.empty.addVertex _).addVertex _).keyed
  have shrinking : ∀ p ∈ [merge], p.Shrinks := by decide +kernel
  have count : threeOfAKind.vertexCount = 3 := by decide +kernel
  have taken : (run {} [merge] restless 4 { graph := threeOfAKind, memory := true }).1.steps.size = 2 := by
    decide +kernel
  rcases hrun : run {} [merge] restless 4 { graph := threeOfAKind, memory := true } with ⟨t, ending⟩
  rw [hrun] at taken
  obtain ⟨few, gone, finished⟩ := run_of_shrinking keyed shrinking hrun
  exact ⟨keyed, shrinking, count, t, ending, rfl, taken, few, gone, finished (by rw [count]; decide)⟩

end

/-- Under a cap above the number of vertices it is the graph that ends a derivation: if no round fails, nothing is left
to apply. -/
theorem runSelected_of_shrinking {sampler : Random.Sampler} {search : SearchSettings} {d : DerivationSettings}
    {g : Graph} {report : Report} (below : d.selection = .random → sampler.StaysBelow)
    (keyed : ∀ p ∈ ps, p.lhs.Keyed) (shrinking : ∀ p ∈ ps, p.Shrinks) (cap : g.vertexCount < d.maxSteps.toNat)
    (h : (runSelected sampler search d ps g).report? = some report) :
    report.stop = .exhausted ∧ search.occurrences (runSelected sampler search d ps g).graph ps = .ok [] := by
  have few : (runSelected sampler search d ps g).steps.length ≤ g.vertexCount := by
    rw [runSelected_eq, runCapped]
    rcases hrun : run search ps (d.selection.strategy sampler d.maxSteps) (d.maxSteps.toNat + 1)
      { graph := g, memory := d.selection.memory sampler d.seed } with ⟨t, ending⟩
    have hle : t.steps.size + t.graph.vertexCount ≤ 0 + g.vertexCount := size_add_vertexCount_le keyed shrinking hrun
    show t.steps.toList.length ≤ g.vertexCount
    rw [Array.length_toList]
    omega
  obtain ⟨hending, -⟩ := Outcome.report?_eq_some h
  obtain ⟨-, -, not_declined, halted, exhausted⟩ := endsUnder_runSelected d below search ps g
  rw [hending] at not_declined halted exhausted
  cases hstop : report.stop with
  | exhausted => exact ⟨rfl, (exhausted.mp (congrArg _ hstop)).2⟩
  | halted =>
    have capped := halted.mp (congrArg _ hstop)
    omega
  | declined => exact absurd (congrArg _ hstop) not_declined

end Derivation
end GraphGrammar
