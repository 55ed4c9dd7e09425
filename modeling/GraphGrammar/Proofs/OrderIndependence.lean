import GraphGrammar.Proofs.Rounds
import GraphGrammar.Proofs.SearchView
import GraphGrammar.Proofs.Session
import GraphGrammar.Random.Draw

/-!
# Derivations do not depend on the order of edges

Two derivations go on side by side, with similar productions from similar graphs. They are offered the same
occurrences, a strategy that looks at nothing but what is the same chooses alike, and one application keeps the graphs
similar. So rounds correspond to rounds, and the two end alike.
-/

namespace GraphGrammar

variable {p p' : Production} {ps ps' : List Production} {host host' : Graph} {offer offer' : List Occurrence}
  {settings : SearchSettings}

/-! ## Occurrences -/

/-- The occurrences are at one place in two lists and map alike, of productions that are similar. -/
structure Occurrence.Similar (o o' : Occurrence) : Prop where
  index : o.index = o'.index
  production : o.production.Similar o'.production
  mapping : o.mapping = o'.mapping

theorem forall₂_zipIdx {α β : Type} {R : α → β → Prop} {l : List α} {l' : List β} (h : List.Forall₂ R l l') (n : Nat) :
    List.Forall₂ (fun a b => R a.1 b.1 ∧ a.2 = b.2) (l.zipIdx n) (l'.zipIdx n) := by
  induction h generalizing n with
  | nil => exact .nil
  | cons hd _ ih => exact .cons ⟨hd, rfl⟩ (ih (n + 1))

theorem getElem?_cases {α β : Type} {R : α → β → Prop} {l : List α} {l' : List β} (h : List.Forall₂ R l l') (n : Nat) :
    (l[n]? = none ∧ l'[n]? = none) ∨ ∃ a b, l[n]? = some a ∧ l'[n]? = some b ∧ R a b := by
  induction h generalizing n with
  | nil => exact .inl ⟨rfl, rfl⟩
  | cons hd _ ih =>
    cases n with
    | zero => exact .inr ⟨_, _, rfl, rfl, hd⟩
    | succ n => exact ih n

namespace SearchSettings

theorem occurrencesOf_alike (hp : p.Similar p') (h : host.SameContent host') (index : Nat) :
    Alike (List.Forall₂ Occurrence.Similar) (settings.occurrencesOf host p index)
      (settings.occurrencesOf host' p' index) := by
  rw [occurrencesOf, occurrencesOf, hp.lhs.isEmpty, hp.lhs.findAll_eq h]
  split
  · exact .ok .nil
  · cases findAll settings.limits p'.lhs host' with
    | error e => exact .error e
    | ok ms =>
      refine .ok (List.forall₂_map_left_iff.mpr (List.forall₂_map_right_iff.mpr (List.forall₂_same.mpr fun m _ => ?_)))
      exact ⟨rfl, hp, rfl⟩

theorem occurrences_alike (hps : List.Forall₂ Production.Similar ps ps') (h : host.SameContent host') :
    Alike (List.Forall₂ Occurrence.Similar) (settings.occurrences host ps) (settings.occurrences host' ps') := by
  have each : List.Forall₂ (fun a b => Alike (List.Forall₂ Occurrence.Similar)
      (settings.occurrencesOf host a.1 a.2) (settings.occurrencesOf host' b.1 b.2)) ps.zipIdx ps'.zipIdx := by
    refine (forall₂_zipIdx hps 0).imp fun a b hab => ?_
    rw [hab.2]
    exact occurrencesOf_alike hab.1 h b.2
  exact (Alike.mapM each).bind fun offers offers' hoffers => .ok (List.rel_flatten hoffers)

end SearchSettings

/-! ## Strategies -/

/-- The strategy decides alike where graphs and occurrences are similar. -/
structure Strategy.Insensitive {σ : Type} (strategy : Strategy σ) : Prop where
  continues : ∀ step g g' memory, g.Similar g' → strategy.continues step g memory = strategy.continues step g' memory
  choose : ∀ offer offer' memory, List.Forall₂ Occurrence.Similar offer offer' →
    strategy.choose offer memory = strategy.choose offer' memory

/-- The strategies that settings select look at the number of steps and at the number of occurrences. -/
theorem Selection.insensitive {sampler : Random.Sampler} {selection : Selection} {cap : UInt64} :
    (selection.strategy sampler cap).Insensitive := by
  refine ⟨fun step g g' memory _ => ?_, fun offer offer' memory h => ?_⟩
  · rw [continues_eq, continues_eq]
  · have length := h.length_eq
    cases selection with
    | first => rfl
    | last =>
      simp only [strategy, Strategy.lastMatch, length]
      rfl
    | random =>
      simp only [strategy, Strategy.randomMatch, length]
      rfl

namespace Derivation

variable {σ : Type} {strategy : Strategy σ} {s s' : State σ} {o o' : Occurrence}

/-! ## One round -/

/-- The graphs are similar, and all else is the same. -/
structure State.Similar (s s' : State σ) : Prop where
  graph : s.graph.Similar s'.graph
  memory : s.memory = s'.memory
  steps : s.steps = s'.steps

/-- Rounds or runs that lead to similar states and end alike, or do not end either. -/
structure State.SimilarResults {β : Type} (r r' : State σ × β) : Prop where
  state : r.1.Similar r'.1
  ending : r.2 = r'.2

/-- What is on offer is accepted on either side, so neither application is refused. -/
theorem step_similar (hs : s.Similar s') (ho : o.Similar o') (hg : s.graph.WellFormed) (hg' : s'.graph.WellFormed)
    (hlhs : o.production.lhs.Keyed) (valid : o.production.validate s.graph o.mapping = .ok ()) :
    State.SimilarResults (s.step o) (s'.step o') := by
  have hlhs' : o'.production.lhs.Keyed := ho.production.lhs.keyed hlhs
  have valid' : o'.production.validate s'.graph o'.mapping = .ok () := by
    rw [Production.validate_iff hlhs', ← ho.mapping]
    exact ((Production.validate_iff hlhs).mp valid).of_sameContent ho.production.lhs hs.graph.toSameContent
  have results := ho.production.commit hs.graph o.mapping hg hg'
  rw [State.step, State.step, Production.apply_of_accepted valid, Production.apply_of_accepted valid', ← ho.mapping]
  rcases hrun : o.production.commit o.mapping s.graph with _ | r <;>
    rcases hrun' : o'.production.commit o.mapping s'.graph with _ | r' <;> rw [hrun, hrun'] at results <;> cases results
  · exact ⟨hs, rfl⟩
  · next similar =>
    refine ⟨⟨similar.graph, hs.memory, ?_⟩, rfl⟩
    show s.steps.push ⟨o.index, o.production.name, r.2⟩ = s'.steps.push ⟨o'.index, o'.production.name, r'.2⟩
    rw [hs.steps, ho.index, ho.production.name, similar.report]

section
variable (hps : List.Forall₂ Production.Similar ps ps') (sides : ∀ p ∈ ps, p.lhs.WellFormed)
  (insensitive : strategy.Insensitive)
include hps sides insensitive

theorem round_similar (hs : s.Similar s') (hg : s.graph.WellFormed) (hg' : s'.graph.WellFormed) :
    State.SimilarResults (round settings ps strategy s) (round settings ps' strategy s') := by
  have remembering (memory : σ) : State.Similar { s with memory := memory } { s' with memory := memory } :=
    ⟨hs.graph, rfl, hs.steps⟩
  have continues : strategy.continues s.steps.size s.graph s.memory =
      strategy.continues s'.steps.size s'.graph s'.memory := by
    rw [hs.steps, hs.memory, insensitive.continues _ _ _ _ hs.graph]
  rcases hcontinues : strategy.continues s'.steps.size s'.graph s'.memory with ⟨_ | _, memory⟩ <;>
    rw [hcontinues] at continues
  · rw [round_of_halt continues, round_of_halt hcontinues]
    exact ⟨remembering memory, rfl⟩
  have offers : Alike (List.Forall₂ Occurrence.Similar) (settings.occurrences s.graph ps)
      (settings.occurrences s'.graph ps') := SearchSettings.occurrences_alike hps hs.graph.toSameContent
  rcases offers.eq_cases with ⟨e, hoffer, hoffer'⟩ | ⟨offer, offer', hoffer, hoffer', similar⟩
  · rw [round_of_failure continues hoffer, round_of_failure hcontinues hoffer']
    exact ⟨remembering memory, rfl⟩
  by_cases hne : offer = []
  · subst hne
    cases similar
    rw [round_of_exhaustion continues hoffer, round_of_exhaustion hcontinues hoffer']
    exact ⟨remembering memory, rfl⟩
  · have hne' : offer' ≠ [] := fun hnil => hne (List.forall₂_nil_right_iff.mp (hnil ▸ similar))
    have choose := insensitive.choose offer offer' memory similar
    rcases hchoose : strategy.choose offer' memory with ⟨choice, asked⟩
    rw [hchoose] at choose
    rw [round_of_offer continues hoffer hne choose, round_of_offer hcontinues hoffer' hne' hchoose]
    cases choice with
    | none => exact ⟨remembering asked, rfl⟩
    | some n =>
      rw [Option.bind_some, Option.bind_some]
      rcases getElem?_cases similar n with ⟨hnone, hnone'⟩ | ⟨o, o', ho, ho', hsimilar⟩
      · rw [hnone, hnone']
        exact ⟨remembering asked, rfl⟩
      · rw [ho, ho']
        have hmem := List.mem_of_getElem? ho
        have hp := sides _ (List.mem_of_getElem? (SearchSettings.mem_of_occurrences hoffer hmem).1)
        exact step_similar (remembering asked) hsimilar hg hg' hp.keyed
          (SearchSettings.validate_of_mem_occurrences sides hg.keyed hoffer hmem)

theorem run_similar (rounds : Nat) (hs : s.Similar s') (hg : s.graph.WellFormed) (hg' : s'.graph.WellFormed) :
    State.SimilarResults (run settings ps strategy rounds s) (run settings ps' strategy rounds s') := by
  induction rounds generalizing s s' with
  | zero => exact ⟨hs, rfl⟩
  | succ rounds ih =>
    have similar : State.SimilarResults (round settings ps strategy s) (round settings ps' strategy s') :=
      round_similar hps sides insensitive hs hg hg'
    have hu := hg.round settings ps strategy
    have hu' := hg'.round settings ps' strategy
    rw [run, run]
    rcases hround : round settings ps strategy s with ⟨u, ending⟩
    rcases hround' : round settings ps' strategy s' with ⟨u', ending'⟩
    rw [hround] at similar hu
    rw [hround'] at similar hu'
    obtain ⟨hstate, rfl⟩ := similar
    cases ending with
    | none => exact ih hstate hu hu'
    | some ending => exact ⟨hstate, rfl⟩

end

/-! ## Whole derivations -/

/-- Similar hosts and similar productions make no difference to a derivation: the same steps are taken, with the same
summaries, the run comes to the same end, and the graphs that are left are similar. -/
theorem applyProductions_similar {g g' : Graph} (sampler : Random.Sampler) (hg : g.WellFormed) (hg' : g'.WellFormed)
    (sides : ∀ p ∈ ps, p.lhs.WellFormed) (similar : g.Similar g') (hps : List.Forall₂ Production.Similar ps ps')
    (settings : Settings) :
    (applyProductions sampler settings ps g).steps = (applyProductions sampler settings ps' g').steps ∧
      (applyProductions sampler settings ps g).ending = (applyProductions sampler settings ps' g').ending ∧
      (applyProductions sampler settings ps g).ending ≠ .unfinished ∧
      (applyProductions sampler settings ps g).graph.Similar (applyProductions sampler settings ps' g').graph := by
  rw [applyProductions, applyProductions]
  cases settings.fault? with
  | some fault => exact ⟨rfl, rfl, nofun, similar⟩
  | none =>
    dsimp only
    rw [runSelected_eq, runSelected_eq, runCapped, runCapped]
    generalize settings.derivation = d
    have start : State.Similar { graph := g, memory := d.selection.memory sampler d.seed }
        { graph := g', memory := d.selection.memory sampler d.seed } := ⟨similar, rfl, rfl⟩
    obtain ⟨state, ending⟩ := run_similar hps sides Selection.insensitive (d.maxSteps.toNat + 1) start hg hg'
    have enough : d.maxSteps.toNat < 0 + (d.maxSteps.toNat + 1) := by omega
    refine ⟨congrArg Array.toList state.steps, ending, ?_, state.graph⟩
    exact run_finishes Selection.cappedBy (Nat.zero_le _) enough

section

def star (leaves : List String) : Graph :=
  leaves.foldl (fun g name => (g.addEdge ⟨⟨"hub"⟩, ⟨"H"⟩⟩ ⟨⟨name⟩, ⟨"L"⟩⟩).1) ∅

theorem star_wellFormed {leaves : List String} : (star leaves).WellFormed :=
  List.foldlRecOn leaves _ Graph.WellFormed.empty fun _ hg _ _ => hg.addEdge _ _

/-- Puts a new leaf in the place of one of two. -/
def renewLeaf : Production := { lhs := star ["a", "b"], rhs := star ["b", "c"] }

def renewLeafReversed : Production := { lhs := star ["b", "a"], rhs := star ["c", "b"] }

def twoLastSteps : Settings := { derivation := { maxSteps := 2, selection := .last } }

/-- Both take the last occurrence twice, though one lists its edges in the opposite order. -/
theorem applyProductions_similar_stars :
    let outcome := applyProductions .keystream twoLastSteps [renewLeaf] (star ["a", "b", "c"])
    let outcome' := applyProductions .keystream twoLastSteps [renewLeafReversed] (star ["c", "b", "a"])
    (star ["a", "b", "c"]).WellFormed ∧ (star ["c", "b", "a"]).WellFormed ∧ (∀ p ∈ [renewLeaf], p.lhs.WellFormed) ∧
      (star ["a", "b", "c"]).Similar (star ["c", "b", "a"]) ∧
      List.Forall₂ Production.Similar [renewLeaf] [renewLeafReversed] ∧
      (star ["a", "b", "c"]).edges ≠ (star ["c", "b", "a"]).edges ∧
      outcome.steps = outcome'.steps ∧ outcome.ending = outcome'.ending ∧ outcome.ending ≠ .unfinished ∧
      outcome.graph.Similar outcome'.graph ∧ outcome.steps.length = 2 := by
  intro outcome outcome'
  have sides : ∀ p ∈ [renewLeaf], p.lhs.WellFormed := List.forall_mem_singleton.mpr star_wellFormed
  have similar : (star ["a", "b", "c"]).Similar (star ["c", "b", "a"]) := by decide +kernel
  have hps : List.Forall₂ Production.Similar [renewLeaf] [renewLeafReversed] := by decide +kernel
  have different : (star ["a", "b", "c"]).edges ≠ (star ["c", "b", "a"]).edges := by decide +kernel
  obtain ⟨steps, ending, finished, graph⟩ :=
    applyProductions_similar .keystream star_wellFormed star_wellFormed sides similar hps twoLastSteps
  exact ⟨star_wellFormed, star_wellFormed, sides, similar, hps, different, steps, ending, finished, graph,
    by decide +kernel⟩

end

end Derivation
end GraphGrammar
