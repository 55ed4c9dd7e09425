import GraphGrammar.Proofs.Failures
import GraphGrammar.Proofs.FindAll

/-!
# Occurrences on offer

What the search finds under any limits is an embedding, and the validator accepts exactly the embeddings. So each
occurrence that is found for a list of productions is accepted, and finding them fails for the budget alone. Without
limits it never fails, and what is accepted is found. The productions come in their order, each occurrence once.
-/

namespace GraphGrammar

variable {settings : SearchSettings} {ps : List Production} {p : Production} {host : Graph} {index : Nat}
  {o : Occurrence} {offer : List Occurrence} {e : Error}

namespace SearchSettings

/-! ## Occurrences of one production -/

theorem mem_of_occurrencesOf (h : settings.occurrencesOf host p index = .ok offer) (ho : o ∈ offer) :
    o.index = index ∧ o.production = p ∧ o.mapping ∈ embeddings p.lhs host := by
  rw [occurrencesOf] at h
  split at h
  · cases h
    cases ho
  · obtain ⟨ms, hms, h⟩ := bind_eq_ok.mp h
    cases h
    obtain ⟨m, hm, rfl⟩ := List.mem_map.mp ho
    exact ⟨rfl, rfl, (embeddings_of_findAll hms).subset hm⟩

theorem error_of_occurrencesOf (h : settings.occurrencesOf host p index = .error e) :
    ∃ steps, e = .searchBudgetExhausted steps := by
  rw [occurrencesOf] at h
  split at h
  · cases h
  · rcases bind_eq_error.mp h with h | ⟨ms, -, h⟩
    · exact error_of_findAll h
    · cases h

/-- Occurrences of the production are looked for: it is not one with an empty left side where these are skipped. -/
def Looks (settings : SearchSettings) (p : Production) : Prop :=
  ¬ (settings.skipEmptyPatterns = true ∧ p.lhs.isEmpty = true)

theorem looks_of_mem_occurrencesOf (h : settings.occurrencesOf host p index = .ok offer) (ho : o ∈ offer) :
    settings.Looks p := by
  rw [Looks, ← Bool.and_eq_true]
  intro hskip
  rw [occurrencesOf, if_pos hskip] at h
  cases h
  cases ho

theorem nodup_of_occurrencesOf (hp : p.lhs.Keyed) (hh : host.Keyed)
    (h : settings.occurrencesOf host p index = .ok offer) :
    (offer.map (·.mapping)).Nodup := by
  rw [occurrencesOf] at h
  split at h
  · cases h
    exact List.nodup_nil
  · obtain ⟨ms, hms, h⟩ := bind_eq_ok.mp h
    cases h
    have distinct : ms.Nodup := (nodup_embeddings hp hh).sublist (embeddings_of_findAll hms).sublist
    rw [List.map_map]
    exact (List.map_id ms).symm ▸ distinct

theorem occurrencesOf_unlimited (unlimited : settings.limits = {}) (looks : settings.Looks p) :
    settings.occurrencesOf host p index = .ok ((embeddings p.lhs host).map fun m => ⟨index, p, m⟩) := by
  rw [Looks, ← Bool.and_eq_true] at looks
  rw [occurrencesOf, if_neg looks, unlimited, findAll_eq_embeddings]
  rfl

theorem exists_occurrencesOf_unlimited (unlimited : settings.limits = {}) :
    ∃ offer, settings.occurrencesOf host p index = .ok offer := by
  by_cases looks : settings.Looks p
  · exact ⟨_, occurrencesOf_unlimited unlimited looks⟩
  · rw [Looks, Classical.not_not, ← Bool.and_eq_true] at looks
    exact ⟨[], by rw [occurrencesOf, if_pos looks]; rfl⟩

/-! ## Occurrences of a list -/

theorem exists_occurrencesOf (h : settings.occurrences host ps = .ok offer) (ho : o ∈ offer) :
    ps[o.index]? = some o.production ∧
      ∃ offer', settings.occurrencesOf host o.production o.index = .ok offer' ∧ o ∈ offer' := by
  obtain ⟨offers, hoffers, h⟩ := bind_eq_ok.mp h
  cases h
  obtain ⟨offer', hoffer, ho⟩ := List.mem_flatten.mp ho
  obtain ⟨⟨p, index⟩, hp, hof⟩ := exists_of_mem_forall₂ (mapM_eq_ok.mp hoffers) hoffer
  obtain ⟨rfl, rfl, -⟩ := mem_of_occurrencesOf hof ho
  exact ⟨List.mk_mem_zipIdx_iff_getElem?.mp hp, offer', hof, ho⟩

theorem mem_of_occurrences (h : settings.occurrences host ps = .ok offer) (ho : o ∈ offer) :
    ps[o.index]? = some o.production ∧ o.mapping ∈ embeddings o.production.lhs host := by
  obtain ⟨hp, _, hof, ho⟩ := exists_occurrencesOf h ho
  exact ⟨hp, (mem_of_occurrencesOf hof ho).2.2⟩

theorem validate_of_mem_occurrences (hps : ∀ p ∈ ps, p.lhs.WellFormed) (hh : host.Keyed)
    (h : settings.occurrences host ps = .ok offer) (ho : o ∈ offer) :
    o.production.validate host o.mapping = .ok () := by
  obtain ⟨hp, hm⟩ := mem_of_occurrences h ho
  have wellFormed := hps _ (List.mem_of_getElem? hp)
  rw [Production.validate_iff wellFormed.keyed, ← mem_embeddings wellFormed hh]
  exact hm

theorem exists_occurrencesOf_error (h : settings.occurrences host ps = .error e) :
    ∃ p index, settings.occurrencesOf host p index = .error e := by
  rcases bind_eq_error.mp h with h | ⟨offers, -, h⟩
  · obtain ⟨⟨p, index⟩, -, hfail⟩ := exists_error_of_mapM h
    exact ⟨p, index, hfail⟩
  · cases h

theorem error_of_occurrences (h : settings.occurrences host ps = .error e) :
    ∃ steps, e = .searchBudgetExhausted steps := by
  obtain ⟨p, index, hfail⟩ := exists_occurrencesOf_error h
  exact error_of_occurrencesOf hfail

theorem looks_of_mem_occurrences (h : settings.occurrences host ps = .ok offer) (ho : o ∈ offer) :
    settings.Looks o.production := by
  obtain ⟨-, _, hof, ho⟩ := exists_occurrencesOf h ho
  exact looks_of_mem_occurrencesOf hof ho

/-- Occurrences of an earlier production come first, and those of one production have different mappings. -/
theorem occurrences_ordered (hps : ∀ p ∈ ps, p.lhs.WellFormed) (hh : host.Keyed)
    (h : settings.occurrences host ps = .ok offer) :
    offer.Pairwise fun o o' => o.index < o'.index ∨ o.index = o'.index ∧ o.mapping ≠ o'.mapping := by
  obtain ⟨offers, hoffers, h⟩ := bind_eq_ok.mp h
  cases h
  have found := mapM_eq_ok.mp hoffers
  have indices : ps.zipIdx.Pairwise fun e e' => e.2 < e'.2 := by
    rw [← List.pairwise_map (f := Prod.snd), List.zipIdx_map_snd]
    exact List.pairwise_lt_range'
  rw [List.pairwise_flatten]
  refine ⟨fun offer hoffer => ?_, ?_⟩
  · obtain ⟨⟨p, index⟩, hp, hof⟩ := exists_of_mem_forall₂ found hoffer
    have keyed := (hps p (List.mem_of_getElem? (List.mk_mem_zipIdx_iff_getElem?.mp hp))).keyed
    refine (List.pairwise_map.mp (nodup_of_occurrencesOf keyed hh hof)).imp_of_mem
      fun {o o'} ho ho' hne => .inr ⟨?_, hne⟩
    rw [(mem_of_occurrencesOf hof ho).1, (mem_of_occurrencesOf hof ho').1]
  · refine pairwise_of_forall₂ found indices fun e e' offer offer' hof hof' hlt o ho o' ho' => .inl ?_
    rw [(mem_of_occurrencesOf hof ho).1, (mem_of_occurrencesOf hof' ho').1]
    exact hlt

theorem occurrences_unlimited (unlimited : settings.limits = {}) :
    ∃ offer, settings.occurrences host ps = .ok offer ∧ ∀ i p m, ps[i]? = some p → settings.Looks p →
      m ∈ embeddings p.lhs host → ⟨i, p, m⟩ ∈ offer := by
  cases h : settings.occurrences host ps with
  | error e =>
    obtain ⟨p, index, hfail⟩ := exists_occurrencesOf_error h
    have succeeds : ∃ offer, settings.occurrencesOf host p index = .ok offer :=
      exists_occurrencesOf_unlimited unlimited
    obtain ⟨offer, hof⟩ := succeeds
    cases hof.symm.trans hfail
  | ok offer =>
    obtain ⟨offers, hoffers, h⟩ := bind_eq_ok.mp h
    cases h
    refine ⟨offers.flatten, rfl, fun i p m hp looks hm => ?_⟩
    obtain ⟨offer, hoffer, hof⟩ :=
      exists_of_mem_forall₂ (mapM_eq_ok.mp hoffers).flip (List.mk_mem_zipIdx_iff_getElem?.mpr hp)
    have all : settings.occurrencesOf host p i = .ok offer := hof
    rw [occurrencesOf_unlimited unlimited looks, Except.ok.injEq] at all
    subst all
    exact List.mem_flatten.mpr ⟨_, hoffer, List.mem_map.mpr ⟨m, hm, rfl⟩⟩

/-- Finding and judging agree. Under any limits, what is found for a list of productions comes by production and each
occurrence once, with the production at its index, not for a production that is to be skipped, and is accepted. Without
limits something is returned, and every mapping that is accepted for a production of the list is found. -/
theorem occurrences_iff_accepted (hh : host.Keyed) (hps : ∀ p ∈ ps, p.lhs.WellFormed) :
    (∀ offer, settings.occurrences host ps = .ok offer →
      (offer.map (·.index)).Pairwise (· ≤ ·) ∧ (offer.map fun o => (o.index, o.mapping)).Nodup ∧
        ∀ o ∈ offer, ps[o.index]? = some o.production ∧ settings.Looks o.production ∧
          o.production.validate host o.mapping = .ok ()) ∧
      (settings.stepLimit = none → settings.maxMatches = none →
        ∃ offer, settings.occurrences host ps = .ok offer ∧
          ∀ i p m, ps[i]? = some p → settings.Looks p → p.validate host m = .ok () → ⟨i, p, m⟩ ∈ offer) := by
  refine ⟨fun offer h => ⟨?_, ?_, fun o ho => ?_⟩, fun steps quota => ?_⟩
  · rw [List.pairwise_map]
    refine (occurrences_ordered hps hh h).imp fun {o o'} hoo => ?_
    omega
  · rw [List.Nodup, List.pairwise_map]
    refine (occurrences_ordered hps hh h).imp fun {o o'} hoo heq => ?_
    rw [Prod.mk.injEq] at heq
    rcases hoo with hlt | ⟨-, hne⟩
    · omega
    · exact hne heq.2
  · exact ⟨(mem_of_occurrences h ho).1, looks_of_mem_occurrences h ho, validate_of_mem_occurrences hps hh h ho⟩
  · have unlimited : settings.limits = {} := by rw [limits, steps, quota]
    have search : ∃ offer, settings.occurrences host ps = .ok offer ∧ _ := occurrences_unlimited unlimited
    obtain ⟨offer, h, complete⟩ := search
    refine ⟨offer, h, fun i p m hp looks hm => complete i p m hp looks ?_⟩
    have wellFormed := hps p (List.mem_of_getElem? hp)
    rw [mem_embeddings wellFormed hh, ← Production.validate_iff wellFormed.keyed]
    exact hm

section

/-- Puts an edge anywhere. -/
def sowEdge : Production where
  lhs := ∅
  rhs := plainEdge

def dropEdge : Production where
  lhs := plainEdge
  rhs := (plainEdge.eraseEdge ⟨"x"⟩ ⟨"y"⟩).1

/-- The production with the empty left side is skipped, and the one that is listed twice is found twice at each place
where it is accepted. -/
theorem occurrences_iff_accepted_repeated :
    let settings : SearchSettings := { skipEmptyPatterns := true }
    let ps := [sowEdge, dropEdge, dropEdge]
    loopedPair.Keyed ∧ (∀ p ∈ ps, p.lhs.WellFormed) ∧ settings.stepLimit = none ∧ settings.maxMatches = none ∧
      ∃ offer, settings.occurrences loopedPair ps = .ok offer ∧ offer.map (·.index) = [1, 1, 2, 2] ∧
        (offer.map fun o => (o.index, o.mapping)).Nodup ∧
        (∀ o ∈ offer, o.production.validate loopedPair o.mapping = .ok ()) ∧
        ∀ m, dropEdge.validate loopedPair m = .ok () → ⟨2, dropEdge, m⟩ ∈ offer := by
  intro settings ps
  have hps : ∀ p ∈ ps, p.lhs.WellFormed := by
    intro p hp
    rcases List.mem_cons.mp hp with rfl | hp
    · exact .empty
    · obtain rfl : p = dropEdge := by simpa using hp
      exact Graph.WellFormed.empty.addEdge _ _
  obtain ⟨sound, complete⟩ := @occurrences_iff_accepted settings ps loopedPair loopedPair_keyed hps
  obtain ⟨offer, h, found⟩ := complete rfl rfl
  obtain ⟨-, nodup, accepted⟩ := sound offer h
  have run : (settings.occurrences loopedPair ps).map (List.map (·.index)) = .ok [1, 1, 2, 2] := by decide +kernel
  rw [h, Except.map, Except.ok.injEq] at run
  have looks : settings.Looks dropEdge := not_and_of_not_right _ (by decide +kernel)
  exact ⟨loopedPair_keyed, hps, rfl, rfl, offer, h, run, nodup, fun o ho => (accepted o ho).2.2,
    fun m hm => found 2 dropEdge m rfl looks hm⟩

end

end SearchSettings
end GraphGrammar
