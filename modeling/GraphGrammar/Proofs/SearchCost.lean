import Mathlib.Algebra.BigOperators.Fin
import Mathlib.Data.Set.Card
import GraphGrammar.Proofs.FindAll

/-!
# What a search costs

A search for all embeddings tries every candidate of a vertex once for each embedding of the vertices placed before
it, whether the candidate is accepted or not. So its cost is a sum over the plan, in which only the order of the
plan matters and nothing of the search is left (`searchCost`).
-/

namespace GraphGrammar

def candidateCount (pattern host : Graph) (x : VertexId) : Nat :=
  host.vertices.countP fun v => pattern.label? x = some v.label

/-- The candidates for the vertices of the pattern in the given order: as many as there are host vertices with the
label, for each embedding of the vertices before. -/
noncomputable def searchCost (pattern host : Graph) (order : List VertexId) : Nat :=
  ∑ d : Fin order.length,
    {m | IsPartialEmbedding pattern host (order.take d) m}.ncard * candidateCount pattern host order[d]

variable {pattern host : Graph} {plan : List Placement} {placed : Placed} {placedIds : List VertexId}
  {order : List Pending}

/-! ## Counting along the plan -/

theorem SearchEvent.tries_append (es es' : List SearchEvent) :
    tries (es ++ es') none = tries es none + tries es' none := by
  induction es with
  | nil => simp [tries]
  | cons e es ih =>
    cases e with
    | tried => simp only [List.cons_append, tries, ih]; omega
    | found m => simpa only [List.cons_append, tries, Option.map_none] using ih

/-- Each candidate counts once, and where it is accepted the rest of the plan counts behind it. -/
theorem tries_candidates {p : Placement} {cost : Placed → Fin plan.length → Nat}
    (rest : ∀ placed, SearchEvent.tries (events host plan placed) none = ∑ d, cost placed d) (cs : List VertexId) :
    SearchEvent.tries (cs.flatMap fun c => .tried ::
        if p.accepts host placed c then events host plan (placed ++ [(p.pattern, c)]) else []) none =
      cs.length + ∑ d, (cs.map fun c =>
        if p.accepts host placed c then cost (placed ++ [(p.pattern, c)]) d else 0).sum := by
  induction cs with
  | nil => simp [SearchEvent.tries]
  | cons c cs ih =>
    rw [List.flatMap_cons, SearchEvent.tries_append, ih]
    simp only [List.map_cons, List.sum_cons, Finset.sum_add_distrib, List.length_cons, SearchEvent.tries]
    split
    · rw [rest]
      omega
    · simp [SearchEvent.tries]
      omega

theorem length_completions_cons {p : Placement} :
    (completions host (p :: plan) placed).length = (p.candidates.map fun c =>
      if p.accepts host placed c then (completions host plan (placed ++ [(p.pattern, c)])).length else 0).sum := by
  rw [completions, List.length_flatMap]
  refine congrArg List.sum (List.map_congr_left fun c _ => ?_)
  split <;> rfl

/-- Without a quota, each way to place the first vertices has all candidates of the next one tried. -/
theorem tries_events : SearchEvent.tries (events host plan placed) none =
    ∑ d : Fin plan.length, (completions host (plan.take d) placed).length * plan[d].candidates.length := by
  induction plan generalizing placed with
  | nil => rfl
  | cons p plan ih =>
    have first : (completions host ((p :: plan).take 0) placed).length * p.candidates.length =
        p.candidates.length := by
      rw [List.take_zero, completions, List.length_singleton, Nat.one_mul]
    have later (d : Fin plan.length) : (completions host ((p :: plan).take (d + 1)) placed).length =
        (p.candidates.map fun c => if p.accepts host placed c then
          (completions host (plan.take d) (placed ++ [(p.pattern, c)])).length else 0).sum := by
      rw [List.take_succ_cons, length_completions_cons]
    rw [events, tries_candidates fun placed => ih]
    change _ = ∑ d : Fin (plan.length + 1), _
    rw [Fin.sum_univ_succ]
    refine congrArg₂ (· + ·) first.symm (Finset.sum_congr rfl fun d _ => ?_)
    change _ = (completions host ((p :: plan).take (d + 1)) placed).length * plan[d].candidates.length
    rw [later, ← List.sum_map_mul_right]
    refine congrArg List.sum (List.map_congr_left fun c _ => ?_)
    split
    · rfl
    · exact (Nat.zero_mul _).symm

/-! ## Counting by partial embeddings -/

theorem candidateCount_eq {x : VertexId} {l : Label} (hx : pattern.label? x = some l) :
    candidateCount pattern host x = (host.withLabel l).length := by
  rw [candidateCount, hx, Graph.withLabel, List.length_map, List.countP_eq_length_filter]
  simp only [Option.some.injEq, eq_comm]

theorem ncard_partial (hp : pattern.Keyed) (hh : host.Keyed) (sub : order.Subperm (candidatesOf pattern host)) :
    {m | IsPartialEmbedding pattern host (order.map (·.pattern)) m}.ncard =
      (completions host (arrange pattern [] order) []).length := by
  have listed : {m | IsPartialEmbedding pattern host (order.map (·.pattern)) m} =
      (((completions host (arrange pattern [] order) []).map Mapping.ofList).toFinset : Set Mapping) := by
    ext m
    rw [Set.mem_ofPred_eq, List.coe_toFinset, Set.mem_ofPred_eq, mem_completions_partial hp hh sub]
  rw [listed, Set.ncard_coe_finset, List.toFinset_card_of_nodup (nodup_completions_arrange hp hh sub), List.length_map]

/-- The candidates that are tried along a plan are the cost of its order. -/
theorem tries_arrange (hp : pattern.Keyed) (hh : host.Keyed) (perm : order.Perm (candidatesOf pattern host)) :
    SearchEvent.tries (events host (arrange pattern [] order) []) none =
      searchCost pattern host ((arrange pattern [] order).map (·.pattern)) := by
  rw [tries_events, searchCost]
  refine Fintype.sum_equiv (finCongr (List.length_map _).symm) _ _ fun d => ?_
  have sub : (order.take d).Subperm (candidatesOf pattern host) :=
    (List.take_sublist d order).subperm.trans perm.subperm
  have count : candidateCount pattern host (arrange pattern [] order)[d].pattern =
      (arrange pattern [] order)[d].candidates.length := by
    obtain ⟨q, hq, hpattern, hc⟩ := exists_pending_of_mem_arrange (List.getElem_mem d.isLt)
    obtain ⟨l, hl, hlabel⟩ := (mem_candidatesOf hp).mp (perm.mem_iff.mp hq)
    rw [Fin.getElem_fin, hpattern, hc, hlabel]
    exact candidateCount_eq hl
  simp only [finCongr_apply, Fin.val_cast, Fin.getElem_fin, List.getElem_map, ← List.map_take] at count ⊢
  rw [take_arrange, map_pattern_arrange, ncard_partial hp hh sub, count]

theorem searchTries_none (hp : pattern.Keyed) (hh : host.Keyed) (h : plan? pattern host = some plan) :
    searchTries pattern host none = searchCost pattern host (plan.map (·.pattern)) := by
  obtain ⟨order, perm, rfl⟩ := plan?_eq_some hp h
  rw [searchTries, ← tries_arrange hp hh perm, h]
  split
  · next hempty =>
    -- Without vertices there is nothing to place, and the plan costs nothing either.
    have none : order.map (·.pattern) = [] := by
      refine List.eq_nil_iff_forall_not_mem.mpr fun x hx => ?_
      rw [(perm.map _).mem_iff, map_pattern_candidatesOf hp, Graph.mem_ids, Graph.isEmpty_iff.mp hempty] at hx
      cases hx
    rw [List.map_eq_nil_iff.mp none]
    rfl
  · rfl

/-- Where each label of the pattern occurs there is a plan, which places each vertex once, and a search for all
embeddings succeeds exactly when its budget covers the cost of the order of the plan. -/
theorem findAll_cost (hp : pattern.Keyed) (hh : host.Keyed)
    (labels : ∀ x l, pattern.label? x = some l → ∃ z, host.label? z = some l)
    (limit : UInt64) (hlt : limit.toNat < UInt64.size - 1) :
    ∃ plan, plan? pattern host = some plan ∧ (plan.map (·.pattern)).Perm pattern.ids ∧
      ((∃ ms, findAll { stepLimit := some limit } pattern host = .ok ms) ↔
        searchCost pattern host (plan.map (·.pattern)) ≤ limit.toNat) ∧
      (limit.toNat < searchCost pattern host (plan.map (·.pattern)) →
        findAll { stepLimit := some limit } pattern host = .error (.searchBudgetExhausted (limit + 1))) := by
  cases hplan : plan? pattern host with
  | none =>
    obtain ⟨x, l, hx, hnone⟩ := (exists_missing_iff hp).mp (plan?_eq_none.mp hplan)
    obtain ⟨z, hz⟩ := labels x l hx
    rw [← hh.mem_withLabel, hnone] at hz
    cases hz
  | some plan =>
    have order : (plan.map (·.pattern)).Perm pattern.ids := by
      obtain ⟨order, perm, rfl⟩ := plan?_eq_some hp hplan
      have ids : (candidatesOf pattern host).map (·.pattern) = pattern.ids := map_pattern_candidatesOf hp
      rw [map_pattern_arrange, ← ids]
      exact perm.map _
    have affords (n : Nat) : SearchLimits.Affords { stepLimit := some limit } n ↔ n ≤ limit.toNat := by
      refine ⟨fun h => h limit rfl hlt, fun h limit' hl _ => ?_⟩
      cases hl
      exact h
    have settled : SearchLimits.Settles { stepLimit := some limit } (searchTries pattern host none)
        (embeddings pattern host) (findAll { stepLimit := some limit } pattern host) := findAll_settles _
    rw [searchTries_none hp hh hplan] at settled
    refine ⟨plan, rfl, order, ⟨?_, ?_⟩, ?_⟩
    · intro h
      obtain ⟨ms, h⟩ := h
      exact (affords _).mp (settled.affords_of_ok h)
    · intro h
      exact ⟨_, settled.found ((affords _).mpr h)⟩
    · intro h
      obtain ⟨e, ⟨limit', hl, -, rfl⟩, he⟩ := settled.exhausted (by rw [affords]; omega)
      cases hl
      exact he

/-- An edge has six candidates tried in a pair of vertices with edges both ways: two for one end, and for each of
them two for the other. -/
theorem findAll_cost_plainEdge :
    plainEdge.Keyed ∧ loopedPair.Keyed ∧ (∀ x l, plainEdge.label? x = some l → ∃ z, loopedPair.label? z = some l) ∧
      ∃ plan, plan? plainEdge loopedPair = some plan ∧
        searchCost plainEdge loopedPair (plan.map (·.pattern)) = 6 ∧
        findAll { stepLimit := some 5 } plainEdge loopedPair = .error (.searchBudgetExhausted 6) := by
  have hp : plainEdge.Keyed := (Graph.WellFormed.empty.addEdge _ _).keyed
  have candidates : ∀ v ∈ plainEdge.vertices, loopedPair.withLabel v.label ≠ [] := by decide +kernel
  have labels : ∀ x l, plainEdge.label? x = some l → ∃ z, loopedPair.label? z = some l := by
    intro x l hx
    obtain ⟨z, hz⟩ := List.exists_mem_of_ne_nil _ (candidates ⟨x, l⟩ (hp.mem_vertices.mpr hx))
    exact ⟨z, loopedPair_keyed.mem_withLabel.mp hz⟩
  obtain ⟨plan, hplan, -, six, -⟩ := findAll_cost hp loopedPair_keyed labels 6 (by decide)
  obtain ⟨plan', hplan', -, five, -⟩ := findAll_cost hp loopedPair_keyed labels 5 (by decide)
  obtain rfl : plan = plan' := Option.some.inj (hplan.symm.trans hplan')
  have enough : (findAll { stepLimit := some 6 } plainEdge loopedPair).isOk = true := by decide +kernel
  have short : findAll { stepLimit := some 5 } plainEdge loopedPair = .error (.searchBudgetExhausted 6) := by
    decide +kernel
  have le : searchCost plainEdge loopedPair (plan.map (·.pattern)) ≤ 6 := by
    cases h : findAll { stepLimit := some 6 } plainEdge loopedPair with
    | error e => rw [h] at enough; cases enough
    | ok ms => exact six.mp ⟨ms, h⟩
  have gt : ¬ searchCost plainEdge loopedPair (plan.map (·.pattern)) ≤ 5 := by
    intro hle
    obtain ⟨ms, h⟩ := five.mpr hle
    rw [short] at h
    cases h
  exact ⟨hp, loopedPair_keyed, labels, plan, hplan, by omega, short⟩

end GraphGrammar
