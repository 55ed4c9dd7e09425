import GraphGrammar.Proofs.Counts
import GraphGrammar.Proofs.Draws
import GraphGrammar.Proofs.Occurrences

/-!
# The ledger of a derivation

The summaries of a derivation account for what becomes of the graph: vertices come and go by the numbers reported,
edges too, apart from those that go with an erased vertex, and each vertex that was added can be read off the mappings
under a name of its own. The account of a run is that of its steps added up.

What is assumed: wherever a name is drawn there is room for it below the largest word (`Graph.HasRoom`).
-/

namespace GraphGrammar

/-! ## Adding vertices -/

section

variable {v : Vertex} {vs : List Vertex} {s s' : Graph × Nat × Mapping} {x : VertexId}

theorem contains_foldlM_allocate (h : vs.foldlM allocate s = some s') :
    s'.1.contains x = true ↔ s.1.contains x = true ∨ x ∈ Graph.drawnNames (allocationDraws vs s) := by
  induction vs generalizing s with
  | nil =>
    cases h
    simp [allocationDraws, Graph.drawnNames]
  | cons v vs ih =>
    rw [List.foldlM_cons] at h
    obtain ⟨s₁, first, rest⟩ := Option.bind_eq_some_iff.mp h
    rw [allocationDraws, first, Option.elim_some, ih rest]
    obtain ⟨g₁, host, hfresh, rfl⟩ := allocate_eq_some.mp first
    have same : g₁.contains x = s.1.contains x := by
      obtain ⟨k, -, -, -, rfl⟩ := Graph.free_of_fresh hfresh
      rfl
    rw [Graph.contains_addVertex, same, Graph.drawnNames_cons hfresh, List.mem_cons, or_assoc]

theorem get?_foldlM_allocate (h : vs.foldlM allocate s = some s') (hx : x ∉ vs.map (·.id)) :
    s'.2.2.get? x = s.2.2.get? x := by
  refine foldlM_induction (·.2.2.get? x = s.2.2.get? x) h rfl fun t ht v hv t' ht' => ?_
  obtain ⟨g₁, host, -, rfl⟩ := allocate_eq_some.mp ht'
  have hne : x ≠ v.id := fun heq => hx (heq ▸ List.mem_map_of_mem hv)
  rw [Mapping.get?_insert, if_neg hne]
  exact ht

theorem length_drawnNames_allocate (h : vs.foldlM allocate s = some s') :
    (Graph.drawnNames (allocationDraws vs s)).length = vs.length := by
  induction vs generalizing s with
  | nil => rfl
  | cons v vs ih =>
    rw [List.foldlM_cons] at h
    obtain ⟨s₁, first, rest⟩ := Option.bind_eq_some_iff.mp h
    rw [allocationDraws, first, Option.elim_some]
    obtain ⟨g₁, host, hfresh, rfl⟩ := allocate_eq_some.mp first
    rw [Graph.drawnNames_cons hfresh, List.length_cons, ih rest, List.length_cons]

theorem images_foldlM_allocate (h : vs.foldlM allocate s = some s') (ids : (vs.map (·.id)).Nodup) :
    vs.filterMap (fun v => s'.2.2.get? v.id) = Graph.drawnNames (allocationDraws vs s) := by
  induction vs generalizing s with
  | nil => rfl
  | cons v vs ih =>
    rw [List.map_cons, List.nodup_cons] at ids
    rw [List.foldlM_cons] at h
    obtain ⟨s₁, first, rest⟩ := Option.bind_eq_some_iff.mp h
    rw [allocationDraws, first, Option.elim_some]
    obtain ⟨g₁, host, hfresh, rfl⟩ := allocate_eq_some.mp first
    have image : s'.2.2.get? v.id = some host := by
      rw [get?_foldlM_allocate rest ids.1, Mapping.get?_insert, if_pos rfl]
    rw [Graph.drawnNames_cons hfresh, List.filterMap_cons, image, ih rest ids.2]

end

/-! ## The account of some steps -/

/-- The host vertices that were created in a step, by the mapping of its right side. -/
def AppliedStep.createdNames (ps : List Production) (step : AppliedStep) : List VertexId :=
  match ps[step.index]? with
  | none => []
  | some p => p.created.filterMap fun v => step.summary.rhsMapping.get? v.id

namespace Derivation

def createdNames (ps : List Production) (steps : List AppliedStep) : List VertexId :=
  steps.flatMap (·.createdNames ps)

/-- What a number of the summaries comes to over all steps. -/
def total (count : Summary → Nat) : List AppliedStep → Nat
  | [] => 0
  | step :: steps => count step.summary + total count steps

/-- The steps account for the difference between the graph before them and the graph after them. -/
structure Ledger (ps : List Production) (g : Graph) (steps : List AppliedStep) (g' : Graph) : Prop where
  vertices : g'.vertexCount + total (·.verticesErased) steps = g.vertexCount + total (·.verticesAdded) steps
  /-- As many vertices have names as were added. -/
  named : (createdNames ps steps).length = total (·.verticesAdded) steps
  /-- No vertex comes from elsewhere. -/
  ids : ∀ x, g'.contains x = true → g.contains x = true ∨ x ∈ createdNames ps steps
  /-- More edges than reported are lost only with a vertex. -/
  edges_le : g'.edgeCount + total (·.edgesErased) steps ≤ g.edgeCount + total (·.edgesAdded) steps
  edges_eq : (∀ step ∈ steps, step.summary.verticesErased = 0) →
    g'.edgeCount + total (·.edgesErased) steps = g.edgeCount + total (·.edgesAdded) steps

variable {ps : List Production} {g g' g'' : Graph} {steps steps' : List AppliedStep}

theorem total_append {count : Summary → Nat} :
    total count (steps ++ steps') = total count steps + total count steps' := by
  induction steps with
  | nil => exact (Nat.zero_add _).symm
  | cons step steps ih => rw [List.cons_append, total, total, ih, Nat.add_assoc]

theorem createdNames_append : createdNames ps (steps ++ steps') = createdNames ps steps ++ createdNames ps steps' :=
  List.flatMap_append

namespace Ledger

theorem nil : Ledger ps g [] g := ⟨rfl, rfl, fun _ hx => .inl hx, Nat.le_refl _, fun _ => rfl⟩

theorem append (h : Ledger ps g steps g') (h' : Ledger ps g' steps' g'') : Ledger ps g (steps ++ steps') g'' := by
  obtain ⟨vertices, named, ids, edges_le, edges_eq⟩ := h
  obtain ⟨vertices', named', ids', edges_le', edges_eq'⟩ := h'
  refine ⟨?_, ?_, fun x hx => ?_, ?_, fun none => ?_⟩
  · rw [total_append, total_append]
    omega
  · rw [createdNames_append, List.length_append, total_append]
    omega
  · rw [createdNames_append, List.mem_append]
    rcases ids' x hx with hx | hx
    · exact (ids x hx).imp_right .inl
    · exact .inr (.inr hx)
  · rw [total_append, total_append]
    omega
  · rw [List.forall_mem_append] at none
    have heq := edges_eq none.1
    have heq' := edges_eq' none.2
    rw [total_append, total_append]
    omega

end Ledger

/-! ## One step -/

section

variable {p : Production} {m : Mapping} {summary : Summary} (hp : p.Keyed) (h : p.commit m g = some (g', summary))
include h

theorem length_drawnNames_commit : (Graph.drawnNames (p.commitDraws m g)).length = p.created.length := by
  obtain ⟨g₃, n, r, hrun, -, -⟩ := Production.commit_eq_some.mp h
  exact length_drawnNames_allocate hrun

theorem contains_commit {x : VertexId} (hx : g'.contains x = true) :
    g.contains x = true ∨ x ∈ Graph.drawnNames (p.commitDraws m g) := by
  obtain ⟨g₃, n, r, hrun, rfl, -⟩ := Production.commit_eq_some.mp h
  rw [Production.addEdges_fst, Graph.contains_foldl_connect, contains_foldlM_allocate hrun] at hx
  exact hx.imp_left fun hrest => (Production.contains_rest.mp hrest).1

include hp

theorem images_commit :
    p.created.filterMap (fun v => summary.rhsMapping.get? v.id) = Graph.drawnNames (p.commitDraws m g) := by
  obtain ⟨g₃, n, r, hrun, -, rfl⟩ := Production.commit_eq_some.mp h
  exact images_foldlM_allocate hrun (Production.nodup_created hp)

variable {index : Nat} {name : Option String} (hindex : ps[index]? = some p)
include hindex

theorem createdNames_commit :
    createdNames ps [⟨index, name, summary⟩] = Graph.drawnNames (p.commitDraws m g) := by
  rw [createdNames, List.flatMap_singleton, AppliedStep.createdNames, hindex]
  exact images_commit hp h

/-- The account of an application is the sum of what its phases report. -/
theorem ledger_commit (hg : g.WellFormed) : Ledger ps g [⟨index, name, summary⟩] g' := by
  have totals (count : Summary → Nat) : total count [⟨index, name, summary⟩] = count summary := Nat.add_zero _
  have erased := Production.vertexCount_rest h
  have created := Production.verticesAdded_commit h
  have added := Production.vertexCount_commit h
  have edges := Production.edgeCount_commit h hg
  refine ⟨?_, ?_, fun x hx => ?_, ?_, fun none => ?_⟩
  · rw [totals, totals]
    omega
  · rw [createdNames_commit hp h hindex, length_drawnNames_commit h, totals, created]
  · rw [createdNames_commit hp h hindex]
    exact contains_commit h hx
  · have left := Production.edgeCount_rest_le h hg
    rw [totals, totals]
    omega
  · have left := Production.edgeCount_rest_eq h hg (none _ List.mem_cons_self)
    rw [totals, totals]
    omega

end

/-! ## A run -/

variable {σ : Type} {settings : SearchSettings} {strategy : Strategy σ} {s t : State σ} {rounds : Nat} {memory : σ}
  {ending : Ending}

/-- A round that ends the run draws nothing: an application that has room for its draws and is not refused is a step. -/
theorem roundDraws_of_ended (room : ∀ k ∈ roundDraws settings ps strategy s, k.HasRoom)
    (h : round settings ps strategy s = (t, some ending)) : roundDraws settings ps strategy s = [] := by
  cases hc : chosen? settings ps strategy s with
  | none => rw [roundDraws, hc]
  | some o =>
    rw [roundDraws, hc] at room ⊢
    obtain ⟨memory, hround⟩ := round_of_chosen hc
    obtain ⟨⟨g', e | summary⟩, happly, -⟩ := Production.counterPath_apply room
    · show o.production.applyDraws o.mapping s.graph = []
      rw [Production.applyDraws, (Production.apply_eq_error.mp happly).2]
    · rw [hround, State.step, happly] at h
      cases h

theorem ledger_run (hps : ∀ p ∈ ps, p.Keyed) (hs : s.graph.WellFormed)
    (room : ∀ k ∈ runDraws settings ps strategy rounds s, k.HasRoom)
    (h : run settings ps strategy rounds s = (t, ending)) :
    ∃ steps, t.steps.toList = s.steps.toList ++ steps ∧ Ledger ps s.graph steps t.graph ∧
      createdNames ps steps = Graph.drawnNames (runDraws settings ps strategy rounds s) := by
  induction rounds generalizing s with
  | zero =>
    cases h
    exact ⟨[], (List.append_nil _).symm, .nil, rfl⟩
  | succ rounds ih =>
    rw [run] at h
    rw [runDraws, List.forall_mem_append] at room
    rw [runDraws]
    rcases hround : round settings ps strategy s with ⟨u, _ | last⟩
    · -- The round is a step, and the account of the rest is added to that of the step.
      rw [hround] at h room
      have hu := hs.round settings ps strategy
      rw [hround] at hu
      obtain ⟨o, summary, hchosen, happly, hsteps⟩ := exists_applied hround
      obtain ⟨accepted, hcommit⟩ := Production.apply_eq_ok.mp happly
      have draws : roundDraws settings ps strategy s = o.production.commitDraws o.mapping s.graph := by
        rw [roundDraws, hchosen]
        show o.production.applyDraws o.mapping s.graph = _
        rw [Production.applyDraws, accepted]
      have hindex := getElem?_of_chosen hchosen
      have hp := hps _ (List.mem_of_getElem? hindex)
      obtain ⟨steps, hsteps', hledger, hnames⟩ := ih hu room.2 h
      have hledger₁ : Ledger ps s.graph [⟨o.index, o.production.name, summary⟩] u.graph :=
        ledger_commit hp hcommit hindex hs
      have hnames₁ : createdNames ps [⟨o.index, o.production.name, summary⟩] = _ :=
        createdNames_commit hp hcommit hindex
      refine ⟨⟨o.index, o.production.name, summary⟩ :: steps, ?_, hledger₁.append hledger, ?_⟩
      · rw [hsteps', hsteps, Array.toList_push, List.append_assoc, List.singleton_append]
      · rw [Graph.drawnNames_append, draws, ← hnames, ← hnames₁, ← createdNames_append]
        rfl
    · -- The round ends the run, and nothing is drawn.
      rw [hround] at h
      cases h
      obtain ⟨hgraph, hsteps, -⟩ := left_of_ended hround
      refine ⟨[], by rw [hsteps, List.append_nil], by rw [hgraph]; exact .nil, ?_⟩
      rw [roundDraws_of_ended room.1 hround]
      rfl

/-- However a run ends, its steps account for the difference between the graph that it was given and the one that it
leaves, and the vertices created in it have different names, also where some of them were erased in between. -/
theorem run_ledger (hps : ∀ p ∈ ps, p.Keyed) (hg : g.WellFormed)
    (room : ∀ k ∈ runDraws settings ps strategy rounds { graph := g, memory := memory }, k.HasRoom)
    (h : run settings ps strategy rounds { graph := g, memory := memory } = (t, ending)) :
    Ledger ps g t.steps.toList t.graph ∧ (createdNames ps t.steps.toList).Nodup := by
  obtain ⟨steps, hsteps, hledger, hnames⟩ := ledger_run hps hg room h
  rw [List.nil_append] at hsteps
  rw [hsteps, hnames]
  exact ⟨hledger, (counterPath_run rounds _ room).nodup_names room⟩

section

/-- A vertex to renew that goes by the first fresh name, with an edge that leaves it. -/
def worn : Graph := (Graph.empty.addEdge ⟨⟨"v0"⟩, ⟨"A"⟩⟩ ⟨⟨"b"⟩, ⟨"B"⟩⟩).1

/-- Two renewals, the second of the vertex that the first one made. -/
def renewals : State Unit × Ending :=
  run {} [renewal] (.firstMatch 2) 3 { graph := worn, memory := () }

/-- The name of the first vertex is free for the one that takes its place, which loses the edge without a report, but
it is not given again once that one is erased. -/
theorem run_ledger_renewals :
    (∀ p ∈ [renewal], p.Keyed) ∧ worn.WellFormed ∧
      (∀ k ∈ runDraws {} [renewal] (.firstMatch 2) 3 { graph := worn, memory := () }, k.HasRoom) ∧
      renewals.2 = .stopped .halted ∧
      Ledger [renewal] worn renewals.1.steps.toList renewals.1.graph ∧
      (createdNames [renewal] renewals.1.steps.toList).Nodup ∧
      (createdNames [renewal] renewals.1.steps.toList).map (·.name) = ["v0", "v1"] ∧
      worn.edgeCount = 1 ∧ total (·.edgesErased) renewals.1.steps.toList = 0 ∧ renewals.1.graph.edgeCount = 0 := by
  have hps : ∀ p ∈ [renewal], p.Keyed := by
    intro p hp
    rw [List.mem_singleton.mp hp]
    exact ⟨(Graph.WellFormed.empty.addVertex _).keyed, (Graph.WellFormed.empty.addVertex _).keyed⟩
  have hg : worn.WellFormed := Graph.WellFormed.empty.addEdge _ _
  have room : ∀ k ∈ runDraws {} [renewal] (.firstMatch 2) 3 { graph := worn, memory := () }, k.HasRoom := by
    decide +kernel
  obtain ⟨ledger, nodup⟩ := run_ledger hps hg room (Prod.eta renewals).symm
  exact ⟨hps, hg, room, by decide +kernel, ledger, nodup, by decide +kernel⟩

end

end Derivation
end GraphGrammar
