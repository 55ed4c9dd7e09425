import GraphGrammar.Proofs.PlanOrder
import GraphGrammar.Proofs.SearchEvents
import GraphGrammar.Proofs.Similarity

/-!
# What a search looks at

Of the pattern a search looks at the content alone. Of the host it looks at the vertices that carry a label of the
pattern, and at the edges between these: no other vertex becomes a candidate, and only images are asked for edges. So
the plan, what the search does in turn, and with it the answer under any limits are the same for all hosts that agree
on this.
-/

namespace GraphGrammar

variable {pattern pattern' host host' : Graph} {placed : Placed} {plan : List Placement} {limits : SearchLimits}
  {c : VertexId} {l : Label}

/-! ## The pattern -/

namespace Graph.SameContent

variable (h : pattern.SameContent pattern')
include h

theorem linkCount (q : Pending) (placed : List VertexId) :
    q.linkCount pattern placed = q.linkCount pattern' placed := by
  simp only [Pending.linkCount, h.hasEdge]

theorem first? (placed : List VertexId) (waiting : List Pending) :
    Pending.first? pattern placed waiting = Pending.first? pattern' placed waiting := by
  have precedes (p q : Pending) : p.precedes pattern placed q = p.precedes pattern' placed q := by
    rw [Pending.precedes, Pending.precedes, h.linkCount, h.linkCount]
  cases waiting with
  | nil => rfl
  | cons p rest => simp only [Pending.first?, precedes]

theorem place (q : Pending) (placed : List VertexId) : q.place pattern placed = q.place pattern' placed := by
  simp only [Pending.place, h.hasEdge]

theorem placements (count : Nat) (placed : List VertexId) (waiting : List Pending) :
    placements pattern count placed waiting = GraphGrammar.placements pattern' count placed waiting := by
  induction count generalizing placed waiting with
  | zero => rfl
  | succ count ih =>
    rw [GraphGrammar.placements, GraphGrammar.placements, h.first?]
    cases Pending.first? pattern' placed waiting with
    | none => rfl
    | some next => simp only [h.place, ih]

theorem plan? (host : Graph) : plan? pattern host = GraphGrammar.plan? pattern' host := by
  simp only [GraphGrammar.plan?, pendings?, h.vertices, h.placements]

theorem findAll (limits : SearchLimits) (host : Graph) :
    findAll limits pattern host = GraphGrammar.findAll limits pattern' host := by
  simp only [GraphGrammar.findAll, h.isEmpty, h.plan?]

end Graph.SameContent

/-! ## The host -/

/-- The vertex carries a label of the pattern. -/
def Graph.Sees (pattern host : Graph) (x : VertexId) : Prop :=
  ∃ a l, pattern.label? a = some l ∧ host.label? x = some l

/-- The hosts have the same vertices with labels of the pattern, and the same edges between these. -/
structure Graph.LooksSame (pattern host host' : Graph) : Prop where
  label? : ∀ a l x, pattern.label? a = some l → (host.label? x = some l ↔ host'.label? x = some l)
  hasEdge : ∀ x y, pattern.Sees host x → pattern.Sees host y → host.hasEdge x y = host'.hasEdge x y

/-- The vertices of a label are listed in order, so the list is told by its members. -/
theorem Graph.withLabel_congr (hh : host.Keyed) (hh' : host'.Keyed)
    (h : ∀ x, host.label? x = some l ↔ host'.label? x = some l) : host.withLabel l = host'.withLabel l := by
  have nodup {k : Graph} (hk : k.Keyed) : (k.withLabel l).Nodup := by
    have hids := k.nodup_ids
    rw [← hk.map_id_vertices] at hids
    exact hids.sublist (List.filter_sublist.map _)
  have antisymm (x y : VertexId) (hxy : x < y) (hyx : y < x) : x = y := absurd hyx (Std.OrientedCmp.not_lt_of_lt hxy)
  have perm : (host.withLabel l).Perm (host'.withLabel l) := by
    refine (List.perm_ext_iff_of_nodup (nodup hh) (nodup hh')).mpr fun x => ?_
    rw [hh.mem_withLabel, hh'.mem_withLabel, h]
  exact perm.eq_of_pairwise (fun x y _ _ => antisymm x y) (hh.withLabel_ordered l) (hh'.withLabel_ordered l)

/-- Whether a candidate is accepted depends on the edges among the images and itself. -/
theorem accepts_congr {seen : VertexId → Prop} {p : Placement} (hc : seen c) (hplaced : ∀ q ∈ placed, seen q.2)
    (hasEdge : ∀ x y, seen x → seen y → host.hasEdge x y = host'.hasEdge x y) :
    p.accepts host placed c = p.accepts host' placed c := by
  have admits : p.admits host placed c = p.admits host' placed c := by
    rw [Placement.admits, Placement.admits, hasEdge c c hc hc]
    congr 1
    rw [Bool.eq_iff_iff, List.all_eq_true, List.all_eq_true]
    refine forall₂_congr fun link _ => ?_
    cases hq : placed[link.earlier]? with
    | none => rfl
    | some q =>
      have hseen := hplaced q (List.mem_of_getElem? hq)
      simp only [hasEdge c q.2 hc hseen, hasEdge q.2 c hseen hc]
  rw [Placement.accepts, Placement.accepts, admits]

theorem events_congr {seen : VertexId → Prop} (hplan : ∀ p ∈ plan, ∀ c ∈ p.candidates, seen c)
    (hplaced : ∀ q ∈ placed, seen q.2)
    (hasEdge : ∀ x y, seen x → seen y → host.hasEdge x y = host'.hasEdge x y) :
    events host plan placed = events host' plan placed := by
  induction plan generalizing placed with
  | nil => rfl
  | cons p rest ih =>
    obtain ⟨hcandidates, hrest⟩ := List.forall_mem_cons.mp hplan
    rw [events, events]
    refine List.flatMap_congr fun c hc => ?_
    have hseen := hcandidates c hc
    rw [accepts_congr hseen hplaced hasEdge]
    rw [ih hrest (List.forall_mem_append.mpr ⟨hplaced, List.forall_mem_singleton.mpr hseen⟩)]

theorem sees_of_mem_candidates (hp : pattern.Keyed) (hh : host.Keyed) (h : plan? pattern host = some plan) :
    ∀ p ∈ plan, ∀ c ∈ p.candidates, pattern.Sees host c := by
  obtain ⟨order, perm, rfl⟩ := plan?_eq_some hp h
  intro p hmem c hc
  obtain ⟨q, hq, -, hcandidates⟩ := exists_pending_of_mem_arrange hmem
  obtain ⟨l, hl, hlist⟩ := (mem_candidatesOf hp).mp (perm.mem_iff.mp hq)
  rw [hcandidates, hlist, hh.mem_withLabel] at hc
  exact ⟨q.pattern, l, hl, hc⟩

theorem Graph.looksSame_iff (hp : pattern.Keyed) (hh : host.Keyed) (hh' : host'.Keyed) :
    pattern.LooksSame host host' ↔ (∀ v ∈ pattern.vertices, host.withLabel v.label = host'.withLabel v.label) ∧
      ∀ v ∈ pattern.vertices, ∀ w ∈ pattern.vertices, ∀ x ∈ host.withLabel v.label, ∀ y ∈ host.withLabel w.label,
        host.hasEdge x y = host'.hasEdge x y := by
  simp only [hp.mem_vertices, hh.mem_withLabel]
  refine ⟨?_, ?_⟩
  · intro h
    refine ⟨fun v hv => withLabel_congr hh hh' fun x => h.label? v.id v.label x hv, ?_⟩
    intro v hv w hw x hx y hy
    exact h.hasEdge x y ⟨v.id, v.label, hv, hx⟩ ⟨w.id, w.label, hw, hy⟩
  · intro h
    obtain ⟨labels, edges⟩ := h
    refine ⟨fun a l x hl => ?_, ?_⟩
    · rw [← hh.mem_withLabel, labels ⟨a, l⟩ hl, hh'.mem_withLabel]
    · rintro x y ⟨a, l, ha, hx⟩ ⟨b, k, hb, hy⟩
      exact edges ⟨a, l⟩ ha ⟨b, k⟩ hb x hx y hy

namespace Graph.LooksSame

variable (h : pattern.LooksSame host host') (hp : pattern.Keyed) (hh : host.Keyed) (hh' : host'.Keyed)
include h hp hh hh'

theorem plan? : plan? pattern host = GraphGrammar.plan? pattern host' := by
  have candidates : ∀ v ∈ pattern.vertices, host.withLabel v.label = host'.withLabel v.label := fun v hv =>
    withLabel_congr hh hh' fun x => h.label? v.id v.label x (hp.mem_vertices.mp hv)
  have waiting : pendings? pattern host = pendings? pattern host' := by
    by_cases missing : ∃ v ∈ pattern.vertices, host.withLabel v.label = []
    · obtain ⟨v, hv, hl⟩ := missing
      rw [pendings?_eq_none hv hl, pendings?_eq_none hv ((candidates v hv).symm.trans hl)]
    · have present : ∀ v ∈ pattern.vertices, host.withLabel v.label ≠ [] := fun v hv hl => missing ⟨v, hv, hl⟩
      rw [pendings?_eq_some present, pendings?_eq_some fun v hv => candidates v hv ▸ present v hv]
      refine congrArg some (List.map_congr_left fun v hv => ?_)
      rw [candidates v hv]
  rw [GraphGrammar.plan?, GraphGrammar.plan?, waiting]

theorem findAll (limits : SearchLimits) : findAll limits pattern host = GraphGrammar.findAll limits pattern host' := by
  rw [GraphGrammar.findAll, GraphGrammar.findAll, ← h.plan? hp hh hh']
  cases hplan : GraphGrammar.plan? pattern host with
  | none => rfl
  | some plan =>
    simp only [explore_eq_foldlM,
      events_congr (sees_of_mem_candidates hp hh hplan) (List.forall_mem_nil _) h.hasEdge]

end Graph.LooksSame

/-- The answer of the search is the same for patterns and hosts of the same content. -/
theorem Graph.SameContent.findAll_eq (hp : pattern.SameContent pattern') (h : host.SameContent host')
    (limits : SearchLimits) :
    GraphGrammar.findAll limits pattern host = GraphGrammar.findAll limits pattern' host' := by
  have plan : GraphGrammar.plan? pattern' host = GraphGrammar.plan? pattern' host' := by
    simp only [GraphGrammar.plan?, pendings?, Graph.withLabel, h.vertices]
  have events (plan : List Placement) : events host plan [] = events host' plan [] :=
    events_congr (fun _ _ c _ => Set.mem_univ c) (fun q _ => Set.mem_univ q.2) fun x y _ _ => h.hasEdge x y
  rw [hp.findAll, GraphGrammar.findAll, GraphGrammar.findAll, plan]
  simp only [explore_eq_foldlM, events]

/-! ## What is not looked at -/

/-- The same occurrences are on offer, in the same order, in hosts that look the same to each left side. -/
theorem SearchSettings.occurrences_of_looksSame {ps : List Production} (hps : ∀ p ∈ ps, p.lhs.Keyed)
    (hh : host.Keyed) (hh' : host'.Keyed) (same : ∀ p ∈ ps, p.lhs.LooksSame host host') (settings : SearchSettings) :
    settings.occurrences host ps = settings.occurrences host' ps := by
  have each : ∀ a ∈ ps.zipIdx, settings.occurrencesOf host a.1 a.2 = settings.occurrencesOf host' a.1 a.2 := by
    intro a ha
    have hmem := List.fst_mem_of_mem_zipIdx ha
    rw [occurrencesOf, occurrencesOf, (same a.1 hmem).findAll (hps a.1 hmem) hh hh']
  have along (g : Graph) : settings.occurrences g ps =
      (ps.zipIdx.map fun a => settings.occurrencesOf g a.1 a.2).mapM id >>= fun offers => pure offers.flatten := by
    rw [List.mapM_map]
    rfl
  rw [along, along, List.map_congr_left each]

/-- Vertices of other labels, the edges at them, the order of edges and the counter of a host make no difference: the
plan is the same, and under any limits the same mappings are found in the same order, or the search fails at the same
step. -/
theorem findAll_unseen (hp : pattern.Keyed) (hh : host.Keyed) (hh' : host'.Keyed)
    (same : pattern.LooksSame host host') (limits : SearchLimits) :
    plan? pattern host = plan? pattern host' ∧ findAll limits pattern host = findAll limits pattern host' ∧
      findFirst limits pattern host = findFirst limits pattern host' := by
  refine ⟨same.plan? hp hh hh', same.findAll hp hh hh' limits, ?_⟩
  rw [findFirst, findFirst, same.findAll hp hh hh']

section

def mixedEdge : Graph := (Graph.empty.addEdge ⟨⟨"x"⟩, ⟨"A"⟩⟩ ⟨⟨"y"⟩, ⟨"B"⟩⟩).1

def leafPair : Graph :=
  let a : Vertex := ⟨⟨"a"⟩, ⟨"A"⟩⟩
  ((Graph.empty.addEdge a ⟨⟨"b"⟩, ⟨"B"⟩⟩).1.addEdge a ⟨⟨"c"⟩, ⟨"B"⟩⟩).1

/-- The edges of `leafPair`, added the other way round, among edges with a vertex of another label, which is the least.
A name has been drawn. -/
def crowdedLeafPair : Graph :=
  let a : Vertex := ⟨⟨"a"⟩, ⟨"A"⟩⟩
  let z : Vertex := ⟨⟨"0"⟩, ⟨"Z"⟩⟩
  let g : Graph := (({ Graph.empty with nextFresh := 1 }.addEdge a z).1.addEdge a ⟨⟨"c"⟩, ⟨"B"⟩⟩).1
  ((g.addEdge a ⟨⟨"b"⟩, ⟨"B"⟩⟩).1.addEdge z z).1

/-- Three candidates are tried in either host, so that a budget of two is too small for both of them. -/
theorem findAll_unseen_leafPair :
    let m : Mapping := .ofList [(⟨"x"⟩, ⟨"a"⟩), (⟨"y"⟩, ⟨"b"⟩)]
    let m' : Mapping := .ofList [(⟨"x"⟩, ⟨"a"⟩), (⟨"y"⟩, ⟨"c"⟩)]
    mixedEdge.Keyed ∧ leafPair.Keyed ∧ crowdedLeafPair.Keyed ∧ mixedEdge.LooksSame leafPair crowdedLeafPair ∧
      leafPair.successors ⟨"a"⟩ ≠ crowdedLeafPair.successors ⟨"a"⟩ ∧
      plan? mixedEdge leafPair = plan? mixedEdge crowdedLeafPair ∧
      findAll {} mixedEdge leafPair = .ok [m, m'] ∧ findAll {} mixedEdge crowdedLeafPair = .ok [m, m'] ∧
      findFirst {} mixedEdge leafPair = findFirst {} mixedEdge crowdedLeafPair ∧
      findAll { stepLimit := some 2 } mixedEdge leafPair = .error (.searchBudgetExhausted 3) ∧
      findAll { stepLimit := some 2 } mixedEdge crowdedLeafPair = .error (.searchBudgetExhausted 3) := by
  intro m m'
  have hp : mixedEdge.Keyed := (Graph.WellFormed.empty.addEdge _ _).keyed
  have hh : leafPair.Keyed := ((Graph.WellFormed.empty.addEdge _ _).addEdge _ _).keyed
  have drawn : ({ Graph.empty with nextFresh := 1 } : Graph).WellFormed := Graph.WellFormed.empty.withNextFresh 1
  have hh' : crowdedLeafPair.Keyed := ((((drawn.addEdge _ _).addEdge _ _).addEdge _ _).addEdge _ _).keyed
  have same : mixedEdge.LooksSame leafPair crowdedLeafPair := (Graph.looksSame_iff hp hh hh').mpr (by decide +kernel)
  have found : findAll {} mixedEdge leafPair = .ok [m, m'] := by decide +kernel
  have cut : findAll { stepLimit := some 2 } mixedEdge leafPair = .error (.searchBudgetExhausted 3) := by decide +kernel
  obtain ⟨plan, all, first⟩ := findAll_unseen hp hh hh' same {}
  obtain ⟨-, budget, -⟩ := findAll_unseen hp hh hh' same { stepLimit := some 2 }
  exact ⟨hp, hh, hh', same, by decide +kernel, plan, found, all ▸ found, first, cut, budget ▸ cut⟩

end

end GraphGrammar
