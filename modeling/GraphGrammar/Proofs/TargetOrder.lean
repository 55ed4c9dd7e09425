import GraphGrammar.Proofs.Reachability
import GraphGrammar.Proofs.Summaries

/-!
# The order of targets after an application

Three phases change the lists of targets: edges are erased one by one, erased vertices are left out of all lists, and
new targets are put at the end. So each list keeps its order. What is erased leaves a filter of the old list, and
behind it come the new targets of that source as the right side lists them, for the edges of other sources do not touch
its list. A created vertex begins with none, also where it gets the name of a vertex that had some.
-/

namespace GraphGrammar

/-- Where each vertex of a list has an image, and `isNew` tells the images outside `ts`, those are the images of the
vertices that `isNew` holds of. -/
theorem Mapping.map_some_images {r : Mapping} {bs ts : List VertexId} {isNew : VertexId → Bool}
    (h : ∀ b ∈ bs, ∃ v, r.get? b = some v ∧ (v ∈ ts ↔ isNew b = false)) :
    ((bs.filterMap r.get?).filter (· ∉ ts)).map some = (bs.filter isNew).map r.get? := by
  induction bs with
  | nil => rfl
  | cons b bs ih =>
    rw [List.forall_mem_cons] at h
    obtain ⟨⟨v, hv, hmem⟩, others⟩ := h
    rw [List.filterMap_cons_some hv]
    cases hb : isNew b with
    | true =>
      have hnew : v ∉ ts := by simp [hmem, hb]
      rw [List.filter_cons_of_pos (by simpa using hnew), List.filter_cons_of_pos hb, List.map_cons, List.map_cons,
        ih others, hv]
    | false =>
      rw [List.filter_cons_of_neg (by simpa using hmem.mpr hb), List.filter_cons_of_neg (by simp [hb]), ih others]

namespace Production

variable {p : Production} {g g' g₃ : Graph} {m r : Mapping} {a u v : VertexId}

/-- The targets of `u` that it still has when all erasing is done. -/
def keptTargets (p : Production) (m : Mapping) (g : Graph) (u : VertexId) : List VertexId :=
  (g.successors u).filter (p.Leaves m u ·)

/-- The targets of `a` on the right side to whose images there is no edge from `u` yet. A created vertex has no image in
the host, so the name that it gets makes no difference. -/
def newTargets (p : Production) (m : Mapping) (g : Graph) (a u : VertexId) : List VertexId :=
  (p.rhs.successors a).filter fun b => !(m.get? b).any (g.hasEdge u ·)

/-- The targets of each vertex of `g'`, in their order. -/
structure OrdersTargets (p : Production) (m : Mapping) (g g' : Graph) (r : Mapping) : Prop where
  /-- Behind the kept targets come the images of the new ones. -/
  mapped : ∀ a u, g.contains u = true → ¬ p.Erases m u → r.get? a = some u →
    ∃ new, g'.successors u = p.keptTargets m g u ++ new ∧ new.map some = (p.newTargets m g a u).map r.get?
  /-- A vertex outside the images gets no target. -/
  unmapped : ∀ u, g.contains u = true → ¬ p.Erases m u → (∀ a, r.get? a ≠ some u) →
    g'.successors u = p.keptTargets m g u
  /-- A created vertex has the images of the right targets and no others. -/
  created : ∀ c, p.rhs.contains c = true → p.lhs.contains c = false →
    ∃ u, r.get? c = some u ∧ (g'.successors u).map some = (p.rhs.successors c).map r.get?

/-! ## After the erasing phases -/

section Phases

variable (hg : g.WellFormed) (hr : p.rhs.WellFormed) (hm : IsEmbedding p.lhs g m)
include hg hr hm

theorem successors_rest_eq_kept : (p.rest m g).successors u = p.keptTargets m g u := by
  rw [successors_rest hg, keptTargets]
  refine List.filter_congr fun v _ => ?_
  rw [decide_eq_decide, mem_lostEdges_carryOver hr hm, Leaves]

/-! ## After the adding phases -/

variable (hp : p.Keyed) (h : Allocated p.created (p.rest m g) (p.carryOver m) g₃ r)
include hp h

theorem successors_addEdges : (p.addEdges r g₃).1.successors u = p.keptTargets m g u ++
    (((p.rhs.edges.filterMap r.edgeImage?).filter (·.1 = u)).map Prod.snd).filter (· ∉ p.keptTargets m g u) := by
  have nodup : (p.rhs.edges.filterMap r.edgeImage?).Nodup :=
    (rhsMapping_injective hp hm h).nodup_edgeImages (Graph.nodup_edges hr.nodup)
  have known : ∀ e ∈ p.rhs.edges.filterMap r.edgeImage?, g₃.contains e.1 = true ∧ g₃.contains e.2 = true := by
    intro e he
    obtain ⟨x, y⟩ := e
    obtain ⟨a, b, -, ha, hb⟩ := Mapping.mem_edgeImages.mp he
    exact ⟨contains_rhsMapping hp hm h ha, contains_rhsMapping hp hm h hb⟩
  rw [addEdges_fst, Graph.successors_foldl_connect_of_known nodup known, h.successors,
    successors_rest_eq_kept hg hr hm]

theorem successors_addEdges_of_image (ha : r.get? a = some u) :
    (p.addEdges r g₃).1.successors u = p.keptTargets m g u ++
      ((p.rhs.successors a).filterMap r.get?).filter (· ∉ p.keptTargets m g u) := by
  rw [successors_addEdges hg hr hm hp h, (rhsMapping_injective hp hm h).targets_edgeImages ha, Graph.map_snd_edges_from]

theorem successors_addEdges_of_no_image (none : ∀ a, r.get? a ≠ some u) :
    (p.addEdges r g₃).1.successors u = p.keptTargets m g u := by
  have noEdge : (p.rhs.edges.filterMap r.edgeImage?).filter (·.1 = u) = [] := by
    rw [List.filter_eq_nil_iff]
    intro e he hu
    obtain ⟨x, y⟩ := e
    obtain ⟨a, b, -, ha, -⟩ := Mapping.mem_edgeImages.mp he
    exact none a (of_decide_eq_true hu ▸ ha)
  rw [successors_addEdges hg hr hm hp h, noEdge, List.map_nil, List.filter_nil, List.append_nil]

end Phases

/-! ## The whole application -/

theorem mem_keptTargets_iff (hg : g.WellFormed) (hr : p.rhs.WellFormed) (hm : IsEmbedding p.lhs g m)
    (h : Rewrites p m g g' r) {b : VertexId} (hab : b ∈ p.rhs.successors a) (ha : m.get? a = some u)
    (hb : r.get? b = some v) : v ∈ p.keptTargets m g u ↔ (m.get? b).any (g.hasEdge u ·) = true := by
  rw [keptTargets, List.mem_filter, decide_eq_true_eq, Option.any_eq_true]
  refine ⟨fun hv => ?_, fun hw => ?_⟩
  · obtain ⟨there, -, stays, -⟩ := hv
    exact ⟨v, get?_of_stays h hb (hg.contains_target u v there) stays, Graph.hasEdge_iff.mpr there⟩
  · obtain ⟨w, hw, there⟩ := hw
    obtain rfl : w = v := by
      have carried := h.get?_of_carries ⟨hm.contains_of_image hw, hr.contains_target a b hab, hw⟩
      exact Option.some.inj (carried.symm.trans hb)
    exact ⟨Graph.hasEdge_iff.mp there, leaves_of_image hr hm (Graph.hasEdge_iff.mpr hab) ha hw⟩

/-- A created vertex keeps no targets: its name is new to the host, or that of a vertex that is erased with its edges.
-/
theorem keptTargets_of_created (hg : g.WellFormed) (h : Rewrites p m g g' r) (hl : p.lhs.contains a = false)
    (hu : r.get? a = some u) : p.keptTargets m g u = [] := by
  rw [keptTargets, List.filter_eq_nil_iff]
  intro v hv
  rw [decide_eq_true_eq]
  intro leaves
  exact h.not_stays hl hu ⟨hg.contains_source hv, leaves.1⟩

/-- An application at an embedding keeps the order of the targets that each vertex keeps, and puts behind them the
images of its new targets in the order of the right side. -/
theorem apply_ordersTargets (hg : g.WellFormed) (hl : p.lhs.Keyed) (hr : p.rhs.WellFormed)
    (hm : p.validate g m = .ok ()) (room : g.nextFresh.toNat + g.vertexCount + p.created.length < UInt64.size - 1) :
    ∃ g' s, p.apply m g = some (g', .ok s) ∧ p.OrdersTargets m g g' s.rhsMapping := by
  have hp : p.Keyed := ⟨hl, hr.keyed⟩
  have embedding := (validate_iff hl).mp hm
  obtain ⟨g', s, hcommit⟩ := exists_commit (m := m) hp room
  have rewritten := commit_rewrites hg hp embedding room hcommit
  obtain ⟨g₃, h, hgraph, -, -⟩ := exists_allocated hp room hcommit
  refine ⟨g', s, apply_eq_ok.mpr ⟨hm, hcommit⟩, ?_⟩
  generalize s.rhsMapping = r at h hgraph rewritten ⊢
  have image {a b : VertexId} (hab : b ∈ p.rhs.successors a) : ∃ v, r.get? b = some v :=
    rewritten.exists_image (hr.contains_target a b hab)
  refine ⟨fun a u hu stays ha => ?_, fun u _ _ none => ?_, fun c hc hl => ?_⟩
  · have ha' := get?_of_stays rewritten ha hu stays
    refine ⟨_, (congrArg (·.successors u) hgraph).trans (successors_addEdges_of_image hg hr embedding hp h ha), ?_⟩
    apply Mapping.map_some_images
    intro b hab
    obtain ⟨v, hv⟩ := image hab
    refine ⟨v, hv, ?_⟩
    rw [mem_keptTargets_iff hg hr embedding rewritten hab ha' hv, Bool.not_eq_false']
  · rw [hgraph]
    exact successors_addEdges_of_no_image hg hr embedding hp h none
  · obtain ⟨u, hu⟩ := rewritten.exists_image hc
    have kept := keptTargets_of_created hg rewritten hl hu
    refine ⟨u, hu, ?_⟩
    rw [hgraph, successors_addEdges_of_image hg hr embedding hp h hu, kept, List.nil_append]
    calc (((p.rhs.successors c).filterMap r.get?).filter (· ∉ ([] : List VertexId))).map some
        = ((p.rhs.successors c).filter fun _ => true).map r.get? := by
          apply Mapping.map_some_images
          intro b hcb
          obtain ⟨v, hv⟩ := image hcb
          exact ⟨v, hv, by simp⟩
      _ = (p.rhs.successors c).map r.get? := by rw [List.filter_true]

section

/-- Puts another vertex in the place of the leaf `z` and erases the edge to `y`. -/
def renew : Production where
  lhs := ((Graph.empty.addEdge ⟨⟨"x"⟩, ⟨"A"⟩⟩ ⟨⟨"z"⟩, ⟨"C"⟩⟩).1.addEdge ⟨⟨"x"⟩, ⟨"A"⟩⟩ ⟨⟨"y"⟩, ⟨"B"⟩⟩).1
  rhs :=
    let x : Vertex := ⟨⟨"x"⟩, ⟨"A"⟩⟩
    let w : Vertex := ⟨⟨"w"⟩, ⟨"C"⟩⟩
    let y : Vertex := ⟨⟨"y"⟩, ⟨"B"⟩⟩
    ((((Graph.empty.addEdge w y).1.addEdge x w).1.addEdge w x).1.addEdge x x).1

def loopedRoot : Graph :=
  let root : Vertex := ⟨⟨"root"⟩, ⟨"A"⟩⟩
  (((Graph.empty.addEdge root ⟨⟨"v0"⟩, ⟨"C"⟩⟩).1.addEdge root root).1.addEdge root ⟨⟨"leaf"⟩, ⟨"B"⟩⟩).1

def ofLoopedRoot : Mapping := .ofList [(⟨"x"⟩, ⟨"root"⟩), (⟨"y"⟩, ⟨"leaf"⟩), (⟨"z"⟩, ⟨"v0"⟩)]

/-- The loop stays in its place, and the created vertex comes behind it, though it has the name of the first target. -/
theorem apply_ordersTargets_renew :
    loopedRoot.WellFormed ∧ renew.lhs.Keyed ∧ renew.rhs.WellFormed ∧ renew.validate loopedRoot ofLoopedRoot = .ok () ∧
      loopedRoot.nextFresh.toNat + loopedRoot.vertexCount + renew.created.length < UInt64.size - 1 ∧
      ∃ g' s, renew.apply ofLoopedRoot loopedRoot = some (g', .ok s) ∧
        renew.OrdersTargets ofLoopedRoot loopedRoot g' s.rhsMapping ∧
        loopedRoot.successors ⟨"root"⟩ = [⟨"v0"⟩, ⟨"root"⟩, ⟨"leaf"⟩] ∧
        g'.successors ⟨"root"⟩ = [⟨"root"⟩, ⟨"v0"⟩] ∧ g'.successors ⟨"v0"⟩ = [⟨"leaf"⟩, ⟨"root"⟩] := by
  have hg : loopedRoot.WellFormed := ((Graph.WellFormed.empty.addEdge _ _).addEdge _ _).addEdge _ _
  have hr : renew.rhs.WellFormed := (((Graph.WellFormed.empty.addEdge _ _).addEdge _ _).addEdge _ _).addEdge _ _
  have hm : renew.validate loopedRoot ofLoopedRoot = .ok () := by decide +kernel
  have room : loopedRoot.nextFresh.toNat + loopedRoot.vertexCount + renew.created.length < UInt64.size - 1 := by
    decide +kernel
  have hl : renew.lhs.Keyed := ((Graph.WellFormed.empty.addEdge _ _).addEdge _ _).keyed
  obtain ⟨g', s, happly, orders⟩ := apply_ordersTargets hg hl hr hm room
  have run : (renew.commit ofLoopedRoot loopedRoot).map (fun r => [r.1.successors ⟨"root"⟩, r.1.successors ⟨"v0"⟩]) =
      some [[⟨"root"⟩, ⟨"v0"⟩], [⟨"leaf"⟩, ⟨"root"⟩]] := by
    decide +kernel
  rw [(apply_eq_ok.mp happly).2, Option.map_some, Option.some.injEq, List.cons.injEq, List.cons.injEq] at run
  exact ⟨hg, hl, hr, hm, room, g', s, happly, orders, by decide +kernel, run.1, run.2.1⟩

end

end Production
end GraphGrammar
