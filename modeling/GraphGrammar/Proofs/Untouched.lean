import GraphGrammar.Proofs.Counts
import GraphGrammar.Proofs.Inverse

/-!
# Applications that change nothing

A summary that counts nothing says that the graph is the one it was, in every table and in the counter, and a graph that
comes out of an application as it went in has a summary that counts nothing. For the second the visible graph is not
enough: a vertex can be erased and another one of the same label be created under its name. But then the counter has
moved. Without created vertices the vertices are told by their number, and an edge that is erased is one that no right
edge falls on, so it does not come back.
-/

namespace GraphGrammar

/-! ## The counter moves with each name -/

theorem Graph.next_le_fresh {g g' : Graph} {x : VertexId} (h : g.fresh = some (g', x)) :
    g.nextFresh.next.toNat ≤ g'.nextFresh.toNat := by
  obtain ⟨k, hk, -, -, rfl⟩ := free_of_fresh h
  have hnext := g.nextFresh.toNat_next
  have hnext' := k.toNat_next
  show g.nextFresh.next.toNat ≤ k.next.toNat
  omega

theorem next_le_allocate {s s' : Graph × Nat × Mapping} {v : Vertex} (h : allocate s v = some s') :
    s.1.nextFresh.next.toNat ≤ s'.1.nextFresh.toNat := by
  obtain ⟨g, host, hfresh, rfl⟩ := allocate_eq_some.mp h
  rw [Graph.nextFresh_addVertex]
  exact Graph.next_le_fresh hfresh

theorem nextFresh_le_foldlM_allocate {vs : List Vertex} {s s' : Graph × Nat × Mapping}
    (h : vs.foldlM allocate s = some s') : s.1.nextFresh.toNat ≤ s'.1.nextFresh.toNat := by
  refine foldlM_induction (s.1.nextFresh.toNat ≤ ·.1.nextFresh.toNat) h (Nat.le_refl _) fun t ht v _ t' ht' => ?_
  have hle := next_le_allocate ht'
  have hnext := t.1.nextFresh.toNat_next
  have hlt := t.1.nextFresh.toNat_lt_size
  omega

theorem Summary.isNoop_iff {s : Summary} : s.isNoop = true ↔
    s.edgesErased = 0 ∧ s.verticesErased = 0 ∧ s.verticesAdded = 0 ∧ s.edgesAdded = 0 := by
  simp [Summary.isNoop, and_assoc]

namespace Production

variable {p : Production} {m left right : Mapping} {g g' : Graph} {s : Summary}

/-- As long as the counter can move, it stands still only where nothing is created. -/
theorem created_eq_nil {r : Graph × Nat × Mapping} (room : g.nextFresh.toNat < UInt64.size - 1)
    (h : p.addVertices right g = some r) (same : r.1.nextFresh = g.nextFresh) : p.created = [] := by
  rw [addVertices_eq] at h
  cases hc : p.created with
  | nil => rfl
  | cons v vs =>
    rw [hc, List.foldlM_cons] at h
    obtain ⟨t, first, rest⟩ := Option.bind_eq_some_iff.mp h
    have hle := next_le_allocate first
    have hrest := nextFresh_le_foldlM_allocate rest
    rw [same] at hrest
    rw [Counter.toNat_next_of_lt room] at hle
    omega

/-! ## Phases that count nothing -/

theorem eraseEdges_of_none (h : (p.eraseEdges left right g).2 = 0) : (p.eraseEdges left right g).1 = g := by
  refine fst_foldl_of_counted (fun s e => ?_) h
  dsimp only
  cases left.edgeImage? e with
  | none => exact .inl rfl
  | some image =>
    dsimp only
    cases p.keeps right image with
    | true => exact .inl rfl
    | false =>
      rw [Graph.eraseEdge_snd]
      cases he : s.1.hasEdge image.1 image.2 with
      | true => exact .inr rfl
      | false => exact .inl (by rw [Graph.eraseEdge, he]; rfl)

theorem addVertices_of_none (none : p.created = []) : p.addVertices right g = some (g, 0, right) := by
  rw [addVertices_eq, none, List.foldlM_nil]
  rfl

theorem addEdges_of_none (h : (p.addEdges right g).2 = 0) : (p.addEdges right g).1 = g := by
  refine fst_foldl_of_counted (fun s e => ?_) h
  dsimp only
  cases right.edgeImage? e with
  | none => exact .inl rfl
  | some image =>
    dsimp only
    by_cases known : s.1.contains image.1 = true ∧ s.1.contains image.2 = true
    · rw [Graph.connect_eq_ok known.1 known.2]
      dsimp only
      rw [Graph.link_snd]
      cases he : s.1.hasEdge image.1 image.2 with
      | true => exact .inl (by rw [Graph.link, he]; rfl)
      | false => exact .inr rfl
    · obtain ⟨e, he⟩ := Graph.connect_eq_error known
      rw [he]
      exact .inl rfl

/-! ## Applications -/

/-- Without created vertices the right edges are added to the rest, under the mapping that is carried over. -/
theorem addEdges_of_commit (none : p.created = []) (h : p.commit m g = some (g', s)) :
    p.addEdges (p.carryOver m) (p.rest m g) = (g', s.edgesAdded) := by
  obtain ⟨g₃, n, r, hrun, rfl, rfl⟩ := commit_eq_some.mp h
  rw [addVertices_of_none none] at hrun
  cases hrun
  rfl

theorem graph_of_commit (none : p.created = []) (h : p.commit m g = some (g', s)) :
    g' = (p.addEdges (p.carryOver m) (p.rest m g)).1 := (congrArg Prod.fst (addEdges_of_commit none h)).symm

/-- An application that counts nothing leaves every table as it was, and the counter. -/
theorem commit_of_isNoop (h : p.commit m g = some (g', s)) (noop : s.isNoop = true) : g' = g := by
  obtain ⟨edgesErased, verticesErased, verticesAdded, edgesAdded⟩ := Summary.isNoop_iff.mp noop
  have none : p.created = [] := List.eq_nil_of_length_eq_zero ((verticesAdded_commit h).symm.trans verticesAdded)
  have added := addEdges_of_commit none h
  have hrest : p.rest m g = g := by
    obtain ⟨g₃, n, r, -, -, rfl⟩ := commit_eq_some.mp h
    rw [rest, eraseVertices_of_none verticesErased, eraseEdges_of_none edgesErased]
  have same : (p.addEdges (p.carryOver m) (p.rest m g)).1 = p.rest m g :=
    addEdges_of_none (by rw [added, edgesAdded])
  rw [added, hrest] at same
  exact same

theorem isNoop_of_unchanged (hg : g.WellFormed) (none : p.created = []) (h : p.commit m g = some (g, s)) :
    s.isNoop = true := by
  have verticesAdded : s.verticesAdded = 0 := by rw [verticesAdded_commit h, none, List.length_nil]
  have verticesErased : s.verticesErased = 0 := by
    have left := vertexCount_rest h
    have all := vertexCount_commit h
    rw [none, List.length_nil] at all
    omega
  have hrest : p.rest m g = (p.eraseEdges m (p.carryOver m) g).1 := by
    obtain ⟨g₃, n, r, -, -, rfl⟩ := commit_eq_some.mp h
    exact eraseVertices_of_none verticesErased
  have kept : ∀ x y, y ∈ g.successors x → y ∈ (p.rest m g).successors x := by
    intro x y hy
    have back : y ∈ (p.addEdges (p.carryOver m) (p.rest m g)).1.successors x := by rwa [← graph_of_commit none h]
    rw [addEdges_fst, Graph.mem_successors_foldl_connect, mem_images] at back
    rcases back with hy' | ⟨himage, -⟩
    · exact hy'
    · -- The image of a right edge is not lost.
      rw [hrest, eraseEdges_fst, hg.successors_foldl_eraseEdge, List.mem_filter, decide_eq_true_eq, mem_lostEdges]
      refine ⟨hy, fun lost => ?_⟩
      rw [keeps_iff.mpr himage] at lost
      cases lost.2
  have all := hg.edgeCount_le kept
  have erased := edgeCount_rest_eq h hg verticesErased
  have added := edgeCount_commit h hg
  exact Summary.isNoop_iff.mpr ⟨by omega, verticesErased, verticesAdded, by omega⟩

/-- Where the graph comes out as it went in, nothing is created, since the counter has not moved. -/
theorem created_eq_nil_of_unchanged (room : g.nextFresh.toNat < UInt64.size - 1) (h : p.commit m g = some (g, s)) :
    p.created = [] := by
  obtain ⟨g₃, n, r, hrun, hadded, -⟩ := commit_eq_some.mp h
  have before : (p.rest m g).nextFresh = g.nextFresh := nextFresh_rest
  have counter : g₃.nextFresh = (p.rest m g).nextFresh := by
    rw [before, ← hadded, addEdges_fst, Graph.nextFresh_foldl_connect]
  exact created_eq_nil (before ▸ room) hrun counter

/-- A summary counts nothing exactly when the application has left the graph as it was: the vertices, the targets in
their order, the sources and the counter. The counter has to be able to move, so it must not stand at the largest word;
with room for the created vertices the application comes to an end. -/
theorem apply_isNoop_iff (hg : g.WellFormed) (hp : p.Keyed) (hm : p.validate g m = .ok ())
    (room : g.nextFresh.toNat < UInt64.size - 1) :
    (∀ g' s, p.apply m g = some (g', .ok s) → (s.isNoop = true ↔ g' = g)) ∧
      (g.nextFresh.toNat + g.vertexCount + p.created.length < UInt64.size - 1 →
        ∃ g' s, p.apply m g = some (g', .ok s)) := by
  refine ⟨fun g' s h => ?_, fun enough => ?_⟩
  · obtain ⟨-, hcommit⟩ := apply_eq_ok.mp h
    refine ⟨commit_of_isNoop hcommit, ?_⟩
    intro same
    subst same
    exact isNoop_of_unchanged hg (created_eq_nil_of_unchanged room hcommit) hcommit
  · obtain ⟨g', s, hcommit⟩ := exists_commit (m := m) hp enough
    exact ⟨g', s, apply_eq_ok.mpr ⟨hm, hcommit⟩⟩

section

/-- Puts a new vertex with the same label in the place of the source of an edge. -/
def renewSource : Production where
  lhs := (Graph.empty.addEdge ⟨⟨"x"⟩, ⟨"A"⟩⟩ ⟨⟨"y"⟩, ⟨"B"⟩⟩).1
  rhs := (Graph.empty.addEdge ⟨⟨"z"⟩, ⟨"A"⟩⟩ ⟨⟨"y"⟩, ⟨"B"⟩⟩).1

/-- The new vertex gets the name, the label and the edge of the old one, so that the graph looks as before. It is not
the same graph, for the counter has moved. -/
theorem apply_isNoop_iff_renewSource :
    arrow.WellFormed ∧ renewSource.Keyed ∧ renewSource.validate arrow endsOfArrow = .ok () ∧
      arrow.nextFresh.toNat + arrow.vertexCount + renewSource.created.length < UInt64.size - 1 ∧
      ∃ g' s, renewSource.apply endsOfArrow arrow = some (g', .ok s) ∧ (s.isNoop = true ↔ g' = arrow) ∧
        g'.vertices = arrow.vertices ∧ g'.edges = arrow.edges ∧ s.isNoop = false ∧ g' ≠ arrow := by
  have hg : arrow.WellFormed := Graph.WellFormed.empty.addEdge _ _
  have hp : renewSource.Keyed :=
    ⟨(Graph.WellFormed.empty.addEdge _ _).keyed, (Graph.WellFormed.empty.addEdge _ _).keyed⟩
  have hm : renewSource.validate arrow endsOfArrow = .ok () := by decide +kernel
  have room : arrow.nextFresh.toNat + arrow.vertexCount + renewSource.created.length < UInt64.size - 1 := by
    decide +kernel
  obtain ⟨noop_iff, ends⟩ := apply_isNoop_iff hg hp hm (by omega)
  obtain ⟨g', s, happly⟩ := ends room
  have noop := noop_iff g' s happly
  have visible : (renewSource.commit endsOfArrow arrow).map (fun r => (r.1.vertices, r.1.edges, r.2.isNoop)) =
      some (arrow.vertices, arrow.edges, false) := by
    decide +kernel
  rw [(apply_eq_ok.mp happly).2, Option.map_some, Option.some.injEq, Prod.mk.injEq, Prod.mk.injEq] at visible
  obtain ⟨vertices, edges, counts⟩ := visible
  refine ⟨hg, hp, hm, room, g', s, happly, noop, vertices, edges, counts, fun same => ?_⟩
  rw [noop.mpr same] at counts
  cases counts

end

end Production
end GraphGrammar
