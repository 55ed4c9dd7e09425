import GraphGrammar.Proofs.Consistency
import GraphGrammar.Proofs.Rewrite

/-!
# What the phases report

The number that a phase reports is the change of a count: of the edges for the phases on edges, of the vertices for the
phases on vertices. This holds of any mappings, also of such as lead several pattern edges to one host edge. Edges that
go with an erased vertex are counted by no phase.
-/

namespace GraphGrammar

namespace Graph

variable {g g' : Graph} {a b x y : VertexId}

/-! ## Counts of edges -/

theorem WellFormed.edgeCount_eq_length (hg : g.WellFormed) {es : List Edge} (nodup : es.Nodup)
    (h : ∀ x y, y ∈ g.successors x ↔ (x, y) ∈ es) : g.edgeCount = es.length := by
  have perm : g.edges.Perm es := by
    refine (List.perm_ext_iff_of_nodup (nodup_edges hg.nodup) nodup).mpr ?_
    intro e
    obtain ⟨x, y⟩ := e
    rw [mem_edges, h]
  exact perm.length_eq

theorem WellFormed.edgeCount_le (hg : g.WellFormed) (h : ∀ x y, y ∈ g.successors x → y ∈ g'.successors x) :
    g.edgeCount ≤ g'.edgeCount := by
  have sub : g.edges ⊆ g'.edges := by
    intro e he
    obtain ⟨x, y⟩ := e
    exact mem_edges.mpr (h x y (mem_edges.mp he))
  exact ((nodup_edges hg.nodup).subperm sub).length_le

theorem WellFormed.edgeCount_eq (hg : g.WellFormed) (hg' : g'.WellFormed)
    (h : ∀ x y, y ∈ g.successors x ↔ y ∈ g'.successors x) : g.edgeCount = g'.edgeCount :=
  hg.edgeCount_eq_length (nodup_edges hg'.nodup) fun x y => by rw [h, mem_edges]

theorem WellFormed.edgeCount_add (hg : g.WellFormed) (hg' : g'.WellFormed) {es : List Edge} (nodup : es.Nodup)
    (new : ∀ x y, (x, y) ∈ es → y ∉ g.successors x)
    (h : ∀ x y, y ∈ g'.successors x ↔ y ∈ g.successors x ∨ (x, y) ∈ es) :
    g'.edgeCount = g.edgeCount + es.length := by
  rw [edgeCount, edgeCount, ← List.length_append]
  refine hg'.edgeCount_eq_length (List.nodup_append'.mpr ⟨nodup_edges hg.nodup, nodup, ?_⟩) fun x y => ?_
  · rw [List.disjoint_right]
    intro e he hold
    obtain ⟨x, y⟩ := e
    exact new x y he (mem_edges.mp hold)
  · rw [h, List.mem_append, mem_edges]

theorem WellFormed.edgeCount_succ (hg : g.WellFormed) (hg' : g'.WellFormed) (new : b ∉ g.successors a)
    (h : ∀ x y, y ∈ g'.successors x ↔ y ∈ g.successors x ∨ (x = a ∧ y = b)) :
    g'.edgeCount = g.edgeCount + 1 := by
  refine hg.edgeCount_add hg' (List.nodup_singleton (a, b)) (fun x y hxy => ?_) fun x y => ?_
  · rw [List.mem_singleton, Prod.mk.injEq] at hxy
    rw [hxy.1, hxy.2]
    exact new
  · rw [h, List.mem_singleton, Prod.mk.injEq]

theorem link_snd : (g.link a b).2 = !g.hasEdge a b := by
  rw [link]
  split <;> simp [*]

theorem eraseEdge_snd : (g.eraseEdge a b).2 = g.hasEdge a b := by
  rw [eraseEdge]
  split <;> simp [*]

theorem WellFormed.edgeCount_link (hg : g.WellFormed) (ha : g.contains a = true) (hb : g.contains b = true) :
    (g.link a b).1.edgeCount = g.edgeCount + if (g.link a b).2 then 1 else 0 := by
  rw [link_snd]
  cases h : g.hasEdge a b with
  | true => rw [Graph.link, if_pos h]; rfl
  | false =>
    rw [← Bool.not_eq_true, hasEdge_iff] at h
    exact hg.edgeCount_succ (hg.link ha hb) h fun x y => mem_successors_link

theorem WellFormed.edgeCount_eraseEdge (hg : g.WellFormed) (a b : VertexId) :
    ((g.eraseEdge a b).1.edgeCount + if (g.eraseEdge a b).2 then 1 else 0) = g.edgeCount := by
  rw [eraseEdge_snd]
  cases h : g.hasEdge a b with
  | false => rw [Graph.eraseEdge, if_neg (by rw [h]; exact Bool.false_ne_true)]; rfl
  | true =>
    rw [hasEdge_iff] at h
    refine ((hg.eraseEdge a b).edgeCount_succ hg (a := a) (b := b) ?_ fun x y => ?_).symm
    · rw [hg.mem_successors_eraseEdge]
      simp
    · -- The edge itself is there, and all others are where they were.
      rw [hg.mem_successors_eraseEdge]
      by_cases hxy : x = a ∧ y = b
      · simp [hxy, h]
      · simp [hxy]

/-! ## Counts of vertices -/

theorem vertexCount_add {xs : List VertexId} (nodup : xs.Nodup) (new : ∀ x ∈ xs, g.contains x = false)
    (h : ∀ x, g'.contains x = true ↔ g.contains x = true ∨ x ∈ xs) :
    g'.vertexCount = g.vertexCount + xs.length := by
  have perm : g'.ids.Perm (g.ids ++ xs) := by
    refine (List.perm_ext_iff_of_nodup g'.nodup_ids (List.nodup_append'.mpr ⟨g.nodup_ids, nodup, ?_⟩)).mpr fun x => ?_
    · rw [List.disjoint_right]
      intro x hx hold
      rw [mem_ids, new x hx] at hold
      cases hold
    · rw [List.mem_append, mem_ids, mem_ids, h]
  rw [← length_ids, ← length_ids, perm.length_eq, List.length_append]

theorem vertexCount_pos (h : g.contains a = true) : 0 < g.vertexCount := by
  rw [← length_ids]
  exact List.length_pos_of_mem (mem_ids.mpr h)

theorem vertexCount_eraseVertex_add :
    ((g.eraseVertex a).1.vertexCount + if (g.eraseVertex a).2.isSome then 1 else 0) = g.vertexCount := by
  rw [vertexCount_eraseVertex, eraseVertex_snd, ← contains_eq_isSome_vertex?]
  cases h : g.contains a with
  | false => rfl
  | true =>
    have hpos := vertexCount_pos h
    simp only [if_true]
    omega

end Graph

/-! ## The phases -/

namespace Production

variable {p : Production} {left right : Mapping} {g : Graph}

private theorem count_up {b : Bool} {n : Nat} : (if b then n + 1 else n) = n + if b then 1 else 0 := by
  cases b <;> rfl

/-- A loop that counts each change has changed nothing if it has counted nothing. -/
theorem fst_foldl_of_counted {α : Type} {step : Graph × Nat → α → Graph × Nat} {l : List α}
    (counted : ∀ s a, step s a = s ∨ (step s a).2 = s.2 + 1) (h : (l.foldl step (g, 0)).2 = 0) :
    (l.foldl step (g, 0)).1 = g := by
  revert h
  refine List.foldlRecOn l step (motive := fun s : Graph × Nat => s.2 = 0 → s.1 = g) (fun _ => rfl) fun s hs a _ => ?_
  rcases counted s a with hstep | hstep
  · rw [hstep]
    exact hs
  · rw [hstep]
    exact nofun

theorem eraseEdges_count (hg : g.WellFormed) :
    (p.eraseEdges left right g).1.edgeCount + (p.eraseEdges left right g).2 = g.edgeCount := by
  rw [eraseEdges]
  refine (List.foldlRecOn p.lhs.edges _
    (motive := fun s : Graph × Nat => s.1.WellFormed ∧ s.1.edgeCount + s.2 = g.edgeCount)
    ⟨hg, rfl⟩ fun s hs e _ => ?_).2
  obtain ⟨hwf, hcount⟩ := hs
  dsimp only
  split
  · exact ⟨hwf, hcount⟩
  · next image _ =>
    split
    · exact ⟨hwf, hcount⟩
    · have h := hwf.edgeCount_eraseEdge image.1 image.2
      refine ⟨hwf.eraseEdge image.1 image.2, ?_⟩
      dsimp only
      rw [count_up]
      omega

theorem eraseVertices_count :
    (p.eraseVertices left g).1.vertexCount + (p.eraseVertices left g).2 = g.vertexCount := by
  rw [eraseVertices]
  refine List.foldlRecOn p.deleted _ (motive := fun s : Graph × Nat => s.1.vertexCount + s.2 = g.vertexCount)
    rfl fun s hs id _ => ?_
  dsimp only
  split
  · exact hs
  · next host _ =>
    have h := Graph.vertexCount_eraseVertex_add (g := s.1) (a := host)
    dsimp only
    rw [count_up]
    omega

theorem eraseVertices_of_none (h : (p.eraseVertices left g).2 = 0) : (p.eraseVertices left g).1 = g := by
  refine fst_foldl_of_counted (fun s id => ?_) h
  dsimp only
  cases left.get? id with
  | none => exact .inl rfl
  | some host =>
    dsimp only
    rw [Graph.eraseVertex_snd, ← Graph.contains_eq_isSome_vertex?]
    cases hc : s.1.contains host with
    | true => exact .inr rfl
    | false => exact .inl (by rw [Graph.eraseVertex_of_unknown hc]; rfl)

theorem edgeCount_eraseVertices_le (hg : g.WellFormed) : (p.eraseVertices left g).1.edgeCount ≤ g.edgeCount := by
  refine hg.eraseVertices.edgeCount_le fun x y hy => ?_
  rw [eraseVertices_fst, hg.successors_foldl_eraseVertex] at hy
  split at hy
  · cases hy
  · exact (List.mem_filter.mp hy).1

/-- Each vertex of the list is counted and is one more, since its identifier is free. -/
theorem count_of_foldlM_allocate {vs : List Vertex} {s s' : Graph × Nat × Mapping}
    (h : vs.foldlM allocate s = some s') :
    s'.2.1 = s.2.1 + vs.length ∧ s'.1.vertexCount = s.1.vertexCount + vs.length := by
  induction vs generalizing s with
  | nil =>
    cases h
    exact ⟨rfl, rfl⟩
  | cons v vs ih =>
    rw [List.foldlM_cons] at h
    obtain ⟨s₁, first, rest⟩ := Option.bind_eq_some_iff.mp h
    obtain ⟨g₁, host, hfresh, rfl⟩ := allocate_eq_some.mp first
    obtain ⟨k, -, free, rfl, rfl⟩ := Graph.free_of_fresh hfresh
    obtain ⟨counted, size⟩ := ih rest
    have one : ({ s.1 with nextFresh := k.next }.addVertex ⟨.numbered k, v.label⟩).1.vertexCount =
        s.1.vertexCount + 1 := by
      have hfree : { s.1 with nextFresh := k.next }.contains (.numbered k) = false := free
      rw [Graph.vertexCount_addVertex, hfree]
      rfl
    rw [one] at size
    rw [List.length_cons]
    dsimp only at counted
    omega

section
variable {r : Graph × Nat × Mapping} (h : p.addVertices right g = some r)
include h

theorem addVertices_count : r.2.1 = p.created.length :=
  (count_of_foldlM_allocate h).1.trans (Nat.zero_add _)

theorem vertexCount_addVertices : r.1.vertexCount = g.vertexCount + p.created.length :=
  (count_of_foldlM_allocate h).2

theorem successors_addVertices {x : VertexId} : r.1.successors x = g.successors x := by
  refine foldlM_induction (·.1.successors x = g.successors x) h rfl fun s hs v _ s' hs' => ?_
  obtain ⟨g₁, host, hfresh, rfl⟩ := allocate_eq_some.mp hs'
  obtain ⟨k, -, -, -, rfl⟩ := Graph.free_of_fresh hfresh
  rw [Graph.successors_addVertex]
  exact hs

theorem edgeCount_addVertices (hg : g.WellFormed) : r.1.edgeCount = g.edgeCount :=
  (hg.addVertices h).edgeCount_eq hg fun x y => by rw [successors_addVertices h]

end

theorem addEdges_count (hg : g.WellFormed) :
    (p.addEdges right g).1.edgeCount = g.edgeCount + (p.addEdges right g).2 := by
  rw [addEdges]
  refine (List.foldlRecOn p.rhs.edges _
    (motive := fun s : Graph × Nat => s.1.WellFormed ∧ s.1.edgeCount = g.edgeCount + s.2)
    ⟨hg, rfl⟩ fun s hs e _ => ?_).2
  obtain ⟨hwf, hcount⟩ := hs
  dsimp only
  split
  · exact ⟨hwf, hcount⟩
  · next image _ =>
    by_cases hknown : s.1.contains image.1 = true ∧ s.1.contains image.2 = true
    · rw [Graph.connect_eq_ok hknown.1 hknown.2]
      have h := hwf.edgeCount_link hknown.1 hknown.2
      refine ⟨hwf.link hknown.1 hknown.2, ?_⟩
      dsimp only
      rw [count_up]
      omega
    · obtain ⟨e, he⟩ := Graph.connect_eq_error hknown
      rw [he]
      exact ⟨hwf, hcount⟩

/-! ## The whole application -/

section
variable {g' : Graph} {s : Summary} (h : p.commit left g = some (g', s))
include h

theorem vertexCount_rest : (p.rest left g).vertexCount + s.verticesErased = g.vertexCount := by
  obtain ⟨g₃, n, r, -, -, rfl⟩ := commit_eq_some.mp h
  have hsame : (p.eraseEdges left (p.carryOver left) g).1.vertexCount = g.vertexCount := by
    rw [eraseEdges_fst, Graph.vertexCount_foldl_eraseEdge]
  rw [← hsame]
  exact eraseVertices_count

theorem edgesErased_add (hg : g.WellFormed) :
    (p.eraseEdges left (p.carryOver left) g).1.edgeCount + s.edgesErased = g.edgeCount := by
  obtain ⟨g₃, n, r, -, -, rfl⟩ := commit_eq_some.mp h
  exact eraseEdges_count hg

theorem edgeCount_rest_le (hg : g.WellFormed) : (p.rest left g).edgeCount + s.edgesErased ≤ g.edgeCount := by
  have lost := edgesErased_add h hg
  have gone : (p.rest left g).edgeCount ≤ (p.eraseEdges left (p.carryOver left) g).1.edgeCount :=
    edgeCount_eraseVertices_le hg.eraseEdges
  omega

/-- Where no vertex is erased, each edge that is lost is counted. -/
theorem edgeCount_rest_eq (hg : g.WellFormed) (none : s.verticesErased = 0) :
    (p.rest left g).edgeCount + s.edgesErased = g.edgeCount := by
  have hsame : p.rest left g = (p.eraseEdges left (p.carryOver left) g).1 := by
    obtain ⟨g₃, n, r, -, -, rfl⟩ := commit_eq_some.mp h
    exact eraseVertices_of_none none
  rw [hsame]
  exact edgesErased_add h hg

theorem verticesAdded_commit : s.verticesAdded = p.created.length := by
  obtain ⟨g₃, n, r, hrun, -, rfl⟩ := commit_eq_some.mp h
  exact addVertices_count hrun

theorem edgeCount_commit (hg : g.WellFormed) : g'.edgeCount = (p.rest left g).edgeCount + s.edgesAdded := by
  obtain ⟨g₃, n, r, hrun, rfl, rfl⟩ := commit_eq_some.mp h
  have hrest : (p.rest left g).WellFormed := hg.eraseEdges.eraseVertices
  rw [← edgeCount_addVertices hrun hrest]
  exact addEdges_count (hrest.addVertices hrun)

theorem vertexCount_commit : g'.vertexCount = (p.rest left g).vertexCount + p.created.length := by
  obtain ⟨g₃, n, r, hrun, rfl, -⟩ := commit_eq_some.mp h
  rw [addEdges_fst, Graph.vertexCount_foldl_connect]
  exact vertexCount_addVertices hrun

end

end Production
end GraphGrammar
