import GraphGrammar.Proofs.Counts

/-!
# What a summary counts

At an embedding no phase passes over anything: the numbers of a summary can be read off the production, the mapping and
the graph before. A number is what a phase adds to a count or takes from it (`Counts`), and the graphs between the
phases are told by their vertices and edges (`Rewrite`), so each number comes from comparing two graphs and no loop is
looked at.
-/

namespace GraphGrammar

namespace Production

variable {p : Production} {g g' : Graph} {m : Mapping} {s : Summary} {a b u v x y : VertexId}

/-- The right edges that are not there yet: one of their ends is created, or there is no edge between the images of
their ends. -/
def newEdges (p : Production) (m : Mapping) (g : Graph) : List Edge :=
  p.rhs.edges.filter fun e => !p.lhs.contains e.1 || !p.lhs.contains e.2 ||
    !(m.edgeImage? e).any fun (source, target) => g.hasEdge source target

/-- The edges of the graph that do not stay: those at a vertex that is erased, and the images of left edges that are no
right edges. -/
def goneFrom (p : Production) (m : Mapping) (g : Graph) : List Edge :=
  g.edges.filter fun e => p.Erases m e.1 ∨ p.Erases m e.2 ∨ p.ErasesEdge m e.1 e.2

theorem mem_newEdges (hm : IsEmbedding p.lhs g m) : (a, b) ∈ p.newEdges m g ↔
    p.rhs.hasEdge a b = true ∧ ¬ ∃ u v, m.get? a = some u ∧ m.get? b = some v ∧ g.hasEdge u v = true := by
  have there : ((m.edgeImage? (a, b)).any fun (source, target) => g.hasEdge source target) = true ↔
      ∃ u v, m.get? a = some u ∧ m.get? b = some v ∧ g.hasEdge u v = true := by
    rw [Mapping.edgeImage?]
    cases m.get? a <;> cases m.get? b <;> simp
  -- Where there are images, both ends are vertices of the left side.
  have known : (∃ u v, m.get? a = some u ∧ m.get? b = some v ∧ g.hasEdge u v = true) →
      p.lhs.contains a = true ∧ p.lhs.contains b = true := by
    intro h
    obtain ⟨u, v, hu, hv, -⟩ := h
    exact ⟨hm.contains_of_image hu, hm.contains_of_image hv⟩
  rw [newEdges, List.mem_filter, Graph.mem_edges, ← Graph.hasEdge_iff, ← there] at *
  refine and_congr_right fun _ => ?_
  rw [Bool.or_eq_true, Bool.or_eq_true, Bool.not_eq_true', Bool.not_eq_true', Bool.not_eq_true', Bool.not_eq_true]
  refine ⟨?_, .inr⟩
  intro h
  rw [← Bool.not_eq_true]
  intro hany
  obtain ⟨ha, hb⟩ := known hany
  simp [ha, hb, hany] at h

theorem mem_goneFrom : (u, v) ∈ p.goneFrom m g ↔ v ∈ g.successors u ∧ ¬ p.Leaves m u v := by
  rw [goneFrom, List.mem_filter, Graph.mem_edges, decide_eq_true_eq, Leaves]
  tauto

/-! ## The graph after the erasing phases -/

section

variable (hg : g.WellFormed) (hr : p.rhs.WellFormed) (hm : IsEmbedding p.lhs g m)
include hr hm

theorem mem_lostEdges_carryOver : (u, v) ∈ p.lostEdges m (p.carryOver m) ↔ p.ErasesEdge m u v := by
  rw [mem_lostEdges, Bool.eq_false_iff, ne_eq, keeps_iff]
  refine ⟨?_, ?_⟩
  · intro h
    obtain ⟨⟨a, b, hab, ha, hb⟩, hkeep⟩ := h
    refine ⟨a, b, hab, Bool.eq_false_iff.mpr fun hright => hkeep ⟨a, b, hright, ?_, ?_⟩, ha, hb⟩
    · rw [get?_carryOver, if_pos (hr.contains_source (Graph.hasEdge_iff.mp hright)), ha]
    · rw [get?_carryOver, if_pos (hr.contains_target a b (Graph.hasEdge_iff.mp hright)), hb]
  · intro h
    obtain ⟨a, b, hab, hright, ha, hb⟩ := h
    refine ⟨⟨a, b, hab, ha, hb⟩, ?_⟩
    -- A right edge with this image has the same ends, since the mapping is injective.
    intro hkeep
    obtain ⟨c, d, hcd, hc, hd⟩ := hkeep
    rw [get?_carryOver] at hc hd
    split at hc <;> split at hd
    · obtain rfl := hm.injective a c u ha hc
      obtain rfl := hm.injective b d v hb hd
      rw [hright] at hcd
      cases hcd
    all_goals simp at hc hd

theorem leaves_of_image (hab : p.rhs.hasEdge a b = true) (ha : m.get? a = some u) (hb : m.get? b = some v) :
    p.Leaves m u v := by
  have hright := Graph.hasEdge_iff.mp hab
  refine ⟨?_, ?_, ?_⟩
  · exact (Carries.stays ⟨hm.contains_of_image ha, hr.contains_source hright, ha⟩ hm).2
  · exact (Carries.stays ⟨hm.contains_of_image hb, hr.contains_target a b hright, hb⟩ hm).2
  · intro herased
    obtain ⟨c, d, -, hnone, hc, hd⟩ := herased
    rw [← hm.injective a c u ha hc, ← hm.injective b d v hb hd, hab] at hnone
    cases hnone

include hg

theorem mem_successors_rest_iff : v ∈ (p.rest m g).successors u ↔ v ∈ g.successors u ∧ p.Leaves m u v := by
  rw [mem_successors_rest hg, mem_lostEdges_carryOver hr hm, Leaves]

theorem edgeCount_rest_add : g.edgeCount = (p.rest m g).edgeCount + (p.goneFrom m g).length := by
  have hrest : (p.rest m g).WellFormed := hg.eraseEdges.eraseVertices
  have nodup : (p.goneFrom m g).Nodup := (Graph.nodup_edges hg.nodup).filter _
  refine hrest.edgeCount_add hg nodup (fun x y hxy => ?_) fun x y => ?_
  · rw [mem_successors_rest_iff hg hr hm]
    exact fun h => (mem_goneFrom.mp hxy).2 h.2
  · rw [mem_successors_rest_iff hg hr hm, mem_goneFrom]
    tauto

theorem edgesErased_commit (hl : p.lhs.WellFormed) (h : p.commit m g = some (g', s)) :
    s.edgesErased = p.goneEdges.length := by
  have counted := edgesErased_add h hg
  have nodup : (p.goneEdges.filterMap m.edgeImage?).Nodup :=
    hm.injective.nodup_edgeImages ((Graph.nodup_edges hl.nodup).filter _)
  have left (x y : VertexId) : y ∈ (p.eraseEdges m (p.carryOver m) g).1.successors x ↔
      y ∈ g.successors x ∧ ¬ p.ErasesEdge m x y := by
    rw [eraseEdges_fst, hg.successors_foldl_eraseEdge, List.mem_filter, decide_eq_true_eq,
      mem_lostEdges_carryOver hr hm]
  have there {x y : VertexId} (h : p.ErasesEdge m x y) : y ∈ g.successors x := by
    obtain ⟨a, b, hab, -, ha, hb⟩ := h
    exact hm.mem_successors_image ha hb (Graph.hasEdge_iff.mp hab)
  have erased : g.edgeCount = (p.eraseEdges m (p.carryOver m) g).1.edgeCount +
      (p.goneEdges.filterMap m.edgeImage?).length := by
    refine hg.eraseEdges.edgeCount_add hg nodup (fun x y hxy => ?_) fun x y => ?_
    · rw [left, erasesEdge_iff_mem]
      exact fun h => h.2 hxy
    · rw [left, ← erasesEdge_iff_mem]
      refine ⟨fun hy => ?_, fun h => h.elim And.left there⟩
      by_cases he : p.ErasesEdge m x y
      · exact .inr he
      · exact .inl ⟨hy, he⟩
  have images : (p.goneEdges.filterMap m.edgeImage?).length = p.goneEdges.length := by
    refine Mapping.length_edgeImages fun a b hab => ?_
    have hedge : p.lhs.hasEdge a b = true := Graph.hasEdge_iff.mpr (Graph.mem_edges.mp (List.mem_filter.mp hab).1)
    obtain ⟨u, v, hu, hv, -⟩ := hm.edge a b hedge
    exact ⟨⟨u, hu⟩, v, hv⟩
  omega

end

theorem verticesErased_commit (hm : IsEmbedding p.lhs g m) (h : p.commit m g = some (g', s)) :
    s.verticesErased = p.deleted.length := by
  have counted := vertexCount_rest h
  have nodup : (p.deleted.filterMap m.get?).Nodup := hm.injective.nodup_filterMap (p.lhs.nodup_ids.filter _)
  have erased : g.vertexCount = (p.rest m g).vertexCount + (p.deleted.filterMap m.get?).length := by
    refine Graph.vertexCount_add nodup (fun x hx => ?_) fun x => ?_
    · rw [← erases_iff_mem] at hx
      rw [← Bool.not_eq_true, contains_rest]
      exact fun h => h.2 hx
    · rw [contains_rest, ← erases_iff_mem]
      refine ⟨fun hx => ?_, fun h => h.elim And.left fun herased => ?_⟩
      · by_cases he : p.Erases m x
        · exact .inr he
        · exact .inl ⟨hx, he⟩
      · obtain ⟨d, -, -, hd⟩ := herased
        exact hm.contains_image hd
  have images : (p.deleted.filterMap m.get?).length = p.deleted.length := by
    rw [List.filterMap_length_eq_length]
    intro d hd
    rw [Option.isSome_iff_exists]
    exact hm.exists_image (mem_deleted.mp hd).1
  omega

/-! ## The graph after the adding phases -/

section

variable {r : Mapping} (h : Rewrites p m g g' r)
include h

/-- A right vertex that is mapped to one that stays has its image from the left mapping. -/
theorem get?_of_stays (hx : r.get? a = some x) (known : g.contains x = true) (stays : ¬ p.Erases m x) :
    m.get? a = some x := by
  cases ha : p.lhs.contains a with
  | true => exact (h.carries ha hx).2.2
  | false => exact absurd (h.created a x ha hx known) stays

theorem edgeCount_add_new (hg : g.WellFormed) (hg' : g'.WellFormed) (hr : p.rhs.WellFormed)
    (hm : IsEmbedding p.lhs g m) : g'.edgeCount = (p.rest m g).edgeCount + (p.newEdges m g).length := by
  have hrest : (p.rest m g).WellFormed := hg.eraseEdges.eraseVertices
  have nodup : ((p.newEdges m g).filterMap r.edgeImage?).Nodup :=
    h.injective.nodup_edgeImages ((Graph.nodup_edges hr.nodup).filter _)
  have added : g'.edgeCount = (p.rest m g).edgeCount + ((p.newEdges m g).filterMap r.edgeImage?).length := by
    refine hrest.edgeCount_add hg' nodup (fun x y hxy hold => ?_) fun x y => ?_
    · -- An edge that stays has its ends stay, so it would be the image under the left mapping.
      obtain ⟨a, b, hab, ha, hb⟩ := Mapping.mem_edgeImages.mp hxy
      obtain ⟨hy, hx, hy', -⟩ := (mem_successors_rest_iff hg hr hm).mp hold
      refine ((mem_newEdges hm).mp hab).2 ⟨x, y, ?_, ?_, Graph.hasEdge_iff.mpr hy⟩
      · exact get?_of_stays h ha (hg.contains_source hy) hx
      · exact get?_of_stays h hb (hg.contains_target x y hy) hy'
    · rw [← Graph.hasEdge_iff, h.edge_iff, mem_successors_rest_iff hg hr hm, Mapping.mem_edgeImages,
        Graph.hasEdge_iff, or_comm]
      refine ⟨fun hedge => ?_, fun hedge => hedge.imp_right ?_⟩
      · rcases hedge with hold | ⟨a, b, hab, ha, hb⟩
        · exact .inl hold
        · by_cases there : ∃ u v, m.get? a = some u ∧ m.get? b = some v ∧ g.hasEdge u v = true
          · obtain ⟨u, v, hu, hv, huv⟩ := there
            have hleaves := leaves_of_image hr hm hab hu hv
            have hright := Graph.hasEdge_iff.mp hab
            have hx := h.get?_of_carries ⟨hm.contains_of_image hu, hr.contains_source hright, hu⟩
            have hy := h.get?_of_carries ⟨hm.contains_of_image hv, hr.contains_target a b hright, hv⟩
            rw [ha, Option.some.injEq] at hx
            rw [hb, Option.some.injEq] at hy
            rw [hx, hy]
            exact .inl ⟨Graph.hasEdge_iff.mp huv, hleaves⟩
          · exact .inr ⟨a, b, (mem_newEdges hm).mpr ⟨hab, there⟩, ha, hb⟩
      · intro hnew
        obtain ⟨a, b, hab, ha, hb⟩ := hnew
        exact ⟨a, b, ((mem_newEdges hm).mp hab).1, ha, hb⟩
  have images : ((p.newEdges m g).filterMap r.edgeImage?).length = (p.newEdges m g).length := by
    refine Mapping.length_edgeImages fun a b hab => ?_
    have hright := Graph.hasEdge_iff.mp ((mem_newEdges hm).mp hab).1
    exact ⟨h.exists_image (hr.contains_source hright), h.exists_image (hr.contains_target a b hright)⟩
  rw [added, images]

end

/-- An application at an embedding counts exactly what the production asks for: the left edges that are no right edges,
the deleted and the created vertices, and the right edges that are not there yet. The counts of the graph change by
these numbers, but for the edges that go with an erased vertex. -/
theorem apply_counts (hg : g.WellFormed) (hl : p.lhs.WellFormed) (hr : p.rhs.WellFormed)
    (hm : p.validate g m = .ok ()) (room : g.nextFresh.toNat + g.vertexCount + p.created.length < UInt64.size - 1) :
    ∃ g' s, p.apply m g = some (g', .ok s) ∧ s.edgesErased = p.goneEdges.length ∧
      s.verticesErased = p.deleted.length ∧ s.verticesAdded = p.created.length ∧
      s.edgesAdded = (p.newEdges m g).length ∧
      g'.vertexCount + s.verticesErased = g.vertexCount + s.verticesAdded ∧
      g'.edgeCount + (p.goneFrom m g).length = g.edgeCount + s.edgesAdded := by
  have hp : p.Keyed := ⟨hl.keyed, hr.keyed⟩
  have embedding := (validate_iff hp.lhs).mp hm
  obtain ⟨g', s, hcommit⟩ := exists_commit (m := m) hp room
  have verticesErased := verticesErased_commit embedding hcommit
  have verticesAdded := verticesAdded_commit hcommit
  have verticesLeft := vertexCount_rest hcommit
  have vertices := vertexCount_commit hcommit
  have edges := edgeCount_add_new (commit_rewrites hg hp embedding room hcommit) hg (hg.commit hcommit) hr embedding
  have edgesCounted := edgeCount_commit hcommit hg
  have edgesLeft := edgeCount_rest_add hg hr embedding
  refine ⟨g', s, apply_eq_ok.mpr ⟨hm, hcommit⟩, edgesErased_commit hg hr embedding hl hcommit, verticesErased,
    verticesAdded, ?_, ?_, ?_⟩
  · omega
  · omega
  · omega

/-- Three edges go: one is erased by the production, and two more, one of them a loop, go with the erased vertex and are
counted by no phase. -/
theorem apply_counts_replaceSource :
    ring.WellFormed ∧ replaceSource.lhs.WellFormed ∧ replaceSource.rhs.WellFormed ∧
      replaceSource.validate ring sourceOfRing = .ok () ∧
      ring.nextFresh.toNat + ring.vertexCount + replaceSource.created.length < UInt64.size - 1 ∧
      ∃ g' s, replaceSource.apply sourceOfRing ring = some (g', .ok s) ∧ s.edgesErased = 1 ∧ s.verticesErased = 1 ∧
        s.verticesAdded = 1 ∧ s.edgesAdded = 1 ∧ (replaceSource.goneFrom sourceOfRing ring).length = 3 ∧
        g'.vertexCount = 2 ∧ g'.edgeCount = 1 := by
  have hg : ring.WellFormed := ((Graph.WellFormed.empty.addEdge _ _).addEdge _ _).addEdge _ _
  have hl : replaceSource.lhs.WellFormed := Graph.WellFormed.empty.addEdge _ _
  have hr : replaceSource.rhs.WellFormed := Graph.WellFormed.empty.addEdge _ _
  have hm : replaceSource.validate ring sourceOfRing = .ok () := by decide +kernel
  have room : ring.nextFresh.toNat + ring.vertexCount + replaceSource.created.length < UInt64.size - 1 := by
    decide +kernel
  obtain ⟨g', s, happly, edgesErased, verticesErased, verticesAdded, edgesAdded, vertices, edges⟩ :=
    apply_counts hg hl hr hm room
  have lengths : replaceSource.goneEdges.length = 1 ∧ replaceSource.deleted.length = 1 ∧
      replaceSource.created.length = 1 ∧ (replaceSource.newEdges sourceOfRing ring).length = 1 ∧
      (replaceSource.goneFrom sourceOfRing ring).length = 3 ∧ ring.vertexCount = 2 ∧ ring.edgeCount = 3 := by
    decide +kernel
  refine ⟨hg, hl, hr, hm, room, g', s, happly, ?_⟩
  omega

end Production
end GraphGrammar
