import GraphGrammar.Proofs.Reachability
import GraphGrammar.Proofs.Similarity
import GraphGrammar.Proofs.Summaries
import GraphGrammar.Proofs.Untouched

/-!
# Productions that change nothing

`Production.isIdentity` compares two counts and looks in one direction only. Since no vertex and no edge is listed
twice, that is enough to tell that the sides have one content. Such a production leaves every graph as it is at every
occurrence. A production of which this is true has sides of one content, if only no label differs between them: its own
left side is a graph that it would otherwise change.
-/

namespace GraphGrammar

/-! ## Counts and one inclusion -/

namespace Graph

variable {g g' : Graph}

theorem Extends.sameContent (h : g'.Extends g) (hg : g.WellFormed) (hg' : g'.Keyed)
    (vertices : g.vertexCount = g'.vertexCount) (edges : g.edgeCount = g'.edgeCount) : g.SameContent g' := by
  have ids : g.ids ⊆ g'.ids := by
    intro x hx
    obtain ⟨l, hl⟩ := contains_iff_label?.mp (mem_ids.mp hx)
    exact mem_ids.mpr (contains_of_label? (h.label? x l hl))
  have contains (x : VertexId) : g'.contains x = true ↔ g.contains x = true := by
    rw [← mem_ids, ← mem_ids]
    exact mem_iff_of_length g.nodup_ids ids (by rw [length_ids, length_ids, vertices]) x
  have edges_sub : g.edges ⊆ g'.edges := by
    intro e he
    obtain ⟨x, y⟩ := e
    exact mem_edges.mpr (hasEdge_iff.mp (h.hasEdge x y (hasEdge_iff.mpr (mem_edges.mp he))))
  refine .of_labels hg.keyed hg' (fun x => ?_) fun x y => ?_
  · cases hl : g.label? x with
    | some l => rw [h.label? x l hl]
    | none =>
      rw [label?_eq_none_iff, Bool.eq_false_iff, ne_eq, ← contains, ← ne_eq, ← Bool.eq_false_iff,
        ← label?_eq_none_iff] at hl
      exact hl.symm
  · rw [← mem_edges, ← mem_edges]
    exact (mem_iff_of_length (nodup_edges hg.nodup) edges_sub edges.ge (x, y)).symm

theorem SameContent.extends (h : g.SameContent g') : g'.Extends g where
  label? x l hl := by rwa [← h.label?]
  hasEdge x y hxy := by rwa [← h.hasEdge]

end Graph

namespace Production

variable {p : Production} {g g' : Graph} {m : Mapping} {s : Summary}

theorem isIdentity_iff_extends (hl : p.lhs.Keyed) : p.isIdentity = true ↔
    p.lhs.vertexCount = p.rhs.vertexCount ∧ p.lhs.edgeCount = p.rhs.edgeCount ∧ p.rhs.Extends p.lhs := by
  have label (v : Vertex) : ((p.rhs.vertex? v.id).any (·.sameLabel v)) = true ↔ p.rhs.label? v.id = some v.label := by
    rw [Graph.label?]
    cases p.rhs.vertex? v.id <;> simp [Vertex.sameLabel]
  have labels : (∀ v ∈ p.lhs.vertices, ((p.rhs.vertex? v.id).any (·.sameLabel v)) = true) ↔
      ∀ x l, p.lhs.label? x = some l → p.rhs.label? x = some l := by
    simp only [label, hl.mem_vertices]
    exact ⟨fun h x l => h ⟨x, l⟩, fun h v => h v.id v.label⟩
  have edges : (∀ e ∈ p.lhs.edges, p.rhs.hasEdge e.1 e.2 = true) ↔
      ∀ x y, p.lhs.hasEdge x y = true → p.rhs.hasEdge x y = true := by
    simp only [Prod.forall, Graph.mem_edges, Graph.hasEdge_iff]
  simp only [isIdentity, Bool.and_eq_true, beq_iff_eq, List.all_eq_true, and_assoc]
  rw [labels, edges]
  exact and_congr_right fun _ => and_congr_right fun _ => ⟨fun h => ⟨h.1, h.2⟩, fun h => ⟨h.label?, h.hasEdge⟩⟩

theorem isIdentity_iff_sameContent (hl : p.lhs.WellFormed) (hr : p.rhs.WellFormed) :
    p.isIdentity = true ↔ p.lhs.SameContent p.rhs := by
  rw [isIdentity_iff_extends hl.keyed]
  exact ⟨fun h => h.2.2.sameContent hl hr.keyed h.1 h.2.1, fun h => ⟨h.vertexCount, h.edgeCount hl hr, h.extends⟩⟩

/-! ## Sides of one content -/

theorem image_of_carryOver {x z : VertexId} (h : (p.carryOver m).get? x = some z) : m.get? x = some z := by
  rw [get?_carryOver] at h
  split at h
  · exact h
  · cases h

section
variable (same : p.lhs.SameContent p.rhs)
include same

theorem created_of_sameContent (hr : p.rhs.Keyed) : p.created = [] := by
  rw [created, List.filter_eq_nil_iff]
  intro v hv
  rw [same.contains, Graph.contains_of_label? (hr.mem_vertices.mp hv)]
  exact Bool.false_ne_true

theorem deleted_of_sameContent : p.deleted = [] := by
  rw [deleted, List.filter_eq_nil_iff]
  intro x hx
  rw [← same.contains, Graph.mem_ids.mp hx]
  exact Bool.false_ne_true

theorem goneEdges_of_sameContent : p.goneEdges = [] := by
  rw [goneEdges, List.filter_eq_nil_iff]
  intro e he
  rw [← same.hasEdge, Graph.hasEdge_iff.mpr (Graph.mem_edges.mp he)]
  exact Bool.false_ne_true

/-- Nothing is erased or created, and the images of the right edges are the images of left edges, which are there. -/
theorem isNoop_of_sameContent (hg : g.WellFormed) (hl : p.lhs.WellFormed) (hr : p.rhs.WellFormed)
    (hm : IsEmbedding p.lhs g m) (h : p.commit m g = some (g', s)) : s.isNoop = true := by
  have none := created_of_sameContent same hr.keyed
  have edgesAdded : s.edgesAdded = 0 := by
    have added := edgeCount_commit h hg
    have there : g'.edgeCount ≤ (p.rest m g).edgeCount := by
      refine (hg.commit h).edgeCount_le fun x y (hy : y ∈ g'.successors x) => ?_
      rw [graph_of_commit none h, addEdges_fst, Graph.mem_successors_foldl_connect, mem_images] at hy
      rcases hy with hy | ⟨⟨a, b, hab, ha, hb⟩, -⟩
      · exact hy
      · have hleft : b ∈ p.lhs.successors a := same.mem_successors.mpr (Graph.hasEdge_iff.mp hab)
        have himage := hm.mem_successors_image (image_of_carryOver ha) (image_of_carryOver hb) hleft
        exact (mem_successors_rest_iff hg hr hm).mpr
          ⟨himage, leaves_of_image hr hm hab (image_of_carryOver ha) (image_of_carryOver hb)⟩
    omega
  refine Summary.isNoop_iff.mpr ⟨?_, ?_, ?_, edgesAdded⟩
  · rw [edgesErased_commit hg hr hm hl h, goneEdges_of_sameContent same, List.length_nil]
  · rw [verticesErased_commit hm h, deleted_of_sameContent same, List.length_nil]
  · rw [verticesAdded_commit h, none, List.length_nil]

end

/-! ## Sides with the same vertices -/

theorem contains_eq_of_nil (hp : p.Keyed) (created : p.created = []) (deleted : p.deleted = []) (x : VertexId) :
    p.lhs.contains x = p.rhs.contains x := by
  have hc : x ∉ p.created.map (·.id) := by simp [created]
  have hd : x ∉ p.deleted := by simp [deleted]
  rw [mem_map_id_created hp] at hc
  rw [mem_deleted] at hd
  cases hl : p.lhs.contains x <;> cases hr : p.rhs.contains x <;> simp [hl, hr] at hc hd ⊢

theorem label?_eq_of_contains {x : VertexId} (hl : p.lhs.Keyed) (contains : ∀ x, p.lhs.contains x = p.rhs.contains x)
    (labels : p.relabelled = []) : p.lhs.label? x = p.rhs.label? x := by
  cases hx : p.lhs.label? x with
  | none =>
    rw [Graph.label?_eq_none_iff, contains, ← Graph.label?_eq_none_iff] at hx
    exact hx.symm
  | some l =>
    obtain ⟨l', hr⟩ := Graph.contains_iff_label?.mp (contains x ▸ Graph.contains_of_label? hx)
    rw [hr, label_eq_of_relabelled hl labels hx hr]

/-! ## The left side as a host -/

/-- The left side, with the counter of a graph in which no name was drawn. -/
def ownHost (p : Production) : Graph := { p.lhs with nextFresh := 0 }

/-- Each vertex of the left side for itself. -/
def ownMapping (p : Production) : Mapping := .ofList (p.lhs.ids.map fun x => (x, x))

theorem get?_ownMapping {x z : VertexId} : p.ownMapping.get? x = some z ↔ p.lhs.contains x = true ∧ x = z := by
  have keys : ((p.lhs.ids.map fun x => (x, x)).map Prod.fst).Nodup := by
    rw [List.map_map]
    exact (List.map_id _).symm ▸ p.lhs.nodup_ids
  rw [ownMapping, Mapping.get?_ofList keys]
  simp [and_comm]

theorem isEmbedding_ownMapping (hl : p.lhs.WellFormed) : IsEmbedding p.lhs p.ownHost p.ownMapping where
  domain x := by
    simp [Mapping.contains_iff_get?, get?_ownMapping]
  injective x y z hx hy := by
    obtain ⟨-, rfl⟩ := get?_ownMapping.mp hx
    obtain ⟨-, rfl⟩ := get?_ownMapping.mp hy
    rfl
  label x z hz := by
    obtain ⟨-, rfl⟩ := get?_ownMapping.mp hz
    rfl
  edge x y hxy := by
    have hy := Graph.hasEdge_iff.mp hxy
    exact ⟨x, y, get?_ownMapping.mpr ⟨hl.contains_source hy, rfl⟩,
      get?_ownMapping.mpr ⟨hl.contains_target x y hy, rfl⟩, hxy⟩

/-- What is there in the end was there from the beginning, the images of the right edges among it. -/
theorem mem_successors_lhs_of_unchanged (hr : p.rhs.WellFormed) (contains : ∀ x, p.lhs.contains x = p.rhs.contains x)
    (created : p.created = []) (deleted : p.deleted = [])
    (unchanged : p.commit p.ownMapping p.ownHost = some (p.ownHost, s)) {x y : VertexId} (hy : y ∈ p.rhs.successors x) :
    y ∈ p.lhs.successors x := by
  have known {z : VertexId} (hz : p.rhs.contains z = true) :
      (p.rest p.ownMapping p.ownHost).contains z = true ∧ (p.carryOver p.ownMapping).get? z = some z := by
    have hz' : p.lhs.contains z = true := (contains z).trans hz
    refine ⟨contains_rest.mpr ⟨hz', not_erases deleted⟩, ?_⟩
    rw [get?_carryOver, if_pos hz, get?_ownMapping]
    exact ⟨hz', rfl⟩
  obtain ⟨source, sourceImage⟩ := known (hr.contains_source hy)
  obtain ⟨target, targetImage⟩ := known (hr.contains_target x y hy)
  show y ∈ p.ownHost.successors x
  rw [graph_of_commit created unchanged, addEdges_fst, Graph.mem_successors_foldl_connect, mem_images]
  exact .inr ⟨⟨x, y, Graph.hasEdge_iff.mpr hy, sourceImage, targetImage⟩, source, target⟩

theorem sameContent_of_unchanged (hl : p.lhs.WellFormed) (hr : p.rhs.WellFormed) (labels : p.relabelled = [])
    (unchanged : p.commit p.ownMapping p.ownHost = some (p.ownHost, s)) : p.lhs.SameContent p.rhs := by
  have host : p.ownHost.WellFormed := hl.withNextFresh 0
  have hm := isEmbedding_ownMapping hl
  have room : p.ownHost.nextFresh.toNat < UInt64.size - 1 := show (0 : Counter).toNat < UInt64.size - 1 by decide
  have created : p.created = [] := created_eq_nil_of_unchanged room unchanged
  obtain ⟨gone, deleted, -, -⟩ := Summary.isNoop_iff.mp (isNoop_of_unchanged host created unchanged)
  rw [edgesErased_commit host hr hm hl unchanged, List.length_eq_zero_iff] at gone
  rw [verticesErased_commit hm unchanged, List.length_eq_zero_iff] at deleted
  have contains := contains_eq_of_nil ⟨hl.keyed, hr.keyed⟩ created deleted
  refine .of_labels hl.keyed hr.keyed (fun x => label?_eq_of_contains hl.keyed contains labels) fun x y =>
    ⟨fun hy => ?_, fun hy => ?_⟩
  · have hgone : (x, y) ∉ p.goneEdges := by simp [gone]
    rw [goneEdges, List.mem_filter, Graph.mem_edges, Bool.not_eq_true', ← Bool.not_eq_true] at hgone
    exact Graph.hasEdge_iff.mp (Classical.byContradiction fun hright => hgone ⟨hy, hright⟩)
  · exact mem_successors_lhs_of_unchanged hr contains created deleted unchanged hy

/-! ## Identities -/

/-- A production is told to be an identity exactly when its sides have the same labelled vertices and the same edges.
If no label differs between the sides, this is so exactly when the production leaves every graph as it is, in every
table and in the counter, wherever it is applied. -/
theorem isIdentity_exact (hl : p.lhs.WellFormed) (hr : p.rhs.WellFormed) :
    (p.isIdentity = true ↔ p.lhs.SameContent p.rhs) ∧
      (p.relabelled = [] → (p.isIdentity = true ↔
        ∀ calls m, p.validate (session calls) m = .ok () →
          ∃ s, p.apply m (session calls) = some (session calls, .ok s))) := by
  have exact := isIdentity_iff_sameContent hl hr
  refine ⟨exact, fun labels => ?_⟩
  rw [exact]
  refine ⟨fun same calls m hm => ?_, fun unchanged => ?_⟩
  · -- No vertex is created, so the application comes to its end.
    obtain ⟨g', s, hcommit⟩ : ∃ g' s, p.commit m (session calls) = some (g', s) :=
      ⟨_, _, commit_eq_some.mpr
        ⟨_, _, _, addVertices_of_none (created_of_sameContent same hr.keyed), rfl, rfl⟩⟩
    have embedding := (validate_iff hl.keyed).mp hm
    have noop := isNoop_of_sameContent same (.session calls) hl hr embedding hcommit
    obtain rfl := commit_of_isNoop hcommit noop
    exact ⟨s, apply_eq_ok.mpr ⟨hm, hcommit⟩⟩
  · -- The left side is left behind by some session.
    obtain ⟨calls, hcalls⟩ := Graph.wellFormed_iff_session.mp (hl.withNextFresh 0 : p.ownHost.WellFormed)
    obtain ⟨s, happly⟩ := unchanged calls p.ownMapping
      (hcalls ▸ (validate_iff hl.keyed).mpr (isEmbedding_ownMapping hl))
    rw [hcalls] at happly
    exact sameContent_of_unchanged hl hr labels (apply_eq_ok.mp happly).2

section

def fork (first second : Vertex) : Graph :=
  ((Graph.empty.addEdge ⟨⟨"a"⟩, ⟨"A"⟩⟩ first).1.addEdge ⟨⟨"a"⟩, ⟨"A"⟩⟩ second).1

/-- The two sides list the edges of a fork in different order. -/
def turnFork : Production where
  lhs := fork ⟨⟨"b"⟩, ⟨"B"⟩⟩ ⟨⟨"c"⟩, ⟨"C"⟩⟩
  rhs := fork ⟨⟨"c"⟩, ⟨"C"⟩⟩ ⟨⟨"b"⟩, ⟨"B"⟩⟩

/-- The sides are different graphs, and still no host gets to see the order of the right side. -/
theorem isIdentity_exact_turnFork :
    turnFork.lhs.WellFormed ∧ turnFork.rhs.WellFormed ∧ turnFork.relabelled = [] ∧ turnFork.lhs ≠ turnFork.rhs ∧
      turnFork.isIdentity = true ∧ turnFork.lhs.SameContent turnFork.rhs ∧
      ∀ calls m, turnFork.validate (session calls) m = .ok () →
        ∃ s, turnFork.apply m (session calls) = some (session calls, .ok s) := by
  have hl : turnFork.lhs.WellFormed := (Graph.WellFormed.empty.addEdge _ _).addEdge _ _
  have hr : turnFork.rhs.WellFormed := (Graph.WellFormed.empty.addEdge _ _).addEdge _ _
  have labels : turnFork.relabelled = [] := by decide +kernel
  have identity : turnFork.isIdentity = true := by decide +kernel
  obtain ⟨content, unchanged⟩ := isIdentity_exact hl hr
  exact ⟨hl, hr, labels, by decide +kernel, identity, content.mp identity, (unchanged labels).mp identity⟩

end

end Production
end GraphGrammar
