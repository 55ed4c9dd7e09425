import GraphGrammar.Proofs.Counts
import GraphGrammar.Proofs.Failures
import GraphGrammar.Proofs.Gluing

/-!
# Graphs that differ in the order of their edges

The edges of a vertex are kept in the order in which they were added, and the phases of an application go through the
edges of a pattern in that order. Neither shows: similar productions lead from similar graphs to similar graphs and
report the same. What a phase leaves is told by the set of the pattern edges, and what it reports is the change of a
count, so the order has no place to enter.
-/

namespace GraphGrammar

namespace Graph

/-- The graphs have the same content and the same counter, so the order of the edges is all they can differ in. -/
structure Similar (g g' : Graph) : Prop extends SameContent g g' where
  nextFresh : g.nextFresh = g'.nextFresh

/-- Two graphs with a report each: the graphs are similar, and the reports are the same. -/
structure SimilarResults {β : Type} (r r' : Graph × β) : Prop where
  graph : r.1.Similar r'.1
  report : r.2 = r'.2

variable {g g' : Graph} {x y : VertexId} {v : Vertex}

/-! ## What the readers tell -/

namespace SameContent

theorem vertex? (h : g.SameContent g') (x : VertexId) : g.vertex? x = g'.vertex? x := congrArg (·[x]?) h.stored

theorem label? (h : g.SameContent g') (x : VertexId) : g.label? x = g'.label? x :=
  congrArg (·[x]?.map Vertex.label) h.stored

theorem contains (h : g.SameContent g') (x : VertexId) : g.contains x = g'.contains x :=
  congrArg (·.contains x) h.stored

theorem ids (h : g.SameContent g') : g.ids = g'.ids := congrArg (·.keys) h.stored

theorem vertices (h : g.SameContent g') : g.vertices = g'.vertices := congrArg (·.values) h.stored

theorem vertexCount (h : g.SameContent g') : g.vertexCount = g'.vertexCount := congrArg (·.size) h.stored

theorem isEmpty (h : g.SameContent g') : g.isEmpty = g'.isEmpty := congrArg (·.isEmpty) h.stored

theorem keyed (h : g.SameContent g') (hg : g.Keyed) : g'.Keyed :=
  hg.of_vertex? fun x _ hx => (h.vertex? x).trans hx

theorem mem_successors (h : g.SameContent g') : y ∈ g.successors x ↔ y ∈ g'.successors x := by
  rw [← hasEdge_iff, ← hasEdge_iff, h.hasEdge]

theorem edgeCount (h : g.SameContent g') (hg : g.WellFormed) (hg' : g'.WellFormed) : g.edgeCount = g'.edgeCount :=
  hg.edgeCount_eq hg' fun _ _ => h.mem_successors

theorem of_readers (vertex? : ∀ x, g.vertex? x = g'.vertex? x)
    (successors : ∀ x y, y ∈ g.successors x ↔ y ∈ g'.successors x) : g.SameContent g' := by
  refine ⟨Std.ExtTreeMap.ext_getElem? vertex?, fun x y => ?_⟩
  rw [Bool.eq_iff_iff, hasEdge_iff, hasEdge_iff, successors]

theorem of_labels (hg : g.Keyed) (hg' : g'.Keyed) (label? : ∀ x, g.label? x = g'.label? x)
    (successors : ∀ x y, y ∈ g.successors x ↔ y ∈ g'.successors x) : g.SameContent g' :=
  .of_readers (fun x => by rw [hg.vertex?_eq, hg'.vertex?_eq, label?]) successors

theorem iff_edges : g.SameContent g' ↔ g.stored = g'.stored ∧ (∀ e ∈ g.edges, g'.hasEdge e.1 e.2 = true) ∧
    ∀ e ∈ g'.edges, g.hasEdge e.1 e.2 = true := by
  simp only [Prod.forall, mem_edges, hasEdge_iff]
  refine ⟨fun h => ⟨h.stored, fun x y => h.mem_successors.mp, fun x y => h.mem_successors.mpr⟩, ?_⟩
  intro h
  obtain ⟨stored, there, back⟩ := h
  exact of_readers (fun x => congrArg (·[x]?) stored) fun x y => ⟨there x y, back x y⟩

instance : Decidable (g.SameContent g') := decidable_of_iff _ iff_edges.symm

end SameContent

/-! ## Drawing a name and adding a vertex -/

theorem SameContent.searchFresh (h : g.SameContent g') (rounds : Nat) (n : Counter) :
    g.searchFresh rounds n = g'.searchFresh rounds n := by
  induction rounds generalizing n with
  | zero => rfl
  | succ rounds ih => rw [Graph.searchFresh, Graph.searchFresh, h.contains, ih]

namespace Similar

instance : Decidable (g.Similar g') :=
  decidable_of_iff (g.SameContent g' ∧ g.nextFresh = g'.nextFresh) ⟨fun h => ⟨h.1, h.2⟩, fun h => ⟨h.1, h.2⟩⟩

theorem fresh (h : g.Similar g') : Option.Rel SimilarResults g.fresh g'.fresh := by
  have drawn : g.searchFresh (g.vertexCount + 1) g.nextFresh = g'.searchFresh (g'.vertexCount + 1) g'.nextFresh := by
    rw [h.toSameContent.searchFresh, h.vertexCount, h.nextFresh]
  rw [Graph.fresh, Graph.fresh, drawn]
  cases g'.searchFresh (g'.vertexCount + 1) g'.nextFresh with
  | none => exact .none
  | some found => exact .some ⟨⟨⟨h.stored, h.hasEdge⟩, rfl⟩, rfl⟩

theorem addVertex (h : g.Similar g') : (g.addVertex v).1.Similar (g'.addVertex v).1 := by
  refine ⟨.of_readers (fun x => ?_) fun x y => ?_, ?_⟩
  · rw [vertex?_addVertex, vertex?_addVertex, h.vertex?, h.contains]
  · rw [successors_addVertex, successors_addVertex, h.mem_successors]
  · rw [nextFresh_addVertex, nextFresh_addVertex, h.nextFresh]

end Similar
end Graph

theorem allocate_similar {s s' : Graph × Nat × Mapping} (h : Graph.SimilarResults s s') (v : Vertex) :
    Option.Rel Graph.SimilarResults (allocate s v) (allocate s' v) := by
  refine rel_bind h.graph.fresh fun drawn drawn' hdrawn => ?_
  obtain ⟨k, host⟩ := drawn
  obtain ⟨k', host'⟩ := drawn'
  obtain ⟨hgraph, rfl⟩ := hdrawn
  refine .some ⟨hgraph.addVertex, ?_⟩
  rw [h.report]

theorem IsEmbedding.of_sameContent {pattern pattern' host host' : Graph} {m : Mapping} (h : IsEmbedding pattern host m)
    (hp : pattern.SameContent pattern') (hh : host.SameContent host') : IsEmbedding pattern' host' m := by
  refine ⟨fun x => ?_, h.injective, fun x z hz => ?_, fun x y hxy => ?_⟩
  · rw [← hp.contains]
    exact h.domain x
  · rw [← hp.label?, ← hh.label?]
    exact h.label x z hz
  · rw [← hp.hasEdge] at hxy
    obtain ⟨u, v, hu, hv, huv⟩ := h.edge x y hxy
    rw [hh.hasEdge] at huv
    exact ⟨u, v, hu, hv, huv⟩

/-! ## The phases -/

namespace Production

/-- The productions have one name and sides of the same content. -/
structure Similar (p p' : Production) : Prop where
  name : p.name = p'.name
  lhs : p.lhs.SameContent p'.lhs
  rhs : p.rhs.SameContent p'.rhs

variable {p p' : Production} {g g' : Graph} {left right : Mapping} {e : Edge}

theorem similar_iff :
    p.Similar p' ↔ p.name = p'.name ∧ p.lhs.SameContent p'.lhs ∧ p.rhs.SameContent p'.rhs :=
  ⟨fun h => ⟨h.name, h.lhs, h.rhs⟩, fun h => ⟨h.1, h.2.1, h.2.2⟩⟩

instance : Decidable (p.Similar p') := decidable_of_iff _ similar_iff.symm

namespace Similar

theorem carryOver (hp : p.Similar p') : p.carryOver left = p'.carryOver left := by
  rw [Production.carryOver, Production.carryOver, hp.rhs.ids]

theorem deleted (hp : p.Similar p') : p.deleted = p'.deleted := by
  simp only [Production.deleted, hp.lhs.ids, hp.rhs.contains]

theorem created (hp : p.Similar p') : p.created = p'.created := by
  simp only [Production.created, hp.rhs.vertices, hp.lhs.contains]

theorem keeps (hp : p.Similar p') : p.keeps right e = p'.keeps right e := by
  obtain ⟨u, v⟩ := e
  rw [Bool.eq_iff_iff, keeps_iff, keeps_iff]
  simp only [hp.rhs.hasEdge]

theorem mem_lostEdges (hp : p.Similar p') : e ∈ p.lostEdges left right ↔ e ∈ p'.lostEdges left right := by
  obtain ⟨u, v⟩ := e
  simp only [Production.mem_lostEdges, hp.lhs.hasEdge, hp.keeps]

section
variable (hp : p.Similar p') (h : g.Similar g')
include hp h

theorem eraseEdges (left right : Mapping) (hg : g.WellFormed) (hg' : g'.WellFormed) :
    Graph.SimilarResults (p.eraseEdges left right g) (p'.eraseEdges left right g') := by
  have similar : (p.eraseEdges left right g).1.Similar (p'.eraseEdges left right g').1 := by
    rw [eraseEdges_fst, eraseEdges_fst]
    refine ⟨.of_readers (fun x => ?_) fun x y => ?_, ?_⟩
    · rw [Graph.vertex?_foldl_eraseEdge, Graph.vertex?_foldl_eraseEdge, h.vertex?]
    · rw [hg.successors_foldl_eraseEdge, hg'.successors_foldl_eraseEdge]
      simp only [List.mem_filter, h.mem_successors, hp.mem_lostEdges]
    · rw [Graph.nextFresh_foldl_eraseEdge, Graph.nextFresh_foldl_eraseEdge, h.nextFresh]
  have count : (p.eraseEdges left right g).1.edgeCount + (p.eraseEdges left right g).2 = g.edgeCount :=
    eraseEdges_count hg
  have count' : (p'.eraseEdges left right g').1.edgeCount + (p'.eraseEdges left right g').2 = g'.edgeCount :=
    eraseEdges_count hg'
  rw [similar.edgeCount hg.eraseEdges hg'.eraseEdges, h.edgeCount hg hg'] at count
  exact ⟨similar, by omega⟩

theorem eraseVertices (left : Mapping) (hg : g.WellFormed) (hg' : g'.WellFormed) :
    Graph.SimilarResults (p.eraseVertices left g) (p'.eraseVertices left g') := by
  have similar : (p.eraseVertices left g).1.Similar (p'.eraseVertices left g').1 := by
    rw [eraseVertices_fst, eraseVertices_fst, hp.deleted]
    refine ⟨.of_readers (fun x => ?_) fun x y => ?_, ?_⟩
    · rw [Graph.vertex?_foldl_eraseVertex, Graph.vertex?_foldl_eraseVertex, h.vertex?]
    · rw [hg.successors_foldl_eraseVertex, hg'.successors_foldl_eraseVertex]
      split
      · rfl
      · rw [List.mem_filter, List.mem_filter, h.mem_successors]
    · rw [Graph.nextFresh_foldl_eraseVertex, Graph.nextFresh_foldl_eraseVertex, h.nextFresh]
  have count : (p.eraseVertices left g).1.vertexCount + (p.eraseVertices left g).2 = g.vertexCount :=
    eraseVertices_count
  have count' : (p'.eraseVertices left g').1.vertexCount + (p'.eraseVertices left g').2 = g'.vertexCount :=
    eraseVertices_count
  rw [similar.vertexCount, h.vertexCount] at count
  exact ⟨similar, by omega⟩

theorem addVertices (right : Mapping) :
    Option.Rel Graph.SimilarResults (p.addVertices right g) (p'.addVertices right g') := by
  rw [addVertices_eq, addVertices_eq, hp.created]
  have start : Graph.SimilarResults (g, 0, right) (g', 0, right) := ⟨h, rfl⟩
  exact foldlM_rel start fun s s' => allocate_similar

theorem addEdges (right : Mapping) (hg : g.WellFormed) (hg' : g'.WellFormed) :
    Graph.SimilarResults (p.addEdges right g) (p'.addEdges right g') := by
  have similar : (p.addEdges right g).1.Similar (p'.addEdges right g').1 := by
    rw [addEdges_fst, addEdges_fst]
    refine ⟨.of_readers (fun x => ?_) fun x y => ?_, ?_⟩
    · rw [Graph.vertex?_foldl_connect, Graph.vertex?_foldl_connect, h.vertex?]
    · simp only [Graph.mem_successors_foldl_connect, mem_images, hp.rhs.hasEdge, h.mem_successors, h.contains]
    · rw [Graph.nextFresh_foldl_connect, Graph.nextFresh_foldl_connect, h.nextFresh]
  have count : (p.addEdges right g).1.edgeCount = g.edgeCount + (p.addEdges right g).2 := addEdges_count hg
  have count' : (p'.addEdges right g').1.edgeCount = g'.edgeCount + (p'.addEdges right g').2 := addEdges_count hg'
  rw [similar.edgeCount hg.addEdges hg'.addEdges, h.edgeCount hg hg'] at count
  exact ⟨similar, by omega⟩

theorem commit (left : Mapping) (hg : g.WellFormed) (hg' : g'.WellFormed) :
    Option.Rel Graph.SimilarResults (p.commit left g) (p'.commit left g') := by
  simp only [Production.commit, hp.carryOver]
  generalize p'.carryOver left = right
  have edges := hp.eraseEdges h left right hg hg'
  have vertices := hp.eraseVertices edges.graph left hg.eraseEdges hg'.eraseEdges
  have names := hp.addVertices vertices.graph right
  have hk : (p.eraseVertices left (p.eraseEdges left right g).1).1.WellFormed := hg.eraseEdges.eraseVertices
  have hk' : (p'.eraseVertices left (p'.eraseEdges left right g').1).1.WellFormed := hg'.eraseEdges.eraseVertices
  simp only [edges.report, vertices.report]
  generalize (p.eraseVertices left (p.eraseEdges left right g).1).1 = k at names hk
  generalize (p'.eraseVertices left (p'.eraseEdges left right g').1).1 = k' at names hk'
  rcases hrun : p.addVertices right k with _ | ⟨g₃, n, r⟩ <;>
    rcases hrun' : p'.addVertices right k' with _ | ⟨g₃', n', r'⟩ <;> rw [hrun, hrun'] at names <;> cases names
  · exact .none
  · next similar =>
    obtain ⟨rfl, rfl⟩ := Prod.mk.inj similar.report
    have links := hp.addEdges similar.graph r (hk.addVertices hrun) (hk'.addVertices hrun')
    refine .some ⟨links.graph, ?_⟩
    rw [links.report]

end
end Similar
end Production
end GraphGrammar
