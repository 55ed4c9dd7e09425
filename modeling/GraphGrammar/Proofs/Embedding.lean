import GraphGrammar.Application
import GraphGrammar.Proofs.Mappings
import GraphGrammar.Proofs.Readers

/-!
# Embeddings

An embedding of a pattern into a host graph is an injective mapping of exactly the vertices of the pattern that
keeps labels and sends edges to edges. `Production.validate`, which looks for faults one kind after another,
accepts exactly the embeddings of the left side.
-/

namespace GraphGrammar
open Std

structure IsEmbedding (pattern host : Graph) (m : Mapping) : Prop where
  /-- The vertices of the pattern are mapped, and nothing else is. -/
  domain : ∀ x, m.contains x = true ↔ pattern.contains x = true
  /-- No two vertices have one image. -/
  injective : m.Injective
  /-- An image is a vertex of the host with the same label. -/
  label : ∀ x z, m.get? x = some z → host.label? z = pattern.label? x
  /-- The image of an edge is an edge of the host. -/
  edge : ∀ x y, pattern.hasEdge x y = true →
    ∃ u v, m.get? x = some u ∧ m.get? y = some v ∧ host.hasEdge u v = true

/-- The mapping embeds the part of the pattern on some of its vertices, with the edges among them. -/
structure IsPartialEmbedding (pattern host : Graph) (xs : List VertexId) (m : Mapping) : Prop where
  domain : ∀ x, m.contains x = true ↔ x ∈ xs
  injective : m.Injective
  label : ∀ x z, m.get? x = some z → host.label? z = pattern.label? x
  edge : ∀ x y u v, m.get? x = some u → m.get? y = some v → pattern.hasEdge x y = true → host.hasEdge u v = true

/-- The graph `g'` has the vertices of `g`, with their labels, and the edges of `g`. It may have more of both. -/
structure Graph.Extends (g' g : Graph) : Prop where
  label? : ∀ x l, g.label? x = some l → g'.label? x = some l
  hasEdge : ∀ x y, g.hasEdge x y = true → g'.hasEdge x y = true

namespace IsEmbedding

variable {pattern host host' : Graph} {m : Mapping} {x y u v z : VertexId}

theorem exists_image (h : IsEmbedding pattern host m) (hx : pattern.contains x = true) :
    ∃ z, m.get? x = some z := Mapping.contains_iff_get?.mp ((h.domain x).mpr hx)

theorem contains_of_image (h : IsEmbedding pattern host m) (hx : m.get? x = some z) : pattern.contains x = true :=
  (h.domain x).mp (Mapping.contains_iff_get?.mpr ⟨z, hx⟩)

theorem contains_image (h : IsEmbedding pattern host m) (hx : m.get? x = some z) : host.contains z = true := by
  obtain ⟨l, hl⟩ := Graph.contains_iff_label?.mp (h.contains_of_image hx)
  exact Graph.contains_of_label? (l := l) (by rw [h.label x z hx, hl])

theorem mem_successors_image (h : IsEmbedding pattern host m) (hu : m.get? x = some u) (hv : m.get? y = some v)
    (hxy : y ∈ pattern.successors x) : v ∈ host.successors u := by
  obtain ⟨u', v', hu', hv', he⟩ := h.edge x y (Graph.hasEdge_iff.mpr hxy)
  rw [hu, Option.some.injEq] at hu'
  rw [hv, Option.some.injEq] at hv'
  rw [hu', hv']
  exact Graph.hasEdge_iff.mp he

/-- What a host has besides the images is of no account. -/
theorem extend (h : IsEmbedding pattern host m) (more : host'.Extends host) : IsEmbedding pattern host' m := by
  refine ⟨h.domain, h.injective, fun x z hz => ?_, fun x y hxy => ?_⟩
  · obtain ⟨l, hl⟩ := Graph.contains_iff_label?.mp (h.contains_of_image hz)
    rw [hl]
    exact more.label? z l ((h.label x z hz).trans hl)
  · obtain ⟨u, v, hu, hv, he⟩ := h.edge x y hxy
    exact ⟨u, v, hu, hv, more.hasEdge u v he⟩

end IsEmbedding

namespace Production

variable {p : Production} {g : Graph} {m : Mapping} {v : Vertex} {x y : VertexId}

theorem keyFault?_eq_none : p.keyFault? m = none ↔ ∀ x, m.contains x = true → p.lhs.contains x = true := by
  rw [keyFault?, Option.map_eq_none_iff, List.find?_eq_none]
  refine ⟨?_, ?_⟩
  · intro h x hx
    obtain ⟨z, hz⟩ := Mapping.contains_iff_get?.mp hx
    simpa using h (x, z) (Mapping.mem_toList.mpr hz)
  · intro h pair hx
    obtain ⟨x, z⟩ := pair
    simpa using h x (Mapping.contains_iff_get?.mpr ⟨z, Mapping.mem_toList.mp hx⟩)

theorem collisionFault?_eq_none : collisionFault? m = none ↔ m.Injective := by
  rw [collisionFault?, Option.map_eq_none_iff, Mapping.collision?_eq_none]

theorem vertexFault?_eq_none :
    vertexFault? g m v = none ↔ ∃ z, m.get? v.id = some z ∧ g.label? z = some v.label := by
  rw [vertexFault?]
  cases m.get? v.id with
  | none => simp
  | some z =>
    cases hl : g.label? z with
    | none => simp [hl]
    | some l => by_cases h : l = v.label <;> simp [h, hl]

theorem edgeFault?_eq_none :
    edgeFault? g m (x, y) = none ↔
      ∃ u v, m.get? x = some u ∧ m.get? y = some v ∧ g.hasEdge u v = true := by
  rw [edgeFault?, Mapping.edgeImage?]
  cases m.get? x <;> cases m.get? y <;> simp

theorem fault?_eq_none :
    p.fault? g m = none ↔
      p.keyFault? m = none ∧ collisionFault? m = none ∧ (∀ v ∈ p.lhs.vertices, vertexFault? g m v = none) ∧
        ∀ e ∈ p.lhs.edges, edgeFault? g m e = none := by
  simp only [fault?, Option.orElse_eq_orElse, Option.orElse_eq_or, Option.or_eq_none_iff,
    List.findSome?_eq_none_iff]

/-- The vertices of both sides are stored under their own identifiers. -/
structure Keyed (p : Production) : Prop where
  lhs : p.lhs.Keyed
  rhs : p.rhs.Keyed

theorem validate_iff (hp : p.lhs.Keyed) : p.validate g m = .ok () ↔ IsEmbedding p.lhs g m := by
  have hv : p.validate g m = .ok () ↔ p.fault? g m = none := by
    rw [validate]; cases p.fault? g m <;> simp
  rw [hv, fault?_eq_none, keyFault?_eq_none, collisionFault?_eq_none]
  refine ⟨?_, ?_⟩
  · intro h
    obtain ⟨keys, injective, vertices, edges⟩ := h
    -- The images that the vertices of the left side are found to have.
    have image : ∀ x l, p.lhs.label? x = some l → ∃ z, m.get? x = some z ∧ g.label? z = some l :=
      fun x l hl => vertexFault?_eq_none.mp (vertices ⟨x, l⟩ (hp.mem_vertices.mpr hl))
    refine ⟨fun x => ⟨keys x, fun hx => ?_⟩, injective, fun x z hz => ?_, fun x y hxy => ?_⟩
    · obtain ⟨l, hl⟩ := Graph.contains_iff_label?.mp hx
      obtain ⟨z, hz, -⟩ := image x l hl
      exact Mapping.contains_iff_get?.mpr ⟨z, hz⟩
    · -- The label that the image is compared with is the one of the vertex itself.
      obtain ⟨l, hl⟩ := Graph.contains_iff_label?.mp (keys x (Mapping.contains_iff_get?.mpr ⟨z, hz⟩))
      obtain ⟨z', hz', hl'⟩ := image x l hl
      rw [hz, Option.some.injEq] at hz'
      rw [hz', hl', hl]
    · exact edgeFault?_eq_none.mp (edges (x, y) (Graph.mem_edges.mpr (Graph.hasEdge_iff.mp hxy)))
  · intro h
    refine ⟨fun x => (h.domain x).mp, h.injective, fun v hv => ?_, ?_⟩
    · have hl := hp.mem_vertices.mp hv
      obtain ⟨z, hz⟩ := h.exists_image (Graph.contains_of_label? hl)
      exact vertexFault?_eq_none.mpr ⟨z, hz, by rw [h.label _ _ hz, hl]⟩
    · intro e he
      obtain ⟨x, y⟩ := e
      exact edgeFault?_eq_none.mpr (h.edge x y (Graph.hasEdge_iff.mpr (Graph.mem_edges.mp he)))

theorem apply_of_accepted (h : p.validate g m = .ok ()) :
    p.apply m g = (p.commit m g).map fun (g, summary) => (g, .ok summary) := by
  rw [apply, h]

theorem apply_of_refused {e : Error} (h : p.validate g m = .error e) : p.apply m g = some (g, .error e) := by
  rw [apply, h]

theorem apply_eq_ok {g' : Graph} {s : Summary} :
    p.apply m g = some (g', .ok s) ↔ p.validate g m = .ok () ∧ p.commit m g = some (g', s) := by
  cases hv : p.validate g m with
  | error e => simp [apply_of_refused hv]
  | ok u => simp [apply_of_accepted hv]

theorem apply_eq_error {g' : Graph} {e : Error} :
    p.apply m g = some (g', .error e) ↔ g' = g ∧ p.validate g m = .error e := by
  cases hv : p.validate g m with
  | error e' => simp [apply_of_refused hv, eq_comm]
  | ok u => simp [apply_of_accepted hv]

end Production
end GraphGrammar
