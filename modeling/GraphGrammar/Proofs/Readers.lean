import GraphGrammar.Graph.Basic
import GraphGrammar.Proofs.Tables

/-!
# What the readers of a graph tell after each change

Every later law about graphs is stated on `vertex?`, `label?`, `successors` and `sourceSet`. Here each operation that
changes a graph gets one equation for each of these readers, so that nothing after this module opens the three
tables again. The listed vertices are told by the readers where each is stored under its own identifier (`Keyed`). The
equations for `eraseVertex` hold of tables that agree with each other and wait for the invariant
(`GraphGrammar.Proofs.WellFormed`).
-/

namespace GraphGrammar.Graph
open Std

variable {g : Graph} {a b x y : VertexId} {v : Vertex} {l : Label}

/-! ## Lists against lookups -/

theorem contains_eq_isSome_vertex? : g.contains x = (g.vertex? x).isSome := ExtTreeMap.contains_eq_isSome_getElem?

theorem contains_eq_isSome : g.contains x = (g.label? x).isSome := by
  rw [label?, Option.isSome_map, contains_eq_isSome_vertex?]

theorem contains_iff_label? : g.contains x = true ↔ ∃ l, g.label? x = some l := by
  rw [contains_eq_isSome, Option.isSome_iff_exists]

theorem contains_of_label? (h : g.label? x = some l) : g.contains x = true :=
  contains_iff_label?.mpr ⟨l, h⟩

theorem label?_eq_none_iff : g.label? x = none ↔ g.contains x = false := by
  rw [contains_eq_isSome]; cases g.label? x <;> simp

@[simp] theorem hasEdge_iff : g.hasEdge x y = true ↔ y ∈ g.successors x := by simp [hasEdge]

@[simp] theorem mem_ids : x ∈ g.ids ↔ g.contains x = true := by simp [ids, contains]

theorem nodup_ids (g : Graph) : g.ids.Nodup := ExtTreeMap.nodup_keys

theorem ids_ordered (g : Graph) : g.ids.Pairwise (· < ·) := ExtTreeMap.ordered_keys

theorem length_ids (g : Graph) : g.ids.length = g.vertexCount := ExtTreeMap.length_keys

theorem mem_vertices_iff_vertex? : v ∈ g.vertices ↔ ∃ x, g.vertex? x = some v := by
  rw [vertices, Tables.values_eq_map_snd, List.mem_map]
  refine ⟨?_, ?_⟩
  · intro h
    obtain ⟨⟨x, w⟩, hx, rfl⟩ := h
    exact ⟨x, ExtTreeMap.mem_toList_iff_getElem?_eq_some.mp hx⟩
  · intro h
    obtain ⟨x, hx⟩ := h
    exact ⟨(x, v), ExtTreeMap.mem_toList_iff_getElem?_eq_some.mpr hx, rfl⟩

theorem isEmpty_iff : g.isEmpty = true ↔ ∀ x, g.contains x = false := by
  rw [isEmpty, ExtTreeMap.isEmpty_iff]
  refine ⟨fun h x => by rw [contains, h]; exact ExtTreeMap.contains_empty, fun h => ?_⟩
  apply ExtTreeMap.ext_getElem?
  intro k
  rw [ExtTreeMap.getElem?_empty, ← Option.not_isSome_iff_eq_none]
  have hk := h k
  rw [contains_eq_isSome_vertex?] at hk
  exact Bool.eq_false_iff.mp hk

@[simp] theorem mem_edges : (x, y) ∈ g.edges ↔ y ∈ g.successors x := by
  rw [edges, List.mem_flatMap, successors]
  refine ⟨?_, ?_⟩
  · intro h
    obtain ⟨⟨u, ts⟩, hu, hy⟩ := h
    obtain ⟨t, ht, he⟩ := List.mem_map.mp hy
    obtain ⟨rfl, rfl⟩ := Prod.mk.injEq .. ▸ he
    rw [ExtTreeMap.mem_toList_iff_getElem?_eq_some] at hu
    simpa [hu] using ht
  · intro hy
    cases ht : g.targets[x]? with
    | none => simp [ht] at hy
    | some ts =>
      rw [ht, Option.getD_some] at hy
      exact ⟨(x, ts), ExtTreeMap.mem_toList_iff_getElem?_eq_some.mpr ht, List.mem_map_of_mem hy⟩

theorem mem_predecessors : x ∈ g.predecessors y ↔ x ∈ g.sourceSet y := ExtTreeSet.mem_toList

theorem predecessors_ordered (g : Graph) (x : VertexId) : (g.predecessors x).Pairwise (· < ·) :=
  ExtTreeSet.ordered_toList

/-! ## Vertices under their own identifiers -/

/-- Every vertex is stored under its own identifier. -/
def Keyed (g : Graph) : Prop := ∀ x v, g.vertex? x = some v → v.id = x

namespace Keyed

theorem vertex?_eq (hg : g.Keyed) : g.vertex? x = (g.label? x).map (Vertex.mk x) := by
  rw [label?, Option.map_map]
  cases hx : g.vertex? x with
  | none => rfl
  | some v =>
    obtain rfl := hg x v hx
    rfl

theorem vertex?_eq_some (hg : g.Keyed) : g.vertex? x = some v ↔ v.id = x ∧ g.label? x = some v.label := by
  obtain ⟨id, label⟩ := v
  rw [hg.vertex?_eq]
  cases g.label? x <;> simp [eq_comm]

/-- The labels determine what is stored. -/
theorem stored_eq {g' : Graph} (hg : g.Keyed) (hg' : g'.Keyed) (labels : ∀ x, g.label? x = g'.label? x) :
    g.stored = g'.stored := by
  apply ExtTreeMap.ext_getElem?
  intro x
  have h : g.vertex? x = g'.vertex? x := by rw [hg.vertex?_eq, hg'.vertex?_eq, labels]
  exact h

/-- What another graph stores of a graph is under its own identifiers there. -/
theorem of_vertex? {g' : Graph} (hg : g.Keyed) (h : ∀ x v, g'.vertex? x = some v → g.vertex? x = some v) : g'.Keyed :=
  fun x v hv => hg x v (h x v hv)

theorem mem_vertices (hg : g.Keyed) : v ∈ g.vertices ↔ g.label? v.id = some v.label := by
  simp only [mem_vertices_iff_vertex?, hg.vertex?_eq_some]
  refine ⟨?_, fun h => ⟨v.id, rfl, h⟩⟩
  intro h
  obtain ⟨x, rfl, hx⟩ := h
  exact hx

theorem map_id_vertices (hg : g.Keyed) : g.vertices.map (·.id) = g.ids := by
  rw [vertices, Tables.values_eq_map_snd, ids, ← ExtTreeMap.map_fst_toList_eq_keys, List.map_map]
  refine List.map_congr_left fun e he => ?_
  exact hg e.1 e.2 (ExtTreeMap.mem_toList_iff_getElem?_eq_some.mp he)

theorem mem_withLabel (hg : g.Keyed) : x ∈ g.withLabel l ↔ g.label? x = some l := by
  simp only [withLabel, List.mem_map, List.mem_filter, hg.mem_vertices, decide_eq_true_eq]
  refine ⟨?_, ?_⟩
  · intro h
    obtain ⟨v, ⟨hv, rfl⟩, rfl⟩ := h
    exact hv
  · intro h
    exact ⟨⟨x, l⟩, ⟨h, rfl⟩, rfl⟩

theorem withLabel_ordered (hg : g.Keyed) (l : Label) : (g.withLabel l).Pairwise (· < ·) := by
  have h := g.ids_ordered
  rw [← hg.map_id_vertices] at h
  exact h.sublist (List.filter_sublist.map _)

end Keyed

/-! ## The empty graph -/

@[simp] theorem vertex?_empty : (∅ : Graph).vertex? x = none := ExtTreeMap.getElem?_empty

@[simp] theorem label?_empty : (∅ : Graph).label? x = none := congrArg (Option.map _) vertex?_empty

@[simp] theorem contains_empty : (∅ : Graph).contains x = false := ExtTreeMap.contains_empty

@[simp] theorem successors_empty : (∅ : Graph).successors x = [] :=
  congrArg (Option.getD · []) ExtTreeMap.getElem?_empty

@[simp] theorem sourceSet_empty : (∅ : Graph).sourceSet x = ∅ :=
  congrArg (Option.getD · ∅) ExtTreeMap.getElem?_empty

/-! ## Adding a vertex -/

theorem vertex?_addVertex :
    (g.addVertex v).1.vertex? x = if x = v.id ∧ g.contains v.id = false then some v else g.vertex? x := by
  rw [addVertex]
  split
  · next h => simp [h]
  · next h =>
    rw [vertex?, ExtTreeMap.getElem?_insert, vertex?]
    simp only [Std.compare_eq_iff_eq, eq_comm (a := v.id), Bool.not_eq_true] at h ⊢
    simp [h]

theorem Keyed.addVertex (hg : g.Keyed) (v : Vertex) : (g.addVertex v).1.Keyed := by
  intro x w h
  rw [vertex?_addVertex] at h
  split at h
  · next hx =>
    obtain rfl := Option.some.inj h
    exact hx.1.symm
  · exact hg x w h

theorem label?_addVertex :
    (g.addVertex v).1.label? x =
      if x = v.id ∧ g.contains v.id = false then some v.label else g.label? x := by
  rw [label?, vertex?_addVertex]
  split <;> rfl

theorem contains_addVertex : (g.addVertex v).1.contains x = true ↔ g.contains x = true ∨ x = v.id := by
  rw [contains_eq_isSome, label?_addVertex]
  by_cases hx : x = v.id
  · subst hx
    cases hc : g.contains v.id <;> simp [hc, ← contains_eq_isSome]
  · simp [hx, contains_eq_isSome]

/-- A new vertex has no edges: its lists were empty as long as it was unknown. -/
@[simp] theorem successors_addVertex : (g.addVertex v).1.successors x = g.successors x := by
  rw [addVertex]
  split
  · rfl
  · rw [successors, ExtTreeMap.getElem?_insertIfNew, successors]
    split
    · next h =>
      obtain ⟨hx, hn⟩ := h
      rw [Std.compare_eq_iff_eq.mp hx] at hn
      simp [ExtTreeMap.getElem?_eq_none hn]
    · rfl

@[simp] theorem sourceSet_addVertex : (g.addVertex v).1.sourceSet x = g.sourceSet x := by
  rw [addVertex]
  split
  · rfl
  · rw [sourceSet, ExtTreeMap.getElem?_insertIfNew, sourceSet]
    split
    · next h =>
      obtain ⟨hx, hn⟩ := h
      rw [Std.compare_eq_iff_eq.mp hx] at hn
      simp [ExtTreeMap.getElem?_eq_none hn]
    · rfl

theorem mem_targets_addVertex :
    x ∈ (g.addVertex v).1.targets ↔ x ∈ g.targets ∨ (x = v.id ∧ g.contains v.id = false) := by
  rw [addVertex]
  split
  · next h => simp [h]
  · next h => simp [h, eq_comm (a := x), or_comm]

theorem mem_sources_addVertex :
    x ∈ (g.addVertex v).1.sources ↔ x ∈ g.sources ∨ (x = v.id ∧ g.contains v.id = false) := by
  rw [addVertex]
  split
  · next h => simp [h]
  · next h => simp [h, eq_comm (a := x), or_comm]

@[simp] theorem nextFresh_addVertex : (g.addVertex v).1.nextFresh = g.nextFresh := by
  rw [addVertex]; split <;> rfl

theorem vertexCount_addVertex :
    (g.addVertex v).1.vertexCount = g.vertexCount + if g.contains v.id then 0 else 1 := by
  rw [addVertex]
  split
  · next h => simp
  · next h =>
    rw [vertexCount, ExtTreeMap.size_insert, vertexCount]
    simp [contains] at h
    simp [h]

/-! ## Adding an edge -/

@[simp] theorem vertex?_link : (g.link a b).1.vertex? x = g.vertex? x := by
  rw [link]; split <;> rfl

@[simp] theorem label?_link : (g.link a b).1.label? x = g.label? x := congrArg (Option.map _) vertex?_link

@[simp] theorem contains_link : (g.link a b).1.contains x = g.contains x := by
  rw [link]; split <;> rfl

@[simp] theorem nextFresh_link : (g.link a b).1.nextFresh = g.nextFresh := by
  rw [link]; split <;> rfl

@[simp] theorem vertexCount_link : (g.link a b).1.vertexCount = g.vertexCount := by
  rw [link]; split <;> rfl

theorem successors_link :
    (g.link a b).1.successors x =
      if x = a ∧ b ∉ g.successors a then g.successors a ++ [b] else g.successors x := by
  rw [link]
  split
  · next h => simp [hasEdge_iff.mp h]
  · next h =>
    rw [hasEdge_iff] at h
    rw [successors, ExtTreeMap.getElem?_insert]
    by_cases hx : x = a
    · simp [hx, h]
    · simp [hx, Ne.symm hx, successors]

theorem mem_successors_link :
    y ∈ (g.link a b).1.successors x ↔ y ∈ g.successors x ∨ (x = a ∧ y = b) := by
  rw [successors_link]
  split
  · next h => simp [h.1]
  · next h =>
    refine ⟨Or.inl, ?_⟩
    intro hor
    rcases hor with hy | ⟨rfl, rfl⟩
    · exact hy
    · exact Classical.byContradiction fun hn => h ⟨rfl, hn⟩

/-- An edge that is there already adds no source, even where the tables do not agree. -/
theorem sourceSet_link :
    (g.link a b).1.sourceSet x =
      if x = b ∧ b ∉ g.successors a then (g.sourceSet b).insert a else g.sourceSet x := by
  rw [link]
  split
  · next h => simp [hasEdge_iff.mp h]
  · next h =>
    rw [hasEdge_iff] at h
    rw [sourceSet, ExtTreeMap.getElem?_insert]
    by_cases hx : x = b
    · simp [hx, h]
    · simp [hx, Ne.symm hx, sourceSet]

theorem mem_targets_link (h : a ∈ g.targets) : x ∈ (g.link a b).1.targets ↔ x ∈ g.targets := by
  rw [link]
  split
  · rfl
  · exact Tables.mem_insert_of_mem h

theorem mem_sources_link (h : b ∈ g.sources) : x ∈ (g.link a b).1.sources ↔ x ∈ g.sources := by
  rw [link]
  split
  · rfl
  · exact Tables.mem_insert_of_mem h

theorem connect_eq_ok (ha : g.contains a = true) (hb : g.contains b = true) :
    g.connect a b = ((g.link a b).1, .ok (g.link a b).2) := by
  simp [connect, ha, hb]

/-- An edge with an unknown end is refused, and the graph stays as it is. -/
theorem connect_eq_error (h : ¬ (g.contains a = true ∧ g.contains b = true)) :
    ∃ e, g.connect a b = (g, .error e) := by
  rw [connect]
  cases ha : g.contains a <;> cases hb : g.contains b <;> simp_all

theorem connect_fst :
    (g.connect a b).1 = if g.contains a = true ∧ g.contains b = true then (g.link a b).1 else g := by
  split
  · next h => rw [connect_eq_ok h.1 h.2]
  · next h =>
    obtain ⟨e, he⟩ := connect_eq_error h
    rw [he]

/-! ## Erasing an edge -/

@[simp] theorem vertex?_eraseEdge : (g.eraseEdge a b).1.vertex? x = g.vertex? x := by
  rw [eraseEdge]; split <;> rfl

@[simp] theorem label?_eraseEdge : (g.eraseEdge a b).1.label? x = g.label? x :=
  congrArg (Option.map _) vertex?_eraseEdge

@[simp] theorem contains_eraseEdge : (g.eraseEdge a b).1.contains x = g.contains x := by
  rw [eraseEdge]; split <;> rfl

@[simp] theorem nextFresh_eraseEdge : (g.eraseEdge a b).1.nextFresh = g.nextFresh := by
  rw [eraseEdge]; split <;> rfl

@[simp] theorem vertexCount_eraseEdge : (g.eraseEdge a b).1.vertexCount = g.vertexCount := by
  rw [eraseEdge]; split <;> rfl

theorem successors_eraseEdge :
    (g.eraseEdge a b).1.successors x = if x = a then (g.successors a).erase b else g.successors x := by
  rw [eraseEdge]
  split
  · next h =>
    rw [successors, ExtTreeMap.getElem?_insert]
    by_cases hx : x = a
    · simp [hx]
    · simp [hx, Ne.symm hx, successors]
  · next h =>
    rw [hasEdge_iff] at h
    split
    · next hx => rw [hx, List.erase_of_not_mem h]
    · rfl

theorem sourceSet_eraseEdge :
    (g.eraseEdge a b).1.sourceSet x =
      if x = b ∧ b ∈ g.successors a then (g.sourceSet b).erase a else g.sourceSet x := by
  rw [eraseEdge]
  split
  · next h =>
    rw [hasEdge_iff] at h
    rw [sourceSet, ExtTreeMap.getElem?_modify]
    by_cases hx : x = b
    · subst hx
      simp only [compare_self, if_true, h, and_self, sourceSet]
      cases g.sources[x]? with
      | none => exact ExtTreeSet.erase_empty.symm
      | some s => rfl
    · simp [hx, Ne.symm hx, sourceSet]
  · next h =>
    rw [hasEdge_iff] at h
    simp [h]

theorem mem_targets_eraseEdge (h : a ∈ g.targets) : x ∈ (g.eraseEdge a b).1.targets ↔ x ∈ g.targets := by
  rw [eraseEdge]
  split
  · exact Tables.mem_insert_of_mem h
  · rfl

theorem mem_sources_eraseEdge : x ∈ (g.eraseEdge a b).1.sources ↔ x ∈ g.sources := by
  rw [eraseEdge]
  split
  · exact ExtTreeMap.mem_modify
  · rfl

end GraphGrammar.Graph
