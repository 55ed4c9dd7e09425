import GraphGrammar.Graph.Fresh
import GraphGrammar.Proofs.Readers

/-!
# The invariant of graphs

`Graph.WellFormed` says that the three tables of a graph agree: they have the same keys, each vertex is stored under its
own identifier, every target is a vertex, no target is listed twice, and the source sets are the targets read backwards.
The empty graph has it and each operation that changes a graph keeps it. Under it `eraseVertex`, which visits the
neighbours alone, is told by the readers as if it visited every entry.
-/

namespace GraphGrammar.Graph
open Std

/-- The three tables of a graph agree. -/
structure WellFormed (g : Graph) : Prop where
  keyed : g.Keyed
  /-- Targets are kept for the vertices and for nothing else. -/
  mem_targets : ∀ x, x ∈ g.targets ↔ g.contains x = true
  /-- Sources are kept for the vertices and for nothing else. -/
  mem_sources : ∀ x, x ∈ g.sources ↔ g.contains x = true
  /-- Every target is a vertex. -/
  contains_target : ∀ x y, y ∈ g.successors x → g.contains y = true
  /-- No target is listed twice. -/
  nodup : ∀ x, (g.successors x).Nodup
  /-- The sources are the targets read backwards. -/
  mem_sourceSet : ∀ x y, x ∈ g.sourceSet y ↔ y ∈ g.successors x

namespace WellFormed

variable {g : Graph} {a b x y : VertexId} {v w : Vertex}

theorem successors_of_unknown (hg : g.WellFormed) (h : g.contains x = false) : g.successors x = [] := by
  have hx : x ∉ g.targets := fun hm => by rw [(hg.mem_targets x).mp hm] at h; cases h
  rw [successors, ExtTreeMap.getElem?_eq_none hx, Option.getD_none]

theorem contains_source (hg : g.WellFormed) (h : y ∈ g.successors x) : g.contains x = true := by
  cases hc : g.contains x with
  | true => rfl
  | false => rw [hg.successors_of_unknown hc] at h; cases h

theorem exists_labels (hg : g.WellFormed) (h : g.hasEdge x y = true) :
    (∃ l, g.label? x = some l) ∧ ∃ l, g.label? y = some l := by
  rw [hasEdge_iff] at h
  exact ⟨contains_iff_label?.mp (hg.contains_source h), contains_iff_label?.mp (hg.contains_target x y h)⟩

theorem not_mem_successors_of_unknown (hg : g.WellFormed) (h : g.contains y = false) : y ∉ g.successors x := by
  intro hy
  rw [hg.contains_target x y hy] at h
  cases h

theorem empty : (∅ : Graph).WellFormed where
  keyed x v h := by simp at h
  mem_targets x := by rw [contains_empty]; exact iff_of_false ExtTreeMap.not_mem_empty (by simp)
  mem_sources x := by rw [contains_empty]; exact iff_of_false ExtTreeMap.not_mem_empty (by simp)
  contains_target x y h := by simp at h
  nodup x := by simp
  mem_sourceSet x y := by simp

/-! ## Additions -/

theorem addVertex (hg : g.WellFormed) (v : Vertex) : (g.addVertex v).1.WellFormed where
  keyed := hg.keyed.addVertex v
  mem_targets x := by
    rw [mem_targets_addVertex, contains_addVertex, hg.mem_targets]
    cases hv : g.contains v.id <;> grind
  mem_sources x := by
    rw [mem_sources_addVertex, contains_addVertex, hg.mem_sources]
    cases hv : g.contains v.id <;> grind
  contains_target x y h := by
    rw [successors_addVertex] at h
    exact contains_addVertex.mpr (.inl (hg.contains_target x y h))
  nodup x := by rw [successors_addVertex]; exact hg.nodup x
  mem_sourceSet x y := by rw [sourceSet_addVertex, successors_addVertex]; exact hg.mem_sourceSet x y

theorem link (hg : g.WellFormed) (ha : g.contains a = true) (hb : g.contains b = true) :
    (g.link a b).1.WellFormed where
  keyed x v h := hg.keyed x v (vertex?_link ▸ h)
  mem_targets x := by rw [mem_targets_link ((hg.mem_targets a).mpr ha), contains_link, hg.mem_targets]
  mem_sources x := by rw [mem_sources_link ((hg.mem_sources b).mpr hb), contains_link, hg.mem_sources]
  contains_target x y h := by
    rw [contains_link]
    rcases mem_successors_link.mp h with h | ⟨-, rfl⟩
    · exact hg.contains_target x y h
    · exact hb
  nodup x := by
    rw [successors_link]
    split
    · next h =>
      -- The new target comes last and is not among those before it.
      refine List.nodup_append.mpr ⟨hg.nodup a, by simp, ?_⟩
      intro u hu w hw heq
      rw [List.mem_singleton] at hw
      rw [heq, hw] at hu
      exact h.2 hu
    · exact hg.nodup x
  mem_sourceSet x y := by
    rw [sourceSet_link, mem_successors_link]
    split
    · next h =>
      obtain ⟨rfl, -⟩ := h
      simp [ExtTreeSet.mem_insert, hg.mem_sourceSet, @eq_comm _ x a, or_comm]
    · next h =>
      rw [hg.mem_sourceSet]
      refine ⟨.inl, ?_⟩
      intro hor
      rcases hor with hy | ⟨rfl, rfl⟩
      · exact hy
      · -- The edge was there before, or it would have been added.
        exact Classical.byContradiction fun hn => h ⟨rfl, hn⟩

theorem addEdge (hg : g.WellFormed) (v w : Vertex) : (g.addEdge v w).1.WellFormed :=
  ((hg.addVertex v).addVertex w).link
    (contains_addVertex.mpr (.inl (contains_addVertex.mpr (.inr rfl)))) (contains_addVertex.mpr (.inr rfl))

theorem connect (hg : g.WellFormed) (a b : VertexId) : (g.connect a b).1.WellFormed := by
  rw [connect_fst]
  split
  · next h => exact hg.link h.1 h.2
  · exact hg

theorem withNextFresh (hg : g.WellFormed) (n : Counter) : { g with nextFresh := n }.WellFormed :=
  ⟨hg.keyed, hg.mem_targets, hg.mem_sources, hg.contains_target, hg.nodup, hg.mem_sourceSet⟩

theorem fresh {r : Graph × VertexId} (hg : g.WellFormed) (h : g.fresh = some r) : r.1.WellFormed := by
  obtain ⟨found, -, rfl⟩ := Option.map_eq_some_iff.mp h
  exact hg.withNextFresh _

/-! ## Erasing an edge -/

theorem mem_successors_eraseEdge (hg : g.WellFormed) :
    y ∈ (g.eraseEdge a b).1.successors x ↔ y ∈ g.successors x ∧ ¬ (x = a ∧ y = b) := by
  rw [successors_eraseEdge]
  split
  · next h => subst h; rw [(hg.nodup x).mem_erase_iff]; simp [and_comm]
  · next h => simp [h]

theorem eraseEdge (hg : g.WellFormed) (a b : VertexId) : (g.eraseEdge a b).1.WellFormed where
  keyed x v h := hg.keyed x v (vertex?_eraseEdge ▸ h)
  mem_targets x := by
    by_cases ha : a ∈ g.targets
    · rw [mem_targets_eraseEdge ha, contains_eraseEdge, hg.mem_targets]
    · have hb : ¬ g.hasEdge a b = true := by
        rw [hg.mem_targets, Bool.not_eq_true] at ha
        simp [hg.successors_of_unknown ha]
      rw [Graph.eraseEdge, if_neg hb, hg.mem_targets]
  mem_sources x := by rw [mem_sources_eraseEdge, contains_eraseEdge, hg.mem_sources]
  contains_target x y h := by
    rw [contains_eraseEdge]
    exact hg.contains_target x y (hg.mem_successors_eraseEdge.mp h).1
  nodup x := by
    rw [successors_eraseEdge]
    split
    · exact (hg.nodup a).erase b
    · exact hg.nodup x
  mem_sourceSet x y := by
    rw [hg.mem_successors_eraseEdge, sourceSet_eraseEdge]
    split
    · next h =>
      obtain ⟨rfl, -⟩ := h
      simp [ExtTreeSet.mem_erase, hg.mem_sourceSet, @eq_comm _ a x, and_comm]
    · next h =>
      rw [hg.mem_sourceSet]
      refine ⟨fun hy => ⟨hy, ?_⟩, And.left⟩
      intro hab
      obtain ⟨rfl, rfl⟩ := hab
      exact h ⟨rfl, hy⟩

end WellFormed

/-! ## Erasing a vertex -/

variable {g : Graph} {a x y : VertexId}

theorem vertex?_eq_none_iff : g.vertex? a = none ↔ g.contains a = false := by
  rw [contains_eq_isSome_vertex?]; cases g.vertex? a <;> simp

theorem eraseVertex_of_unknown (h : g.contains a = false) : g.eraseVertex a = (g, none) := by
  rw [eraseVertex, vertex?_eq_none_iff.mpr h]

theorem vertex?_eraseVertex : (g.eraseVertex a).1.vertex? x = if x = a then none else g.vertex? x := by
  cases ha : g.vertex? a with
  | none =>
    rw [eraseVertex_of_unknown (vertex?_eq_none_iff.mp ha)]
    split
    · next h => rw [h, ha]
    · rfl
  | some v =>
    simp only [eraseVertex, ha]
    rw [vertex?, ExtTreeMap.getElem?_erase, vertex?]
    simp [@eq_comm _ a x]

theorem label?_eraseVertex : (g.eraseVertex a).1.label? x = if x = a then none else g.label? x := by
  rw [label?, vertex?_eraseVertex, label?]
  split <;> rfl

theorem contains_eraseVertex : (g.eraseVertex a).1.contains x = true ↔ g.contains x = true ∧ x ≠ a := by
  rw [contains_eq_isSome, label?_eraseVertex, contains_eq_isSome]
  split <;> simp_all

@[simp] theorem nextFresh_eraseVertex : (g.eraseVertex a).1.nextFresh = g.nextFresh := by
  rw [eraseVertex]; split <;> rfl

theorem eraseVertex_snd : (g.eraseVertex a).2 = g.vertex? a := by
  rw [eraseVertex]; split <;> simp [*]

theorem vertexCount_eraseVertex :
    (g.eraseVertex a).1.vertexCount = g.vertexCount - if g.contains a then 1 else 0 := by
  cases ha : g.vertex? a with
  | none => rw [eraseVertex_of_unknown (vertex?_eq_none_iff.mp ha), vertex?_eq_none_iff.mp ha]; rfl
  | some v =>
    have hc : g.contains a = true := by rw [contains_eq_isSome_vertex?, ha]; rfl
    simp only [eraseVertex, ha, vertexCount]
    rw [ExtTreeMap.size_erase, if_pos hc, if_pos (show g.stored.contains a = true from hc)]

/-- The source sets after a vertex is dropped from those of its targets. -/
private theorem getElem?_sources_dropped (g : Graph) (a x : VertexId) :
    ((g.successors a).foldl (fun table target => table.modify target (·.erase a)) g.sources)[x]? =
      if x ∈ g.successors a then g.sources[x]?.map (·.erase a) else g.sources[x]? := by
  refine Tables.getElem?_foldl_modify fun s => ?_
  apply ExtTreeSet.ext_mem
  intro k
  simp [ExtTreeSet.mem_erase]

namespace WellFormed

/-- What is left of the sources of the vertex itself: a loop is gone with the first sweep. -/
private theorem mem_remaining (hg : g.WellFormed) :
    x ∈ (((g.successors a).foldl (fun table target => table.modify target (·.erase a)) g.sources)[a]?.getD ∅).toList
      ↔ a ∈ g.successors x ∧ x ≠ a := by
  rw [ExtTreeSet.mem_toList, getElem?_sources_dropped, ← hg.mem_sourceSet x a, sourceSet]
  by_cases ha : a ∈ g.successors a
  · rw [if_pos ha]
    cases g.sources[a]? with
    | none => simp
    | some s => simp [ExtTreeSet.mem_erase, and_comm, @eq_comm _ a x]
  · rw [if_neg ha]
    refine ⟨fun hx => ⟨hx, ?_⟩, And.left⟩
    intro heq
    subst heq
    exact ha ((hg.mem_sourceSet x x).mp hx)

theorem successors_eraseVertex (hg : g.WellFormed) :
    (g.eraseVertex a).1.successors x = if x = a then [] else (g.successors x).filter (· ≠ a) := by
  cases ha : g.vertex? a with
  | none =>
    have hc := vertex?_eq_none_iff.mp ha
    rw [eraseVertex_of_unknown hc]
    split
    · next h => rw [h, hg.successors_of_unknown hc]
    · refine (List.filter_eq_self.mpr fun y hy => ?_).symm
      rw [decide_eq_true_eq]
      intro heq
      subst heq
      exact hg.not_mem_successors_of_unknown hc hy
  | some v =>
    simp only [eraseVertex, ha]
    rw [successors, Tables.getElem?_foldl_modify (fun ts => by simp), ExtTreeMap.getElem?_erase]
    by_cases hx : x = a
    · simp [hx]
    · have hne : ¬ compare a x = .eq := by simpa using Ne.symm hx
      rw [if_neg hne, if_neg hx]
      change _ = (g.successors x).filter _
      split
      · rw [successors]
        cases g.targets[x]? <;> rfl
      · next h =>
        -- The vertex is no source of `a`, so `a` is not among its targets and nothing is filtered out.
        refine (List.filter_eq_self.mpr fun y hy => ?_).symm
        rw [decide_eq_true_eq]
        intro heq
        subst heq
        exact h (hg.mem_remaining.mpr ⟨hy, hx⟩)

theorem mem_successors_eraseVertex (hg : g.WellFormed) :
    y ∈ (g.eraseVertex a).1.successors x ↔ y ∈ g.successors x ∧ x ≠ a ∧ y ≠ a := by
  rw [hg.successors_eraseVertex]
  split <;> simp_all

theorem sourceSet_eraseVertex (hg : g.WellFormed) :
    (g.eraseVertex a).1.sourceSet x = if x = a then ∅ else (g.sourceSet x).erase a := by
  have unchanged (h : a ∉ g.sourceSet x) : (g.sourceSet x).erase a = g.sourceSet x := by
    apply ExtTreeSet.ext_mem
    intro k
    rw [ExtTreeSet.mem_erase, and_iff_right_iff_imp, ne_eq, Std.compare_eq_iff_eq]
    intro hk heq
    subst heq
    exact h hk
  cases ha : g.vertex? a with
  | none =>
    have hc := vertex?_eq_none_iff.mp ha
    rw [eraseVertex_of_unknown hc]
    split
    · next h =>
      subst h
      apply ExtTreeSet.ext_mem
      intro k
      simp [hg.mem_sourceSet, hg.not_mem_successors_of_unknown hc]
    · refine (unchanged ?_).symm
      rw [hg.mem_sourceSet, hg.successors_of_unknown hc]
      simp
  | some v =>
    simp only [eraseVertex, ha]
    rw [sourceSet, ExtTreeMap.getElem?_erase, getElem?_sources_dropped]
    by_cases hx : x = a
    · simp [hx]
    · have hne : ¬ compare a x = .eq := by simpa using Ne.symm hx
      rw [if_neg hne, if_neg hx]
      split
      · rw [sourceSet]
        cases g.sources[x]? with
        | none => exact ExtTreeSet.erase_empty.symm
        | some s => rfl
      · next h => exact (unchanged fun hs => h ((hg.mem_sourceSet a x).mp hs)).symm

theorem eraseVertex (hg : g.WellFormed) (a : VertexId) : (g.eraseVertex a).1.WellFormed where
  keyed := hg.keyed.of_vertex? fun x v h => by
    rw [vertex?_eraseVertex] at h
    split at h
    · cases h
    · exact h
  mem_targets x := by
    cases ha : g.vertex? a with
    | none => rw [eraseVertex_of_unknown (vertex?_eq_none_iff.mp ha), hg.mem_targets]
    | some v =>
      rw [contains_eraseVertex, ← hg.mem_targets]
      simp [Graph.eraseVertex, ha, Tables.mem_foldl_modify, ExtTreeMap.mem_erase, and_comm, @eq_comm _ a x]
  mem_sources x := by
    cases ha : g.vertex? a with
    | none => rw [eraseVertex_of_unknown (vertex?_eq_none_iff.mp ha), hg.mem_sources]
    | some v =>
      rw [contains_eraseVertex, ← hg.mem_sources]
      simp [Graph.eraseVertex, ha, Tables.mem_foldl_modify, ExtTreeMap.mem_erase, and_comm, @eq_comm _ a x]
  contains_target x y h := by
    obtain ⟨hy, -, hne⟩ := hg.mem_successors_eraseVertex.mp h
    exact contains_eraseVertex.mpr ⟨hg.contains_target x y hy, hne⟩
  nodup x := by
    rw [hg.successors_eraseVertex]
    split
    · exact List.nodup_nil
    · exact (hg.nodup x).filter _
  mem_sourceSet x y := by
    rw [hg.mem_successors_eraseVertex, hg.sourceSet_eraseVertex, ← hg.mem_sourceSet]
    split
    · next h => simp [h]
    · next h => simp [ExtTreeSet.mem_erase, h, and_comm, @eq_comm _ a x]

end WellFormed
end GraphGrammar.Graph
