import Mathlib.Data.List.Nodup
import Mathlib.Data.List.Perm.Subperm
import GraphGrammar.Graph.Consistency
import GraphGrammar.Proofs.WellFormed

/-!
# The check of the tables

`Graph.isConsistent` is asked of any tables at all. Its loop gets to the end when each edge is in order and listed once,
and has then seen as many edges as are listed (`exists_checkEdges`). It looks up each edge among the sources, but no
source among the edges: there it compares two totals. That is enough, because both listings of the edges, by source and
by target, repeat nothing as long as no target is listed twice. The one listing has all that the other one has, so if
they are of one length they have the same members. Hence the check decides `Graph.Consistent`, which is the invariant of
graphs but for the keys of the tables.
-/

namespace GraphGrammar

/-- A list without repeats that is as long as a larger one has all that is in it. -/
theorem mem_iff_of_length {α : Type} {xs ys : List α} (nodup : xs.Nodup) (sub : xs ⊆ ys)
    (length : ys.length ≤ xs.length) (a : α) : a ∈ ys ↔ a ∈ xs :=
  ((nodup.subperm sub).perm_of_length_le length).mem_iff.symm

namespace Graph
open Std

/-- The tables agree on the edges. Entries without edges may be missing, or there may be more of them than vertices. -/
structure Consistent (g : Graph) : Prop where
  /-- Both ends of every edge are vertices. -/
  contains_ends : ∀ x y, y ∈ g.successors x → g.contains x = true ∧ g.contains y = true
  /-- No target is listed twice. -/
  nodup : ∀ x, (g.successors x).Nodup
  /-- The sources are the targets read backwards. -/
  mem_sourceSet : ∀ x y, x ∈ g.sourceSet y ↔ y ∈ g.successors x

variable {g : Graph} {x y : VertexId}

/-- The edges that the source sets tell of, by target and then by source. -/
def edgesBySources (g : Graph) : List Edge :=
  g.sources.toList.flatMap fun (target, sources) => sources.toList.map fun source => (source, target)

theorem mem_edgesBySources : (x, y) ∈ g.edgesBySources ↔ x ∈ g.sourceSet y := by
  rw [edgesBySources, List.mem_flatMap, sourceSet]
  refine ⟨?_, ?_⟩
  · intro h
    obtain ⟨⟨v, s⟩, hv, hx⟩ := h
    obtain ⟨u, hu, he⟩ := List.mem_map.mp hx
    obtain ⟨rfl, rfl⟩ := Prod.mk.injEq .. ▸ he
    rw [ExtTreeMap.mem_toList_iff_getElem?_eq_some] at hv
    simpa [hv] using ExtTreeSet.mem_toList.mp hu
  · intro hx
    cases hs : g.sources[y]? with
    | none => simp [hs] at hx
    | some s =>
      rw [hs, Option.getD_some] at hx
      exact ⟨(y, s), ExtTreeMap.mem_toList_iff_getElem?_eq_some.mpr hs,
        List.mem_map_of_mem (ExtTreeSet.mem_toList.mpr hx)⟩

/-- Lists without repeats, one for each key of a table, give a listing of pairs without repeats. -/
theorem nodup_flatMap_pairs {α β γ : Type} {entries : List (α × β)} {row : α × β → List γ} (key : γ → α)
    (keys : (entries.map Prod.fst).Nodup) (rows : ∀ e ∈ entries, (row e).Nodup)
    (hkey : ∀ e ∈ entries, ∀ c ∈ row e, key c = e.1) : (entries.flatMap row).Nodup := by
  rw [List.nodup_flatMap]
  refine ⟨rows, List.Pairwise.imp_of_mem ?_ (List.pairwise_map.mp keys)⟩
  intro e f he hf hne c hc hc'
  exact hne ((hkey e he c hc).symm.trans (hkey f hf c hc'))

theorem nodup_edgesBySources (g : Graph) : g.edgesBySources.Nodup := by
  refine nodup_flatMap_pairs Prod.snd ?_ ?_ ?_
  · rw [ExtTreeMap.map_fst_toList_eq_keys]
    exact ExtTreeMap.nodup_keys
  · intro e _
    have h : e.2.toList.Nodup := ExtTreeSet.distinct_toList.imp fun h => by simpa using h
    exact h.map fun a b hab => (Prod.mk.injEq .. ▸ hab).1
  · intro e _ c hc
    obtain ⟨u, -, rfl⟩ := List.mem_map.mp hc
    rfl

theorem successors_of_mem_targets {ts : List VertexId} (h : (x, ts) ∈ g.targets.toList) : g.successors x = ts := by
  rw [successors, ExtTreeMap.mem_toList_iff_getElem?_eq_some.mp h, Option.getD_some]

theorem nodup_edges (h : ∀ x, (g.successors x).Nodup) : g.edges.Nodup := by
  refine nodup_flatMap_pairs Prod.fst ?_ ?_ ?_
  · rw [ExtTreeMap.map_fst_toList_eq_keys]
    exact ExtTreeMap.nodup_keys
  · intro e he
    have h : e.2.Nodup := successors_of_mem_targets he ▸ h e.1
    exact h.map fun a b hab => (Prod.mk.injEq .. ▸ hab).2
  · intro e _ c hc
    obtain ⟨u, -, rfl⟩ := List.mem_map.mp hc
    rfl

theorem nodup_edges_iff : g.edges.Nodup ↔ ∀ x, (g.successors x).Nodup := by
  refine ⟨fun h x => ?_, nodup_edges⟩
  rw [successors]
  cases hx : g.targets[x]? with
  | none => exact List.nodup_nil
  | some ts =>
    have row := (List.nodup_flatMap.mp h).1 (x, ts) (ExtTreeMap.mem_toList_iff_getElem?_eq_some.mpr hx)
    exact row.of_map

/-! ## The parts of the check -/

/-- One round of the loop: the early returns are the ways for an edge to be out of order. -/
theorem checkEdges_cons {e : Edge} {es : List Edge} {seen : ExtTreeSet Edge} :
    g.checkEdges (e :: es) seen =
      if ((g.contains e.1 = true ∧ g.contains e.2 = true) ∧ e.1 ∈ g.sourceSet e.2) ∧ e ∉ seen then
        g.checkEdges es (seen.insert e)
      else none := by
  obtain ⟨u, v⟩ := e
  rw [checkEdges]
  grind

/-- The loop gets to the end when the ends of each edge are vertices, its source is among the sources, and it has not
been seen; it has then seen each edge of the list besides those in front of it. -/
theorem exists_checkEdges {es : List Edge} {seen : ExtTreeSet Edge} {n : Nat} :
    (∃ seen', g.checkEdges es seen = some seen' ∧ n = seen'.size) ↔
      (∀ e ∈ es, (g.contains e.1 = true ∧ g.contains e.2 = true) ∧ e.1 ∈ g.sourceSet e.2) ∧
        (es.Nodup ∧ ∀ e ∈ es, e ∉ seen) ∧ n = seen.size + es.length := by
  induction es generalizing seen with
  | nil => simp [checkEdges]
  | cons e es ih =>
    rw [checkEdges_cons]
    split
    · next h =>
      obtain ⟨order, fresh⟩ := h
      have size : (seen.insert e).size = seen.size + 1 := by
        rw [ExtTreeSet.size_insert, if_neg (by simpa using fresh)]
      rw [ih, size]
      simp only [List.forall_mem_cons, List.nodup_cons, List.length_cons, ExtTreeSet.mem_insert,
        LawfulEqCmp.compare_eq_iff_eq]
      grind
    · next h =>
      simp only [List.forall_mem_cons, reduceCtorEq, false_and, exists_false, false_iff]
      exact fun hall => h ⟨hall.1.1, hall.2.1.2.1⟩

theorem sourceCount_eq (g : Graph) : g.sourceCount = g.edgesBySources.length := by
  rw [sourceCount, edgesBySources, List.length_flatMap, Tables.values_eq_map_snd, List.foldl_map, List.sum_eq_foldl,
    List.foldl_map]
  simp [ExtTreeSet.length_toList]

/-- Where every edge is found among the sources, the totals tell whether there is anything else among them. -/
theorem length_edgesBySources_iff (nodup : ∀ x, (g.successors x).Nodup)
    (found : ∀ x y, y ∈ g.successors x → x ∈ g.sourceSet y) :
    g.edgesBySources.length = g.edgeCount ↔ ∀ x y, x ∈ g.sourceSet y ↔ y ∈ g.successors x := by
  refine ⟨?_, ?_⟩
  · intro length x y
    have sub : g.edges ⊆ g.edgesBySources := by
      intro e he
      obtain ⟨u, v⟩ := e
      exact mem_edgesBySources.mpr (found u v (mem_edges.mp he))
    rw [← mem_edgesBySources, ← mem_edges]
    exact mem_iff_of_length (nodup_edges nodup) sub (Nat.le_of_eq length) (x, y)
  · intro h
    -- Each edge is listed once by its source and once by its target.
    have perm : g.edgesBySources.Perm g.edges := by
      apply (List.perm_ext_iff_of_nodup g.nodup_edgesBySources (nodup_edges nodup)).mpr
      intro e
      obtain ⟨x, y⟩ := e
      rw [mem_edgesBySources, mem_edges, h]
    exact perm.length_eq

theorem isConsistent_iff_parts : g.isConsistent = true ↔
    (∀ x y, y ∈ g.successors x → (g.contains x = true ∧ g.contains y = true) ∧ x ∈ g.sourceSet y) ∧
      (∀ x, (g.successors x).Nodup) ∧ g.edgesBySources.length = g.edgeCount := by
  have loop : g.isConsistent = true ↔ ∃ seen, g.checkEdges g.edges ∅ = some seen ∧ g.sourceCount = seen.size := by
    rw [isConsistent]
    split
    · next h => simp [h]
    · next seen h => simp [h]
  rw [loop, exists_checkEdges, nodup_edges_iff, sourceCount_eq, edgeCount]
  simp only [Prod.forall, mem_edges, ExtTreeSet.not_mem_empty, not_false_eq_true, implies_true, and_true,
    ExtTreeSet.size_empty, Nat.zero_add]

/-! ## What the check decides -/

namespace Consistent

theorem of_isConsistent (h : g.isConsistent = true) : g.Consistent := by
  obtain ⟨edges, nodup, length⟩ := isConsistent_iff_parts.mp h
  have found (x y : VertexId) (hy : y ∈ g.successors x) : x ∈ g.sourceSet y := (edges x y hy).2
  exact ⟨fun x y hy => (edges x y hy).1, nodup, (length_edgesBySources_iff nodup found).mp length⟩

theorem isConsistent (h : g.Consistent) : g.isConsistent = true := by
  have found (x y : VertexId) (hy : y ∈ g.successors x) : x ∈ g.sourceSet y := (h.mem_sourceSet x y).mpr hy
  have length := (length_edgesBySources_iff h.nodup found).mpr h.mem_sourceSet
  exact isConsistent_iff_parts.mpr ⟨fun x y hy => ⟨h.contains_ends x y hy, found x y hy⟩, h.nodup, length⟩

end Consistent

/-- Beyond what the check decides, the invariant says that vertices are stored under their own identifiers and that the
other tables have entries for the vertices and no others. -/
theorem wellFormed_iff_consistent : g.WellFormed ↔
    g.Consistent ∧ g.Keyed ∧ (∀ x, x ∈ g.targets ↔ g.contains x = true) ∧ ∀ x, x ∈ g.sources ↔ g.contains x = true := by
  refine ⟨?_, ?_⟩
  · intro h
    exact ⟨⟨fun x y hy => ⟨h.contains_source hy, h.contains_target x y hy⟩, h.nodup, h.mem_sourceSet⟩,
      h.keyed, h.mem_targets, h.mem_sources⟩
  · intro h
    obtain ⟨consistent, keyed, targets, sources⟩ := h
    exact ⟨keyed, targets, sources, fun x y hy => (consistent.contains_ends x y hy).2, consistent.nodup,
      consistent.mem_sourceSet⟩

theorem WellFormed.isConsistent (hg : g.WellFormed) : g.isConsistent = true :=
  (wellFormed_iff_consistent.mp hg).1.isConsistent

/-- Of all tables, also such as no operation produces, the check accepts those that agree on the edges. -/
theorem isConsistent_iff_consistent (g : Graph) : g.isConsistent = true ↔ g.Consistent :=
  ⟨.of_isConsistent, Consistent.isConsistent⟩

/-- A vertex without entries in the other tables passes, and no operation leaves such a graph behind. -/
example :
    let g : Graph := { stored := (∅ : ExtTreeMap VertexId Vertex).insert ⟨"a"⟩ ⟨⟨"a"⟩, ⟨"A"⟩⟩ }
    g.isConsistent = true ∧ g.contains ⟨"a"⟩ = true ∧ ⟨"a"⟩ ∉ g.targets := by
  decide +kernel

/-- A source without its edge is told by the totals alone. -/
example :
    let g : Graph := (Graph.empty.addVertex ⟨⟨"a"⟩, ⟨"A"⟩⟩).1
    { g with sources := g.sources.insert ⟨"a"⟩ ((∅ : ExtTreeSet VertexId).insert ⟨"a"⟩) }.isConsistent = false := by
  decide +kernel

end Graph
end GraphGrammar
