import GraphGrammar.Proofs.Reachability

/-!
# Erasing a vertex without an index

To erase a vertex by its neighbours alone comes to the same as to go through both tables from end to end, because the
tables agree: a list that mentions the vertex belongs to one of its sources, and a source set that does to one of its
targets. A loop is listed in both, and its entries go with the vertex itself. So nothing is missed in a graph that
sessions leave behind.
-/

namespace GraphGrammar
open Std

namespace Graph

variable {g : Graph} {a x : VertexId}

/-- The graph without the vertex. No entry is looked up by its neighbours: all lists and all sets are filtered. -/
def sweep (g : Graph) (a : VertexId) : Graph where
  stored := g.stored.erase a
  targets := (g.targets.erase a).map fun _ targets => targets.filter (· ≠ a)
  sources := (g.sources.erase a).map fun _ sources => sources.erase a
  nextFresh := g.nextFresh

theorem stored_eraseVertex : (g.eraseVertex a).1.stored = g.stored.erase a := by
  apply ExtTreeMap.ext_getElem?
  intro x
  have hvertex : (g.eraseVertex a).1.stored[x]? = if x = a then none else g.stored[x]? := vertex?_eraseVertex
  rw [hvertex, ExtTreeMap.getElem?_erase]
  simp [@eq_comm _ a x]

theorem contains_eraseVertex_self : (g.eraseVertex a).1.contains a = false := by
  rw [← Bool.not_eq_true, contains_eraseVertex]
  exact fun h => h.2 rfl

theorem contains_eraseVertex_of_ne (hx : x ≠ a) : (g.eraseVertex a).1.contains x = g.contains x := by
  rw [Bool.eq_iff_iff, contains_eraseVertex, and_iff_left hx]

namespace WellFormed

variable (hg : g.WellFormed)
include hg

theorem targets_eraseVertex : (g.eraseVertex a).1.targets = (g.sweep a).targets := by
  refine Tables.eq_map_erase ?_ fun x hx => ?_
  · rw [(hg.eraseVertex a).getElem?_targets, contains_eraseVertex_self]
    rfl
  · rw [(hg.eraseVertex a).getElem?_targets, contains_eraseVertex_of_ne hx, hg.successors_eraseVertex, if_neg hx,
      hg.getElem?_targets]
    split <;> rfl

theorem sources_eraseVertex : (g.eraseVertex a).1.sources = (g.sweep a).sources := by
  refine Tables.eq_map_erase ?_ fun x hx => ?_
  · rw [(hg.eraseVertex a).getElem?_sources, contains_eraseVertex_self]
    rfl
  · rw [(hg.eraseVertex a).getElem?_sources, contains_eraseVertex_of_ne hx, hg.sourceSet_eraseVertex, if_neg hx,
      hg.getElem?_sources]
    split <;> rfl

/-- Where the tables agree, the neighbours are all that mention the vertex. -/
theorem eraseVertex_eq_sweep : g.eraseVertex a = (g.sweep a, g.vertex? a) := by
  refine Prod.ext ?_ eraseVertex_snd
  have nextFresh : (g.eraseVertex a).1.nextFresh = g.nextFresh := nextFresh_eraseVertex
  calc (g.eraseVertex a).1
      = ⟨(g.eraseVertex a).1.stored, (g.eraseVertex a).1.targets, (g.eraseVertex a).1.sources,
          (g.eraseVertex a).1.nextFresh⟩ := rfl
    _ = g.sweep a := by
      rw [stored_eraseVertex, hg.targets_eraseVertex, hg.sources_eraseVertex, nextFresh]
      rfl

end WellFormed

/-- In a graph that operations have produced, erasing a vertex is filtering it out of both tables. The counter stays,
the vertex is returned as it was, and nothing changes exactly if there is none. -/
theorem eraseVertex_session (calls : List Call) (a : VertexId) :
    (session calls).eraseVertex a = ((session calls).sweep a, (session calls).vertex? a) ∧
      ((session calls).eraseVertex a = (session calls, none) ↔ (session calls).contains a = false) := by
  refine ⟨(WellFormed.session calls).eraseVertex_eq_sweep, fun h => ?_, eraseVertex_of_unknown⟩
  have none : (session calls).vertex? a = none := by rw [← eraseVertex_snd, h]
  exact vertex?_eq_none_iff.mp none

/-- Tables that do not agree: the edge from `a` to `b` is no entry among the sources of `b`. -/
example :
    let g : Graph := { (Graph.empty.addEdge ⟨⟨"a"⟩, ⟨"A"⟩⟩ ⟨⟨"b"⟩, ⟨"B"⟩⟩).1 with sources := ∅ }
    (g.eraseVertex ⟨"b"⟩).1 ≠ g.sweep ⟨"b"⟩ := by
  decide +kernel

end Graph
end GraphGrammar
