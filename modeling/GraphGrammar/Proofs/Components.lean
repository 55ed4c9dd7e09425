import Mathlib.Logic.Relation
import GraphGrammar.Proofs.MatchOrder

/-!
# Greedy orders go component by component

The next vertex of a greedy order has the most placed neighbours. So as long as a component of the pattern is placed in
part, a vertex next to the placed ones comes next, and there is never more than one such component: each is placed
without a break, and behind its first vertex each of its vertices has a placed neighbour.
-/

namespace GraphGrammar

variable {pattern host g : Graph} {order placed rest : List VertexId} {s t u v x : VertexId}

namespace Graph

/-- The vertices are in one weakly connected component. -/
def Joined (g : Graph) : VertexId → VertexId → Prop := Relation.EqvGen fun x y => g.hasEdge x y = true

theorem Joined.refl (x : VertexId) : g.Joined x x := Relation.EqvGen.refl x

theorem Joined.symm (h : g.Joined s t) : g.Joined t s := Relation.EqvGen.symm s t h

theorem Joined.trans (h : g.Joined s t) (h' : g.Joined t u) : g.Joined s u := Relation.EqvGen.trans s t u h h'

theorem joined_of_edge (h : g.hasEdge u v = true ∨ g.hasEdge v u = true) : g.Joined u v := by
  rcases h with h | h
  · exact .rel u v h
  · exact (Relation.EqvGen.rel v u h).symm

/-- Between two vertices of one component there is an edge that leaves any set with the first of them alone. -/
theorem Joined.exists_leaving (h : g.Joined s t) {seen : VertexId → Prop} (hs : seen s) (ht : ¬ seen t) :
    ∃ u v, seen u ∧ ¬ seen v ∧ (g.hasEdge u v = true ∨ g.hasEdge v u = true) := by
  induction h generalizing seen with
  | rel x y he => exact ⟨x, y, hs, ht, .inl he⟩
  | refl x => exact absurd hs ht
  | symm x y _ ih =>
    -- Read backwards, the edge leaves the vertices outside of the set.
    obtain ⟨u, v, hu, hv, he⟩ := @ih (fun z => ¬ seen z) ht (not_not.mpr hs)
    exact ⟨v, u, not_not.mp hv, hu, he.symm⟩
  | trans x y z _ _ ih ih' =>
    by_cases hy : seen y
    · exact ih' hy ht
    · exact ih hs hy

end Graph

namespace IsGreedy

variable (h : IsGreedy pattern host order) (hp : pattern.WellFormed)
include h

theorem not_mem_placed (split : order = placed ++ x :: rest) : x ∉ placed := by
  have nodup := h.perm.nodup_iff.mpr pattern.nodup_ids
  rw [split, List.nodup_append] at nodup
  exact fun hx => nodup.2.2 x hx x List.mem_cons_self rfl

include hp

/-- As long as a component is placed in part, the next vertex has a placed neighbour. -/
theorem exists_neighbour (split : order = placed ++ x :: rest) (hs : s ∈ placed) (ht : t ∉ placed)
    (joined : pattern.Joined s t) : ∃ u ∈ placed, pattern.hasEdge u x = true ∨ pattern.hasEdge x u = true := by
  obtain ⟨u, v, hu, hv, he⟩ := joined.exists_leaving hs ht
  by_cases hvx : v = x
  · subst hvx
    exact ⟨u, hu, he⟩
  · -- The other end of the edge would do, and the next vertex has no fewer placed neighbours.
    have known : pattern.contains v = true := by
      rcases he with he | he
      · exact hp.contains_target u v (Graph.hasEdge_iff.mp he)
      · exact hp.contains_source (Graph.hasEdge_iff.mp he)
    have next := h.next placed x rest split v known hv hvx
    have hne : u ≠ v := fun heq => hv (heq ▸ hu)
    have some_of_v : 0 < (placedNeighbours pattern placed v).card := by
      refine Finset.card_pos.mpr ⟨u, ?_⟩
      simp only [placedNeighbours, Finset.mem_filter, List.mem_toFinset]
      exact ⟨hu, hne, he.symm⟩
    have some_of_x : 0 < (placedNeighbours pattern placed x).card := by
      rcases next with more | ⟨same, -⟩
      · omega
      · omega
    obtain ⟨w, hw⟩ := Finset.card_pos.mp some_of_x
    simp only [placedNeighbours, Finset.mem_filter, List.mem_toFinset] at hw
    exact ⟨w, hw.1, hw.2.2.symm⟩

/-- There is never more than one component that is placed in part. -/
theorem joined_of_open (split : order = placed ++ rest) {s' t' : VertexId} (hs : s ∈ placed) (hs' : s' ∈ placed)
    (ht : t ∉ placed) (ht' : t' ∉ placed) (joined : pattern.Joined s t) (joined' : pattern.Joined s' t') :
    pattern.Joined s s' := by
  induction placed using List.reverseRecOn generalizing rest s t s' t' with
  | nil => cases hs
  | append_singleton placed x ih =>
    have split : order = placed ++ x :: rest := by rw [split, List.append_assoc, List.singleton_append]
    -- The last vertex has a neighbour before it when another component was open, and that one is open too.
    have last {s t t' : VertexId} (hs : s ∈ placed) (ht : t ∉ placed) (ht' : t' ∉ placed) (joined : pattern.Joined s t)
        (joined' : pattern.Joined x t') : pattern.Joined s x := by
      obtain ⟨u, hu, he⟩ := h.exists_neighbour hp split hs ht joined
      have near : pattern.Joined u x := Graph.joined_of_edge he
      exact (ih split hs hu ht ht' joined (near.trans joined')).trans near
    rw [List.mem_append, List.mem_singleton, not_or] at ht ht'
    rw [List.mem_append, List.mem_singleton] at hs hs'
    rcases hs with hs | rfl <;> rcases hs' with hs' | rfl
    · exact ih split hs hs' ht.1 ht'.1 joined joined'
    · exact last hs ht.1 ht'.1 joined joined'
    · exact (last hs' ht'.1 ht.1 joined' joined).symm
    · exact .refl _

/-- A vertex between two of one component is in that component. -/
theorem joined_of_between (split : order = placed ++ x :: rest) (hs : s ∈ placed) (ht : t ∈ rest)
    (joined : pattern.Joined s t) : pattern.Joined s x := by
  have nodup := h.perm.nodup_iff.mpr pattern.nodup_ids
  rw [split, List.nodup_append] at nodup
  have ht' : t ∉ placed := fun hmem => nodup.2.2 t hmem t (List.mem_cons_of_mem x ht) rfl
  obtain ⟨u, hu, he⟩ := h.exists_neighbour hp split hs ht' joined
  have near : pattern.Joined u x := Graph.joined_of_edge he
  exact (h.joined_of_open hp split hs hu ht' (h.not_mem_placed split) joined near).trans near

end IsGreedy
end GraphGrammar
