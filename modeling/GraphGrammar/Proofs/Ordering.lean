import Mathlib.Data.List.Nodup
import GraphGrammar.Mapping
import GraphGrammar.Proofs.Consistency

/-!
# The orders of the listings

Pairs of a mapping and vertices are listed by identifier, and identifiers are compared by code points. Edges are listed
by source and, from one source, in the order in which they were added (`Graph.EdgeBefore`). What comes first in such a
list is then the least with its property, which is all that laws on first faults and first matches have to know.
-/

namespace GraphGrammar
open Std

/-! ## Identifiers -/

namespace VertexId

variable {a b c : VertexId}

theorem lt_asymm (h : a < b) : ¬ b < a := OrientedCmp.not_lt_of_lt h

theorem lt_trans (h : a < b) (h' : b < c) : a < c := TransCmp.lt_trans h h'

theorem ne_of_lt (h : a < b) : a ≠ b := by
  intro heq
  subst heq
  exact lt_asymm h h

theorem lt_trichotomy (a b : VertexId) : a < b ∨ a = b ∨ b < a := by
  cases h : compare a b with
  | lt => exact .inl h
  | eq => exact .inr (.inl (compare_eq_iff_eq.mp h))
  | gt => exact .inr (.inr (OrientedCmp.lt_of_gt h))

/-- Names are compared character by character, and characters by their numbers. -/
theorem lt_iff_codePoints : a < b ↔ List.Lex (fun c d => c.val < d.val) a.name.toList b.name.toList := by
  have hcompare : a < b ↔ compareOfLessAndEq a.name b.name = .lt := Iff.rfl
  rw [hcompare, compareOfLessAndEq_eq_lt, String.lt_iff]
  rfl

def IsLeast (holds : VertexId → Prop) (x : VertexId) : Prop := holds x ∧ ∀ y, y < x → ¬ holds y

end VertexId

/-! ## First entries of ordered lists -/

section

variable {α β : Type} {R : α → α → Prop} {l front back : List α} {a b : α}

/-- In an ordered list, what stands in front of an entry is what is before it. -/
theorem mem_front_iff (asymm : ∀ a b, R a b → ¬ R b a) (ordered : l.Pairwise R) (split : l = front ++ a :: back) :
    b ∈ front ↔ b ∈ l ∧ R b a := by
  subst split
  rw [List.pairwise_append, List.pairwise_cons] at ordered
  obtain ⟨-, ⟨behind, -⟩, across⟩ := ordered
  refine ⟨fun hb => ⟨List.mem_append_left _ hb, across b hb a List.mem_cons_self⟩, ?_⟩
  intro h
  obtain ⟨hb, hlt⟩ := h
  rw [List.mem_append, List.mem_cons] at hb
  rcases hb with hb | rfl | hb
  · exact hb
  · exact absurd hlt (asymm b b hlt)
  · exact absurd hlt (asymm a b (behind b hb))

/-- The first result along an ordered list is that of the least entry that has one. -/
theorem findSome?_eq_some_of_ordered {f : α → Option β} {r : β} (asymm : ∀ a b, R a b → ¬ R b a)
    (ordered : l.Pairwise R) :
    l.findSome? f = some r ↔ ∃ a ∈ l, f a = some r ∧ ∀ b ∈ l, R b a → f b = none := by
  rw [List.findSome?_eq_some_iff]
  refine ⟨?_, ?_⟩
  · intro h
    obtain ⟨front, a, back, split, ha, hfront⟩ := h
    have hmem : a ∈ l := by
      rw [split]
      exact List.mem_append_right front List.mem_cons_self
    exact ⟨a, hmem, ha, fun b hb hlt => hfront b ((mem_front_iff asymm ordered split).mpr ⟨hb, hlt⟩)⟩
  · intro h
    obtain ⟨a, hmem, ha, hleast⟩ := h
    obtain ⟨front, back, split⟩ := List.append_of_mem hmem
    refine ⟨front, a, back, split, ha, fun b hb => ?_⟩
    obtain ⟨hb, hlt⟩ := (mem_front_iff asymm ordered split).mp hb
    exact hleast b hb hlt

end

/-! ## The listings -/

theorem Mapping.toList_ordered (m : Mapping) : m.toList.Pairwise fun e e' => e.1 < e'.1 :=
  ExtTreeMap.ordered_keys_toList

namespace Graph

variable {g : Graph} {e e' : Edge}

theorem vertices_ordered (hg : g.Keyed) : g.vertices.Pairwise fun v w => v.id < w.id := by
  have h := g.ids_ordered
  rw [← hg.map_id_vertices, List.pairwise_map] at h
  exact h

/-- The edge is listed in front of the other one: its source is less, or they have one source and its target was added
earlier. -/
def EdgeBefore (g : Graph) (e e' : Edge) : Prop :=
  e.1 < e'.1 ∨ (e.1 = e'.1 ∧ (g.successors e.1).idxOf e.2 < (g.successors e.1).idxOf e'.2)

theorem EdgeBefore.asymm (h : g.EdgeBefore e e') : ¬ g.EdgeBefore e' e := by
  intro h'
  rcases h with h | ⟨heq, h⟩ <;> rcases h' with h' | ⟨heq', h'⟩
  · exact VertexId.lt_asymm h h'
  · exact VertexId.ne_of_lt h heq'.symm
  · exact VertexId.ne_of_lt h' heq.symm
  · rw [← heq] at h'
    omega

theorem edges_ordered (nodup : ∀ x, (g.successors x).Nodup) : g.edges.Pairwise g.EdgeBefore := by
  rw [edges, List.pairwise_flatMap]
  refine ⟨fun row hrow => ?_, ?_⟩
  · -- In one row each target stands at its own place.
    obtain ⟨x, ts⟩ := row
    have hts := successors_of_mem_targets hrow
    rw [List.pairwise_map, List.pairwise_iff_getElem]
    intro i j hi hj hlt
    refine .inr ⟨rfl, ?_⟩
    have hn : ts.Nodup := hts ▸ nodup x
    simp only [hts]
    rw [hn.idxOf_getElem i hi, hn.idxOf_getElem j hj]
    exact hlt
  · refine ExtTreeMap.ordered_keys_toList.imp fun {row row'} hlt e he e' he' => ?_
    obtain ⟨y, -, rfl⟩ := List.mem_map.mp he
    obtain ⟨y', -, rfl⟩ := List.mem_map.mp he'
    exact .inl hlt

end Graph
end GraphGrammar
