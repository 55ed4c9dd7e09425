import GraphGrammar.Application
import GraphGrammar.Proofs.Failures
import GraphGrammar.Proofs.FreshNames
import GraphGrammar.Proofs.Mappings
import GraphGrammar.Proofs.WellFormed

/-!
# Adding vertices under fresh names

The phase that adds the created vertices draws a name, adds a vertex under it and maps to it, one created vertex
after another. `Allocated` is what this comes to. That the names differ from each other needs no look at the
graphs in between: each name has a number below the counter behind it, and the counter never goes back.
-/

namespace GraphGrammar
open Std

/-- The vertices `vs` are added to `g` under fresh names, to which `right'` maps them. -/
structure Allocated (vs : List Vertex) (g : Graph) (right : Mapping) (g' : Graph) (right' : Mapping) : Prop where
  counter : g.nextFresh.toNat ≤ g'.nextFresh.toNat
  /-- Each has the name of a number that the counter passed, under which there was no vertex. -/
  name : ∀ v ∈ vs, ∃ k : Counter, right'.get? v.id = some (.numbered k) ∧ g.nextFresh.toNat ≤ k.toNat ∧
    k.toNat < g'.nextFresh.toNat ∧ g.contains (.numbered k) = false
  distinct : ∀ v ∈ vs, ∀ w ∈ vs, right'.get? v.id = right'.get? w.id → v.id = w.id
  /-- Nothing else is mapped anew. -/
  others : ∀ x, x ∉ vs.map (·.id) → right'.get? x = right.get? x
  label? : ∀ x l, g'.label? x = some l ↔
    g.label? x = some l ∨ ∃ v ∈ vs, right'.get? v.id = some x ∧ v.label = l
  successors : ∀ x, g'.successors x = g.successors x

/-- Draws a name, adds the vertex under it and maps to it. -/
def allocate (s : Graph × Nat × Mapping) (v : Vertex) : Option (Graph × Nat × Mapping) := do
  let (g, host) ← s.1.fresh
  return ((g.addVertex ⟨host, v.label⟩).1, s.2.1 + 1, s.2.2.insert v.id host)

theorem Production.addVertices_eq {p : Production} {right : Mapping} {g : Graph} :
    p.addVertices right g = p.created.foldlM allocate (g, 0, right) := rfl

theorem allocate_eq_some {s s' : Graph × Nat × Mapping} {v : Vertex} : allocate s v = some s' ↔
    ∃ g host, s.1.fresh = some (g, host) ∧
      s' = ((g.addVertex ⟨host, v.label⟩).1, s.2.1 + 1, s.2.2.insert v.id host) := by
  rw [allocate]
  cases s.1.fresh with
  | none => simp
  | some r =>
    obtain ⟨g, host⟩ := r
    simp [eq_comm]

theorem Graph.WellFormed.addVertices {p : Production} {right : Mapping} {g : Graph} {r : Graph × Nat × Mapping}
    (hg : g.WellFormed) (h : p.addVertices right g = some r) : r.1.WellFormed := by
  rw [Production.addVertices_eq] at h
  refine foldlM_induction (·.1.WellFormed) h hg fun s hs v _ s' hs' => ?_
  obtain ⟨g', host, hfresh, rfl⟩ := allocate_eq_some.mp hs'
  exact (hs.fresh hfresh).addVertex _

namespace Allocated

variable {v : Vertex} {vs : List Vertex} {g g' : Graph} {right right' : Mapping} {x : VertexId}

theorem nil : Allocated [] g right g right where
  counter := Nat.le_refl _
  name := by simp
  distinct := by simp
  others := by simp
  label? := by simp
  successors := by simp

/-- The first of the vertices is added under the name of `k`, and then the others. -/
theorem cons {k next : Counter} {g₁ : Graph} (hv : v.id ∉ vs.map (·.id)) (hk : g.nextFresh.toNat ≤ k.toNat)
    (hnext : next.toNat = k.toNat + 1) (free : g.contains (.numbered k) = false)
    (hg₁ : g₁ = ({ g with nextFresh := next }.addVertex ⟨.numbered k, v.label⟩).1)
    (rest : Allocated vs g₁ (right.insert v.id (.numbered k)) g' right') :
    Allocated (v :: vs) g right g' right' := by
  have counter₁ : g₁.nextFresh.toNat = k.toNat + 1 := by
    rw [hg₁, Graph.nextFresh_addVertex]
    exact hnext
  have label₁ (x : VertexId) : g₁.label? x = if x = .numbered k then some v.label else g.label? x := by
    have hfree : { g with nextFresh := next }.contains (.numbered k) = false := free
    rw [hg₁, Graph.label?_addVertex]
    simp [hfree, Graph.label?, Graph.vertex?]
  have known₁ (x : VertexId) (h : g₁.contains x = false) : g.contains x = false := by
    rw [← Graph.label?_eq_none_iff, label₁] at h
    split at h
    · cases h
    · exact Graph.label?_eq_none_iff.mp h
  have image : right'.get? v.id = some (.numbered k) := by
    rw [rest.others v.id hv, Mapping.get?_insert, if_pos rfl]
  have counter' := rest.counter
  -- A later vertex has a number that is not below the counter behind `k`.
  have later : ∀ w ∈ vs, right'.get? w.id ≠ some (.numbered k) := by
    intro w hw hwk
    obtain ⟨j, hj, hle, -, -⟩ := rest.name w hw
    rw [hj, Option.some.injEq] at hwk
    rw [VertexId.numbered_injective hwk] at hle
    omega
  refine ⟨by omega, ?_, ?_, fun x hx => ?_, fun x l => ?_, fun x => ?_⟩
  · intro w hw
    rcases List.mem_cons.mp hw with rfl | hw
    · exact ⟨k, image, hk, by omega, free⟩
    · obtain ⟨j, hj, hle, hlt, hfree⟩ := rest.name w hw
      exact ⟨j, hj, by omega, hlt, known₁ _ hfree⟩
  · intro a ha b hb hab
    rcases List.mem_cons.mp ha with rfl | ha <;> rcases List.mem_cons.mp hb with rfl | hb
    · rfl
    · exact absurd (hab.symm.trans image) (later b hb)
    · exact absurd (hab.trans image) (later a ‹_›)
    · exact rest.distinct a ha b hb hab
  · simp only [List.map_cons, List.mem_cons, not_or] at hx
    rw [rest.others x hx.2, Mapping.get?_insert, if_neg hx.1]
  · -- Under the name of `k` there was no vertex, so the new one does not come in the way of an old label.
    rw [rest.label?, label₁]
    simp only [List.mem_cons, exists_eq_or_imp, image, Option.some.injEq, @eq_comm _ (VertexId.numbered k)]
    by_cases hx : x = .numbered k
    · subst hx
      simp [Graph.label?_eq_none_iff.mpr free]
    · simp [hx]
  · rw [rest.successors, hg₁, Graph.successors_addVertex]
    rfl

/-- Vertices with different identifiers can be added when the counter has room for the vertices that are there
and those that are added. The bound is on `start`: the numbers from it to the counter are used up by vertices, and
this stays so. -/
theorem foldl (g : Graph) (right : Mapping) (start : Counter) (count : Nat) (ids : (vs.map (·.id)).Nodup)
    (room : start.toNat + g.vertexCount + vs.length < UInt64.size) (le : start.toNat ≤ g.nextFresh.toNat)
    (filled : g.FilledFrom start) :
    ∃ g' right', vs.foldlM allocate (g, count, right) = some (g', count + vs.length, right') ∧
      Allocated vs g right g' right' ∧ g'.FilledFrom start ∧ g'.vertexCount = g.vertexCount + vs.length := by
  induction vs generalizing g right count with
  | nil => exact ⟨g, right, rfl, nil, filled, rfl⟩
  | cons v vs ih =>
    rw [List.map_cons, List.nodup_cons] at ids
    rw [List.length_cons] at room
    obtain ⟨k, hk, -, hnext, free, taken, hfresh⟩ := Graph.fresh_eq (by omega) le filled
    have step : allocate (g, count, right) v =
        some (({ g with nextFresh := k.next }.addVertex ⟨.numbered k, v.label⟩).1, count + 1,
          right.insert v.id (.numbered k)) := allocate_eq_some.mpr ⟨_, _, hfresh, rfl⟩
    generalize hg₁ : ({ g with nextFresh := k.next }.addVertex ⟨.numbered k, v.label⟩).1 = g₁ at step
    have counter₁ : g₁.nextFresh.toNat = k.toNat + 1 := by
      rw [← hg₁, Graph.nextFresh_addVertex]
      exact hnext
    have size₁ : g₁.vertexCount = g.vertexCount + 1 := by
      have hfree : { g with nextFresh := k.next }.contains (.numbered k) = false := free
      rw [← hg₁, Graph.vertexCount_addVertex, hfree]
      rfl
    -- The numbers that are passed over are taken, and from now on the one of the new vertex is taken, too.
    have filled₁ : g₁.FilledFrom start := by
      intro j hj hlt
      rw [← hg₁, Graph.contains_addVertex]
      by_cases hjk : j = k
      · exact .inr (congrArg _ hjk)
      · have hne : j.toNat ≠ k.toNat := fun e => hjk (UInt64.toNat_inj.mp e)
        by_cases hold : j.toNat < g.nextFresh.toNat
        · exact .inl (filled j hj hold)
        · exact .inl (taken j (by omega) (by omega))
    obtain ⟨g', right', hrun, rest, filled', size'⟩ := ih g₁ (right.insert v.id (.numbered k)) (count + 1) ids.2
      (by omega) (by omega) filled₁
    refine ⟨g', right', ?_, rest.cons ids.1 hk hnext free hg₁.symm, filled', by rw [List.length_cons]; omega⟩
    rw [List.foldlM_cons, step, Option.bind_eq_bind, Option.bind_some, hrun, List.length_cons, Nat.add_right_comm,
      Nat.add_assoc]

end Allocated
end GraphGrammar
