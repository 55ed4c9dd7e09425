import GraphGrammar.Proofs.Matching
import GraphGrammar.Proofs.SearchLimits

/-!
# What a search returns

The list that a search without limits returns has each embedding of the pattern once and nothing else in it.

What is assumed: pattern and host store their vertices under their own identifiers, and the tables of the pattern agree.
Both hold of all graphs that operations produce (`GraphGrammar.Proofs.Session`).
-/

namespace GraphGrammar
open Std

variable {pattern host : Graph} {m : Mapping}

/-! ## The list -/

theorem isEmbedding_of_isEmpty (hp : pattern.WellFormed) (h : pattern.isEmpty = true) :
    IsEmbedding pattern host m ↔ m = ∅ := by
  rw [Graph.isEmpty_iff] at h
  refine ⟨?_, ?_⟩
  · intro hm
    refine Mapping.ext_get? fun x => ?_
    rw [Mapping.get?_empty, Option.eq_none_iff_forall_ne_some]
    intro z hz
    have hx := hm.contains_of_image hz
    rw [h x] at hx
    cases hx
  · intro heq
    subst heq
    refine ⟨fun x => ?_, fun x y z hx => ?_, fun x z hx => ?_, fun x y hxy => ?_⟩
    · simp [Mapping.contains_eq_isSome, h x]
    · simp at hx
    · simp at hx
    · have hx := hp.contains_source (Graph.hasEdge_iff.mp hxy)
      rw [h x] at hx
      cases hx

/-- Where a label of the pattern is missing, the pattern is not embedded. -/
theorem not_isEmbedding_of_plan?_eq_none (hp : pattern.Keyed) (hh : host.Keyed) (h : plan? pattern host = none) :
    ¬ IsEmbedding pattern host m := by
  intro hm
  obtain ⟨x, l, hl, hnone⟩ := (exists_missing_iff hp).mp (plan?_eq_none.mp h)
  obtain ⟨z, hz⟩ := hm.exists_image (Graph.contains_of_label? hl)
  have hmem : z ∈ host.withLabel l := hh.mem_withLabel.mpr ((hm.label x z hz).trans hl)
  rw [hnone] at hmem
  cases hmem

theorem mem_embeddings (hp : pattern.WellFormed) (hh : host.Keyed) :
    m ∈ embeddings pattern host ↔ IsEmbedding pattern host m := by
  rw [embeddings]
  split
  · rw [List.mem_singleton, isEmbedding_of_isEmpty hp ‹_›]
  · split
    · simpa using not_isEmbedding_of_plan?_eq_none hp.keyed hh ‹_›
    · obtain ⟨order, perm, rfl⟩ := plan?_eq_some hp.keyed ‹_›
      exact mem_completions_arrange hp hh perm

theorem nodup_embeddings (hp : pattern.Keyed) (hh : host.Keyed) : (embeddings pattern host).Nodup := by
  rw [embeddings]
  split
  · exact List.nodup_singleton ∅
  · split
    · exact List.nodup_nil
    · obtain ⟨order, perm, rfl⟩ := plan?_eq_some hp ‹_›
      exact nodup_completions_arrange hp hh perm.subperm

/-! ## The search -/

/-- Without limits a search succeeds, finds the embeddings and nothing else, and finds none of them twice. They are
found in every larger host, too. -/
theorem findAll_finds_embeddings (hp : pattern.WellFormed) (hh : host.Keyed) :
    ∃ ms, findAll {} pattern host = .ok ms ∧ ms.Nodup ∧ (∀ m, m ∈ ms ↔ IsEmbedding pattern host m) ∧
      ∀ host' : Graph, host'.Keyed → host'.Extends host → ∃ ms', findAll {} pattern host' = .ok ms' ∧ ms ⊆ ms' := by
  refine ⟨embeddings pattern host, findAll_eq_embeddings, nodup_embeddings hp.keyed hh,
    fun m => mem_embeddings hp hh, ?_⟩
  intro host' hh' more
  refine ⟨embeddings pattern host', findAll_eq_embeddings, fun m hm => ?_⟩
  rw [mem_embeddings hp hh] at hm
  exact (mem_embeddings hp hh').mpr (hm.extend more)

section

def loopedEdge : Graph :=
  let x : Vertex := ⟨⟨"x"⟩, ⟨"A"⟩⟩
  ((Graph.empty.addEdge x ⟨⟨"y"⟩, ⟨"A"⟩⟩).1.addEdge x x).1

theorem loopedPair_keyed : loopedPair.Keyed :=
  (((Graph.WellFormed.empty.addEdge _ _).addEdge _ _).addEdge _ _).keyed

theorem findAll_loopedEdge :
    loopedEdge.WellFormed ∧ loopedPair.Keyed ∧
      ∃ ms, findAll {} loopedEdge loopedPair = .ok ms ∧ ms.Nodup ∧
        (∀ m, m ∈ ms ↔ IsEmbedding loopedEdge loopedPair m) ∧
        (∀ host' : Graph, host'.Keyed → host'.Extends loopedPair →
          ∃ ms', findAll {} loopedEdge host' = .ok ms' ∧ ms ⊆ ms') ∧
        ms = [.ofList [(⟨"x"⟩, ⟨"b"⟩), (⟨"y"⟩, ⟨"a"⟩)]] := by
  have hp : loopedEdge.WellFormed := (Graph.WellFormed.empty.addEdge _ _).addEdge _ _
  obtain ⟨ms, h, nodup, complete, more⟩ := findAll_finds_embeddings hp loopedPair_keyed
  refine ⟨hp, loopedPair_keyed, ms, h, nodup, complete, more, ?_⟩
  have run : findAll {} loopedEdge loopedPair = .ok [.ofList [(⟨"x"⟩, ⟨"b"⟩), (⟨"y"⟩, ⟨"a"⟩)]] := by
    decide +kernel
  rw [run, Except.ok.injEq] at h
  exact h.symm

end

end GraphGrammar
