import Mathlib.Data.List.Nodup
import Mathlib.Data.List.Perm.Subperm
import Mathlib.Data.Nat.Find
import GraphGrammar.Graph.Fresh
import GraphGrammar.Proofs.Readers

/-!
# Fresh names

Different numbers give different names, so among one more number than a graph has vertices one is free. The
search finds the least free number from the counter on.

Several names are often drawn in a row, with a vertex added under each. The counter may then run ahead of the
number of vertices added, by as many numbers as are passed over. What bounds it is `FilledFrom`: every number
between the counter of the beginning and the counter of now is the name of a vertex, so there are at most as many
of them as vertices.
-/

namespace GraphGrammar
open Std

theorem VertexId.numbered_injective {m n : Counter} (h : VertexId.numbered m = .numbered n) : m = n := by
  have hs : "v" ++ toString m.toNat = "v" ++ toString n.toNat := congrArg VertexId.name h
  have hd : Nat.toDigits 10 m.toNat = Nat.toDigits 10 n.toNat := by
    have hl := congrArg String.toList hs
    simpa using hl
  have hn : m.toNat = n.toNat := by
    have hv := congrArg (Nat.ofDigitChars 10 · 0) hd
    simpa only [Nat.ofDigitChars_toDigits (show 1 < 10 by decide) (Nat.le_refl 10)] using hv
  exact UInt64.toNat_inj.mp hn

namespace Counter

theorem toNat_ofNat {n : Nat} (h : n < UInt64.size) : (UInt64.ofNat n : Counter).toNat = n :=
  UInt64.toNat_ofNat_of_lt' h

end Counter

namespace Graph

variable {g : Graph}

/-- Every number from `start` up to the counter is the name of a vertex. -/
def FilledFrom (g : Graph) (start : Counter) : Prop :=
  ∀ j : Counter, start.toNat ≤ j.toNat → j.toNat < g.nextFresh.toNat → g.contains (.numbered j) = true

theorem filledFrom_nextFresh (g : Graph) : g.FilledFrom g.nextFresh := fun j h h' => by omega

theorem exists_free {start : Nat} (room : start + g.vertexCount < UInt64.size) :
    ∃ i ≤ g.vertexCount, g.contains (.numbered (.ofNat (start + i))) = false := by
  -- Otherwise one more name than there are vertices would be an identifier of the graph, all of them different.
  refine Classical.byContradiction fun hn => ?_
  have taken : ∀ i ≤ g.vertexCount, g.contains (.numbered (.ofNat (start + i))) = true :=
    fun i hi => Classical.byContradiction fun hc => hn ⟨i, hi, by simpa using hc⟩
  have nodup : ((List.range (g.vertexCount + 1)).map fun i => VertexId.numbered (.ofNat (start + i))).Nodup := by
    refine List.Nodup.map_on ?_ List.nodup_range
    intro i hi j hj hij
    rw [List.mem_range] at hi hj
    have h := congrArg UInt64.toNat (VertexId.numbered_injective hij)
    rw [Counter.toNat_ofNat (by omega), Counter.toNat_ofNat (by omega)] at h
    omega
  have sub : ((List.range (g.vertexCount + 1)).map fun i => VertexId.numbered (.ofNat (start + i))) ⊆ g.ids := by
    intro x hx
    obtain ⟨i, hi, rfl⟩ := List.mem_map.mp hx
    exact mem_ids.mpr (taken i (by rw [List.mem_range] at hi; omega))
  have hle := (nodup.subperm sub).length_le
  rw [List.length_map, List.length_range, length_ids] at hle
  omega

/-- The numbers that are used up by vertices are no more than the vertices. -/
theorem FilledFrom.nextFresh_le {start : Counter} (filled : g.FilledFrom start) :
    g.nextFresh.toNat ≤ start.toNat + g.vertexCount := by
  refine Nat.le_of_not_lt fun hlt => ?_
  have hmax := g.nextFresh.toNat_lt_size
  obtain ⟨i, hi, free⟩ := exists_free (show start.toNat + g.vertexCount < UInt64.size by omega)
  have hnum := Counter.toNat_ofNat (show start.toNat + i < UInt64.size by omega)
  rw [filled (.ofNat (start.toNat + i)) (by omega) (by omega)] at free
  cases free

theorem exists_least_free {start : Counter} (room : start.toNat + g.vertexCount < UInt64.size) :
    ∃ k : Counter, start.toNat ≤ k.toNat ∧ k.toNat ≤ start.toNat + g.vertexCount ∧
      g.contains (.numbered k) = false ∧
      ∀ j : Counter, start.toNat ≤ j.toNat → j.toNat < k.toNat → g.contains (.numbered j) = true := by
  have hex : ∃ i, g.contains (.numbered (.ofNat (start.toNat + i))) = false := by
    obtain ⟨i, -, h⟩ := exists_free room
    exact ⟨i, h⟩
  have hle : Nat.find hex ≤ g.vertexCount := by
    obtain ⟨i, hi, h⟩ := exists_free room
    exact Nat.le_trans (Nat.find_min' hex h) hi
  have hk := Counter.toNat_ofNat (show start.toNat + Nat.find hex < UInt64.size by omega)
  refine ⟨.ofNat (start.toNat + Nat.find hex), by omega, by omega, Nat.find_spec hex, fun j hj hjk => ?_⟩
  have hj' : j = .ofNat (start.toNat + (j.toNat - start.toNat)) := by
    rw [show start.toNat + (j.toNat - start.toNat) = j.toNat by omega, UInt64.ofNat_toNat]
  have hmin := Nat.find_min hex (show j.toNat - start.toNat < Nat.find hex by omega)
  rw [← hj'] at hmin
  simpa using hmin

/-- The search passes over taken numbers and stops at the first free one, if it has rounds enough to come there. -/
theorem searchFresh_eq_some {rounds : Nat} {n k : Counter} (le : n.toNat ≤ k.toNat)
    (near : k.toNat < n.toNat + rounds) (free : g.contains (.numbered k) = false)
    (taken : ∀ j : Counter, n.toNat ≤ j.toNat → j.toNat < k.toNat → g.contains (.numbered j) = true) :
    g.searchFresh rounds n = some (.numbered k, k.next) := by
  induction rounds generalizing n with
  | zero => omega
  | succ rounds ih =>
    rw [searchFresh]
    by_cases hnk : n = k
    · subst hnk
      rw [if_neg (by simp [free])]
    · have hlt : n.toNat < k.toNat :=
        Nat.lt_of_le_of_ne le fun e => hnk (UInt64.toNat_inj.mp e)
      have hnext : n.next.toNat = n.toNat + 1 := Counter.toNat_next_of_lt (by have := k.toNat_lt_size; omega)
      rw [if_pos (taken n (Nat.le_refl _) hlt)]
      exact ih (by omega) (by omega) fun j hj hjk => taken j (by omega) hjk

/-- The search finds nothing as long as it has come to taken numbers alone. -/
theorem searchFresh_eq_none {rounds : Nat} {n k : Counter} (far : n.toNat + rounds ≤ k.toNat)
    (taken : ∀ j : Counter, n.toNat ≤ j.toNat → j.toNat < k.toNat → g.contains (.numbered j) = true) :
    g.searchFresh rounds n = none := by
  induction rounds generalizing n with
  | zero => rfl
  | succ rounds ih =>
    have hnext : n.next.toNat = n.toNat + 1 := Counter.toNat_next_of_lt (by have := k.toNat_lt_size; omega)
    rw [searchFresh, if_pos (taken n (Nat.le_refl _) (by omega))]
    exact ih (by omega) fun j hj hjk => taken j (by omega) hjk

/-- A fresh name is the one of the least free number, and the counter moves just behind it. -/
theorem fresh_eq {start : Counter} (room : start.toNat + g.vertexCount < UInt64.size - 1)
    (le : start.toNat ≤ g.nextFresh.toNat) (filled : g.FilledFrom start) :
    ∃ k : Counter, g.nextFresh.toNat ≤ k.toNat ∧ k.toNat ≤ start.toNat + g.vertexCount ∧
      k.next.toNat = k.toNat + 1 ∧ g.contains (.numbered k) = false ∧
      (∀ j : Counter, g.nextFresh.toNat ≤ j.toNat → j.toNat < k.toNat → g.contains (.numbered j) = true) ∧
      g.fresh = some ({ g with nextFresh := k.next }, .numbered k) := by
  obtain ⟨k, hsk, hk, free, taken⟩ := exists_least_free (show start.toNat + g.vertexCount < UInt64.size by omega)
  have hnk : g.nextFresh.toNat ≤ k.toNat := by
    refine Nat.le_of_not_lt fun hlt => ?_
    rw [filled k hsk hlt] at free
    cases free
  have taken' : ∀ j : Counter, g.nextFresh.toNat ≤ j.toNat → j.toNat < k.toNat → g.contains (.numbered j) = true :=
    fun j hj hjk => taken j (by omega) hjk
  refine ⟨k, hnk, hk, Counter.toNat_next_of_lt (by omega), free, taken', ?_⟩
  rw [fresh, searchFresh_eq_some hnk (by omega) free taken', Option.map_some]

theorem free_of_searchFresh {rounds : Nat} {n next : Counter} {x : VertexId}
    (h : g.searchFresh rounds n = some (x, next)) :
    ∃ k : Counter, n.toNat ≤ k.toNat ∧ g.contains (.numbered k) = false ∧ x = .numbered k ∧ next = k.next := by
  induction rounds generalizing n with
  | zero => cases h
  | succ rounds ih =>
    rw [searchFresh] at h
    split at h
    · obtain ⟨k, hk, found⟩ := ih h
      have hn := Counter.toNat_next n
      have hmax := n.toNat_lt_size
      exact ⟨k, by omega, found⟩
    · next free =>
      cases h
      exact ⟨n, Nat.le_refl _, by simpa using free, rfl, rfl⟩

theorem free_of_fresh {g' : Graph} {x : VertexId} (h : g.fresh = some (g', x)) :
    ∃ k : Counter, g.nextFresh.toNat ≤ k.toNat ∧ g.contains (.numbered k) = false ∧ x = .numbered k ∧
      g' = { g with nextFresh := k.next } := by
  obtain ⟨⟨y, next⟩, found, hr⟩ := Option.map_eq_some_iff.mp h
  obtain ⟨k, hk, free, rfl, rfl⟩ := free_of_searchFresh found
  cases hr
  exact ⟨k, hk, free, rfl, rfl⟩

/-- A search that comes to taken numbers alone never ends. -/
theorem searchFresh_of_taken {n : Counter} (taken : ∀ k : Counter, n.toNat ≤ k.toNat → g.contains (.numbered k) = true)
    (rounds : Nat) : g.searchFresh rounds n = none := by
  induction rounds generalizing n with
  | zero => rfl
  | succ rounds ih =>
    rw [searchFresh, if_pos (taken n (Nat.le_refl _))]
    have hn := Counter.toNat_next n
    have hmax := n.toNat_lt_size
    exact ih fun k hk => taken k (by omega)

/-- There is no fresh name only when every number from the counter on is taken. -/
theorem taken_of_fresh (h : g.fresh = none) (k : Counter) (hk : g.nextFresh.toNat ≤ k.toNat) :
    g.contains (.numbered k) = true := by
  rw [fresh, Option.map_eq_none_iff] at h
  -- Below the least free number all numbers are taken, so it is near enough for the search to come there.
  induction hd : k.toNat using Nat.strongRecOn generalizing k with
  | ind d ih =>
    subst hd
    have below (j : Counter) (hj : g.nextFresh.toNat ≤ j.toNat) (hjk : j.toNat < k.toNat) :
        g.contains (.numbered j) = true := ih j.toNat hjk j hj rfl
    have filled : { g with nextFresh := k }.FilledFrom g.nextFresh := below
    have near : k.toNat ≤ g.nextFresh.toNat + g.vertexCount := filled.nextFresh_le
    refine Classical.byContradiction fun free => ?_
    rw [searchFresh_eq_some hk (Nat.lt_succ_of_le near) (by simpa using free) below] at h
    cases h

/-- Where there is no fresh name, a search without a bound on its rounds never ends. -/
theorem searchFresh_of_fresh (h : g.fresh = none) (rounds : Nat) : g.searchFresh rounds g.nextFresh = none :=
  searchFresh_of_taken (taken_of_fresh h) rounds

end Graph
end GraphGrammar
