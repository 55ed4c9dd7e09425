import GraphGrammar.Proofs.Mappings
import GraphGrammar.Proofs.Ordering
import GraphGrammar.Proofs.WellFormed

/-!
# Graphs and mappings under other names

The entries of an ordered table come in the order of their keys, so a table whose keys are exchanged for others is
listed like the old one as long as the new keys are in the same order. From this a graph with new identifiers and new
labels is told by its listings: they are those of the old graph, entry by entry.
-/

namespace GraphGrammar
open Std

/-! ## Tables -/

namespace Tables

variable {κ ν : Type} [Ord κ] [TransOrd κ] [LawfulEqOrd κ] {table : ExtTreeMap κ ν} {l : List (κ × ν)}
  {f : κ → κ} {h : ν → ν} {x y : κ} {v w : ν}

theorem getElem?_ofList [DecidableEq κ] (keys : (l.map Prod.fst).Nodup) :
    (ExtTreeMap.ofList l)[x]? = some v ↔ (x, v) ∈ l := by
  have distinct : l.Pairwise fun e e' => ¬ compare e.1 e'.1 = .eq :=
    (List.pairwise_map.mp keys).imp fun hne heq => hne (Std.compare_eq_iff_eq.mp heq)
  have found {w : ν} (hw : (x, w) ∈ l) : (ExtTreeMap.ofList l)[x]? = some w :=
    ExtTreeMap.getElem?_ofList_of_mem ReflCmp.compare_self distinct hw
  refine ⟨fun hv => ?_, found⟩
  have hx : x ∈ ExtTreeMap.ofList l := ExtTreeMap.mem_iff_isSome_getElem?.mpr (by rw [hv, Option.isSome_some])
  rw [ExtTreeMap.mem_ofList, List.contains_iff_mem] at hx
  obtain ⟨⟨_, w⟩, hw, rfl⟩ := List.mem_map.mp hx
  rw [found hw, Option.some.injEq] at hv
  exact hv ▸ hw

/-- A list in the order of its keys is the listing of its table. -/
theorem toList_ofList [DecidableEq κ] (ordered : l.Pairwise fun e e' => compare e.1 e'.1 = .lt) :
    (ExtTreeMap.ofList l).toList = l := by
  have asymm (e e' : κ × ν) (hlt : compare e.1 e'.1 = .lt) (hgt : compare e'.1 e.1 = .lt) : e = e' :=
    absurd hgt (OrientedCmp.not_lt_of_lt hlt)
  have keys : (l.map Prod.fst).Nodup := by
    refine List.pairwise_map.mpr (ordered.imp fun {e e'} hlt heq => ?_)
    rw [heq, compare_self] at hlt
    cases hlt
  have listed : (ExtTreeMap.ofList l).toList.Nodup :=
    ExtTreeMap.distinct_keys_toList.imp fun hne heq => hne (by rw [heq, compare_self])
  have perm : (ExtTreeMap.ofList l).toList.Perm l :=
    (List.perm_ext_iff_of_nodup listed keys.of_map).mpr fun e => by
      rw [ExtTreeMap.mem_toList_iff_getElem?_eq_some, getElem?_ofList keys]
  exact perm.eq_of_pairwise (fun e e' _ _ => asymm e e') ExtTreeMap.ordered_keys_toList ordered

theorem mem_of_mem_toList {e : κ × ν} (he : e ∈ table.toList) : e.1 ∈ table := by
  rw [ExtTreeMap.mem_toList_iff_getElem?_eq_some] at he
  exact ExtTreeMap.mem_iff_isSome_getElem?.mpr (by rw [he, Option.isSome_some])

def rename (f : κ → κ) (h : ν → ν) (table : ExtTreeMap κ ν) : ExtTreeMap κ ν :=
  .ofList (table.toList.map (Prod.map f h))

theorem getElem?_rename [DecidableEq κ] (inj : ∀ x ∈ table, ∀ y ∈ table, f x = f y → x = y) :
    (rename f h table)[y]? = some w ↔ ∃ x v, table[x]? = some v ∧ f x = y ∧ h v = w := by
  have keys : ((table.toList.map (Prod.map f h)).map Prod.fst).Nodup := by
    rw [List.map_map, List.Nodup, List.pairwise_map]
    refine ExtTreeMap.distinct_keys_toList.imp_of_mem fun {e e'} he he' hne heq => hne ?_
    rw [inj e.1 (mem_of_mem_toList he) e'.1 (mem_of_mem_toList he') heq, compare_self]
  rw [rename, getElem?_ofList keys, List.mem_map]
  simp only [Prod.exists, ExtTreeMap.mem_toList_iff_getElem?_eq_some, Prod.map_apply, Prod.mk.injEq]

/-- Keys in the same order leave the listing in its order. -/
theorem toList_rename [DecidableEq κ]
    (mono : ∀ x ∈ table, ∀ y ∈ table, compare x y = .lt → compare (f x) (f y) = .lt) :
    (rename f h table).toList = table.toList.map (Prod.map f h) := by
  refine toList_ofList (List.pairwise_map.mpr ?_)
  exact ExtTreeMap.ordered_keys_toList.imp_of_mem fun {e e'} he he' hlt =>
    mono e.1 (mem_of_mem_toList he) e'.1 (mem_of_mem_toList he') hlt

end Tables

/-! ## Mappings -/

namespace Mapping

variable {m : Mapping} {a b : VertexId → VertexId} {z w : VertexId} {pairs : List (VertexId × VertexId)}

/-- The mapping with `a x` sent to `b z` where `x` was sent to `z`. -/
def rename (a b : VertexId → VertexId) (m : Mapping) : Mapping := ⟨Tables.rename a b m.images⟩

theorem get?_rename (inj : ∀ x y, m.contains x = true → m.contains y = true → a x = a y → x = y) :
    (m.rename a b).get? z = some w ↔ ∃ x u, m.get? x = some u ∧ a x = z ∧ b u = w :=
  Tables.getElem?_rename fun x hx y hy => inj x y hx hy

theorem map_fst_map_prodMap : (pairs.map (Prod.map a b)).map Prod.fst = (pairs.map Prod.fst).map a := by
  rw [List.map_map, List.map_map]
  rfl

theorem ofList_rename (keys : (pairs.map Prod.fst).Nodup)
    (inj : ∀ x ∈ pairs.map Prod.fst, ∀ y ∈ pairs.map Prod.fst, a x = a y → x = y) :
    ofList (pairs.map (Prod.map a b)) = (ofList pairs).rename a b := by
  have known (x : VertexId) (hx : (ofList pairs).contains x = true) : x ∈ pairs.map Prod.fst := by
    obtain ⟨z, hz⟩ := contains_iff_get?.mp hx
    exact List.mem_map.mpr ⟨_, (get?_ofList keys).mp hz, rfl⟩
  have keys' : ((pairs.map (Prod.map a b)).map Prod.fst).Nodup := by
    rw [map_fst_map_prodMap]
    exact keys.map_on inj
  refine ext_get? fun x => Option.ext fun z => ?_
  rw [get?_ofList keys', get?_rename fun x y hx hy => inj x (known x hx) y (known y hy), List.mem_map]
  simp only [Prod.exists, get?_ofList keys, Prod.map_apply, Prod.mk.injEq]

end Mapping

/-! ## Graphs -/

namespace Graph

variable {g : Graph} {f : VertexId → VertexId} {c : Label → Label} {x y z : VertexId} {l : Label}

/-- The new identifiers of the vertices are in the order of the old ones. -/
def KeepsOrder (g : Graph) (f : VertexId → VertexId) : Prop := ∀ x ∈ g.ids, ∀ y ∈ g.ids, x < y → f x < f y

instance : Decidable (g.KeepsOrder f) :=
  inferInstanceAs (Decidable (∀ x ∈ g.ids, ∀ y ∈ g.ids, x < y → f x < f y))

def rename (f : VertexId → VertexId) (c : Label → Label) (g : Graph) : Graph where
  stored := Tables.rename f (fun v => ⟨f v.id, c v.label⟩) g.stored
  targets := Tables.rename f (List.map f) g.targets
  sources := Tables.rename f (fun s => .ofList (s.toList.map f)) g.sources
  nextFresh := g.nextFresh

namespace KeepsOrder

variable (hf : g.KeepsOrder f)
include hf

theorem compare_eq (hx : g.contains x = true) (hy : g.contains y = true) : compare (f x) (f y) = compare x y := by
  rw [← mem_ids] at hx hy
  rcases VertexId.lt_trichotomy x y with h | rfl | h
  · have h' := hf x hx y hy h
    rw [VertexId.lt_iff_compare] at h h'
    rw [h, h']
  · rw [compare_self, compare_self]
  · have h' := hf y hy x hx h
    rw [VertexId.lt_iff_compare] at h h'
    rw [OrientedCmp.gt_of_lt h, OrientedCmp.gt_of_lt h']

theorem injective (hx : g.contains x = true) (hy : g.contains y = true) (h : f x = f y) : x = y := by
  refine Std.compare_eq_iff_eq.mp ?_
  rw [← hf.compare_eq hx hy, h, compare_self]

theorem eq_iff (hx : g.contains x = true) (hy : g.contains y = true) : f x = f y ↔ x = y :=
  ⟨hf.injective hx hy, congrArg f⟩

theorem injOn {xs : List VertexId} (known : ∀ x ∈ xs, g.contains x = true) :
    ∀ x ∈ xs, ∀ y ∈ xs, f x = f y → x = y :=
  fun x hx y hy => hf.injective (known x hx) (known y hy)

theorem toList_stored_rename (c : Label → Label) :
    (g.rename f c).stored.toList = g.stored.toList.map (Prod.map f fun v => ⟨f v.id, c v.label⟩) := by
  have mono : ∀ x ∈ g.stored, ∀ y ∈ g.stored, compare x y = .lt → compare (f x) (f y) = .lt :=
    fun x hx y hy => hf x (mem_ids.mpr hx) y (mem_ids.mpr hy)
  exact Tables.toList_rename mono

theorem vertices_rename (c : Label → Label) :
    (g.rename f c).vertices = g.vertices.map fun v => ⟨f v.id, c v.label⟩ := by
  rw [vertices, Tables.values_eq_map_snd, hf.toList_stored_rename, vertices, Tables.values_eq_map_snd, List.map_map,
    List.map_map]
  rfl

theorem ids_rename (c : Label → Label) : (g.rename f c).ids = g.ids.map f := by
  rw [ids, ← ExtTreeMap.map_fst_toList_eq_keys, hf.toList_stored_rename, ids, ← ExtTreeMap.map_fst_toList_eq_keys,
    List.map_map, List.map_map]
  rfl

theorem contains_rename (c : Label → Label) :
    (g.rename f c).contains z = true ↔ ∃ x, g.contains x = true ∧ f x = z := by
  rw [← mem_ids, hf.ids_rename, List.mem_map]
  simp only [mem_ids]

theorem isEmpty_rename (c : Label → Label) : (g.rename f c).isEmpty = g.isEmpty := by
  rw [Bool.eq_iff_iff, isEmpty_iff, isEmpty_iff]
  simp only [← Bool.not_eq_true, hf.contains_rename]
  grind

/-- The vertices of a label are the old ones, unless it was the label of others too. -/
theorem withLabel_rename (apart : ∀ v ∈ g.vertices, c v.label = c l → v.label = l) :
    (g.rename f c).withLabel (c l) = (g.withLabel l).map f := by
  rw [withLabel, hf.vertices_rename, List.filter_map, List.map_map, withLabel, List.map_map]
  refine congrArg (List.map _) (List.filter_congr fun v hv => ?_)
  rw [Function.comp_apply, decide_eq_decide]
  exact ⟨apart v hv, congrArg c⟩

variable (hg : g.WellFormed)
include hg

theorem edges_rename (c : Label → Label) : (g.rename f c).edges = g.edges.map (Prod.map f f) := by
  have mono : ∀ x ∈ g.targets, ∀ y ∈ g.targets, compare x y = .lt → compare (f x) (f y) = .lt :=
    fun x hx y hy => hf x (mem_ids.mpr ((hg.mem_targets x).mp hx)) y (mem_ids.mpr ((hg.mem_targets y).mp hy))
  rw [edges, rename, Tables.toList_rename mono, edges, List.flatMap_map, List.map_flatMap]
  refine congrArg (List.flatMap · _) (funext fun row => ?_)
  rw [List.map_map]
  exact List.map_map

theorem hasEdge_rename (c : Label → Label) (hx : g.contains x = true) (hy : g.contains y = true) :
    (g.rename f c).hasEdge (f x) (f y) = g.hasEdge x y := by
  rw [Bool.eq_iff_iff, hasEdge_iff, hasEdge_iff, ← mem_edges, ← mem_edges, hf.edges_rename hg, List.mem_map]
  refine ⟨?_, fun h => ⟨(x, y), h, rfl⟩⟩
  intro h
  obtain ⟨⟨u, v⟩, huv, heq⟩ := h
  obtain ⟨hu, hv⟩ := Prod.mk.injEq .. ▸ heq
  have known := mem_edges.mp huv
  rwa [← hf.injective (hg.contains_source known) hx hu, ← hf.injective (hg.contains_target u v known) hy hv]

end KeepsOrder

end Graph
end GraphGrammar
