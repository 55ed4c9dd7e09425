import Mathlib.Data.List.Nodup
import GraphGrammar.Mapping

/-!
# Mappings as partial functions

A mapping is told by `get?`: mappings with the same images are equal, the pairs it lists are its graph, and the
mapping of a list of pairs with different first components has that list as its graph. The search for a collision
finds none exactly when the mapping is injective.
-/

namespace GraphGrammar.Mapping
open Std

variable {m m' : Mapping} {a b u v x y z : VertexId} {pairs : List (VertexId × VertexId)}

def Injective (m : Mapping) : Prop := ∀ x y z, m.get? x = some z → m.get? y = some z → x = y

theorem contains_iff_get? : m.contains x = true ↔ ∃ z, m.get? x = some z := by
  rw [contains, get?, ExtTreeMap.contains_eq_isSome_getElem?, Option.isSome_iff_exists]

theorem contains_eq_isSome : m.contains x = (m.get? x).isSome := ExtTreeMap.contains_eq_isSome_getElem?

theorem ext_get? (h : ∀ x, m.get? x = m'.get? x) : m = m' := by
  obtain ⟨t⟩ := m
  obtain ⟨t'⟩ := m'
  exact congrArg Mapping.mk (ExtTreeMap.ext_getElem? h)

@[simp] theorem get?_empty : (∅ : Mapping).get? x = none := ExtTreeMap.getElem?_empty

theorem get?_insert : (m.insert a b).get? x = if x = a then some b else m.get? x := by
  rw [insert, get?, ExtTreeMap.getElem?_insert]
  simp [@eq_comm _ a x, get?]

theorem mem_toList : (x, z) ∈ m.toList ↔ m.get? x = some z := ExtTreeMap.mem_toList_iff_getElem?_eq_some

theorem nodup_keys (m : Mapping) : (m.toList.map Prod.fst).Nodup := by
  rw [toList, ExtTreeMap.map_fst_toList_eq_keys]
  exact ExtTreeMap.nodup_keys

/-! ## Mappings of listed pairs -/

theorem get?_foldl_insert (hp : (pairs.map Prod.fst).Nodup) :
    (pairs.foldl (fun m (pattern, host) => m.insert pattern host) m).get? x = some z ↔
      (x, z) ∈ pairs ∨ (x ∉ pairs.map Prod.fst ∧ m.get? x = some z) := by
  induction pairs generalizing m with
  | nil => simp
  | cons pair pairs ih =>
    obtain ⟨a, b⟩ := pair
    rw [List.map_cons, List.nodup_cons] at hp
    rw [List.foldl_cons, ih hp.2, get?_insert]
    by_cases hx : x = a
    · subst hx
      have hnot : (x, z) ∉ pairs := fun h => hp.1 (List.mem_map.mpr ⟨_, h, rfl⟩)
      simp [hp.1, hnot, eq_comm]
    · simp [hx]

theorem get?_ofList (hp : (pairs.map Prod.fst).Nodup) : (ofList pairs).get? x = some z ↔ (x, z) ∈ pairs := by
  rw [ofList, get?_foldl_insert hp]
  simp

theorem pairs_eq_map (hp : (pairs.map Prod.fst).Nodup) :
    pairs = (pairs.map Prod.fst).map fun x => (x, ((ofList pairs).get? x).getD x) := by
  conv_lhs => rw [← pairs.map_id]
  rw [List.map_map]
  refine List.map_congr_left ?_
  intro pair hx
  obtain ⟨x, z⟩ := pair
  simp [(get?_ofList hp).mpr hx]

/-- Lists of pairs with the same first components in the same order are told by their mappings. -/
theorem ofList_injective {pairs' : List (VertexId × VertexId)} (hp : (pairs.map Prod.fst).Nodup)
    (keys : pairs.map Prod.fst = pairs'.map Prod.fst) (h : ofList pairs = ofList pairs') : pairs = pairs' := by
  rw [pairs_eq_map hp, h, keys, ← pairs_eq_map (keys ▸ hp)]

/-! ## Images of edges -/

theorem edgeImage?_eq_some : m.edgeImage? (a, b) = some (u, v) ↔ m.get? a = some u ∧ m.get? b = some v := by
  rw [edgeImage?]
  cases m.get? a <;> cases m.get? b <;> simp

theorem mem_edgeImages {es : List Edge} : (u, v) ∈ es.filterMap m.edgeImage? ↔
    ∃ a b, (a, b) ∈ es ∧ m.get? a = some u ∧ m.get? b = some v := by
  simp only [List.mem_filterMap, Prod.exists, edgeImage?_eq_some]

theorem length_edgeImages {es : List Edge}
    (h : ∀ a b, (a, b) ∈ es → (∃ u, m.get? a = some u) ∧ ∃ v, m.get? b = some v) :
    (es.filterMap m.edgeImage?).length = es.length := by
  rw [List.filterMap_length_eq_length]
  intro e he
  obtain ⟨a, b⟩ := e
  obtain ⟨⟨u, hu⟩, v, hv⟩ := h a b he
  rw [edgeImage?_eq_some.mpr ⟨hu, hv⟩]
  rfl

/-! ## Injectivity -/

theorem collisionAmong_eq_none {seen : ExtTreeMap VertexId VertexId} :
    collisionAmong seen pairs = none ↔ (pairs.map Prod.snd).Nodup ∧ ∀ p ∈ pairs, p.2 ∉ seen := by
  induction pairs generalizing seen with
  | nil => simp [collisionAmong]
  | cons pair pairs ih =>
    obtain ⟨pattern, host⟩ := pair
    rw [collisionAmong]
    cases hs : seen[host]? with
    | some first =>
      have hmem : host ∈ seen := ExtTreeMap.mem_iff_isSome_getElem?.mpr (by simp [hs])
      simp [hmem]
    | none =>
      -- The image is new, and from here on it counts as seen.
      have hmem : host ∉ seen := fun h => by simp [ExtTreeMap.mem_iff_isSome_getElem?, hs] at h
      simp only [ih, ExtTreeMap.mem_insert, Std.compare_eq_iff_eq, List.map_cons, List.nodup_cons, List.mem_cons,
        List.mem_map, forall_eq_or_imp, not_or, hmem]
      grind

theorem Injective.nodup_images (h : m.Injective) (keys : (pairs.map Prod.fst).Nodup)
    (image : ∀ x z, (x, z) ∈ pairs → m.get? x = some z) : (pairs.map Prod.snd).Nodup := by
  refine List.Nodup.map_on ?_ keys.of_map
  intro e he e' he' heq
  obtain ⟨x, z⟩ := e
  obtain ⟨y, z'⟩ := e'
  obtain rfl : z = z' := heq
  rw [h x y z (image x z he) (image y z he')]

theorem Injective.nodup_filterMap (h : m.Injective) {xs : List VertexId} (hn : xs.Nodup) :
    (xs.filterMap m.get?).Nodup :=
  hn.filterMap fun x y z hx hy => h x y z hx hy

theorem Injective.nodup_edgeImages (h : m.Injective) {es : List Edge} (hn : es.Nodup) :
    (es.filterMap m.edgeImage?).Nodup := by
  refine hn.filterMap fun e e' image he he' => ?_
  obtain ⟨a, b⟩ := e
  obtain ⟨a', b'⟩ := e'
  obtain ⟨u, v⟩ := image
  obtain ⟨ha, hb⟩ := edgeImage?_eq_some.mp he
  obtain ⟨ha', hb'⟩ := edgeImage?_eq_some.mp he'
  rw [h a a' u ha ha', h b b' v hb hb']

/-- The images of the edges from one vertex lead from its image to the images of their targets, in their order. -/
theorem Injective.targets_edgeImages (h : m.Injective) (ha : m.get? a = some u) (es : List Edge) :
    ((es.filterMap m.edgeImage?).filter (·.1 = u)).map Prod.snd =
      ((es.filter (·.1 = a)).map Prod.snd).filterMap m.get? := by
  induction es with
  | nil => rfl
  | cons e es ih =>
    obtain ⟨c, d⟩ := e
    by_cases hc : c = a
    · subst hc
      rw [List.filter_cons_of_pos (by simp), List.map_cons]
      cases hd : m.get? d with
      | none =>
        have image : m.edgeImage? (c, d) = none := by simp [edgeImage?, ha, hd]
        rw [List.filterMap_cons_none image, List.filterMap_cons_none hd, ih]
      | some v =>
        have image : m.edgeImage? (c, d) = some (u, v) := edgeImage?_eq_some.mpr ⟨ha, hd⟩
        rw [List.filterMap_cons_some image, List.filterMap_cons_some hd, List.filter_cons_of_pos (by simp),
          List.map_cons, ih]
    · rw [List.filter_cons_of_neg (by simpa using hc), ← ih]
      cases image : m.edgeImage? (c, d) with
      | none => rw [List.filterMap_cons_none image]
      | some e =>
        obtain ⟨w, v⟩ := e
        obtain ⟨hw, -⟩ := edgeImage?_eq_some.mp image
        have hne : w ≠ u := fun hwu => hc (h c a u (hwu ▸ hw) ha)
        rw [List.filterMap_cons_some image, List.filter_cons_of_neg (by simpa using hne)]

theorem nodup_hosts_iff : (m.toList.map Prod.snd).Nodup ↔ m.Injective := by
  refine ⟨?_, ?_⟩
  · intro h x y z hx hy
    exact congrArg Prod.fst (List.inj_on_of_nodup_map h (mem_toList.mpr hx) (mem_toList.mpr hy) rfl)
  · intro h
    exact h.nodup_images m.nodup_keys fun x z => mem_toList.mp

theorem collision?_eq_none : m.collision? = none ↔ m.Injective := by
  rw [collision?, collisionAmong_eq_none, nodup_hosts_iff]
  simp

end GraphGrammar.Mapping
