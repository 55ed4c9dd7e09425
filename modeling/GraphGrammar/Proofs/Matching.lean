import Mathlib.Data.List.Lex
import GraphGrammar.Proofs.Embedding
import GraphGrammar.Proofs.Ordering
import GraphGrammar.Proofs.PlanOrder
import GraphGrammar.Proofs.SearchEvents
import GraphGrammar.Proofs.WellFormed

/-!
# The search finds the embeddings

Placed vertices agree with each other when they keep the edges among them and share no image. A candidate is
accepted exactly when it can be placed behind the others and all still agree, so the ways to complete a plan are
the ways to place all vertices so that they agree in the end. Nothing here depends on the order of the plan.
-/

namespace GraphGrammar
open Std

variable {pattern host : Graph} {placed tail full : Placed} {order : List Pending} {plan : List Placement}
  {q : Pending} {c x y z : VertexId}

/-- The placed vertices have different images and keep the edges among them. -/
structure Agrees (pattern host : Graph) (placed : Placed) : Prop where
  images : (placed.map Prod.snd).Nodup
  edge : ∀ x u y v, (x, u) ∈ placed → (y, v) ∈ placed → y ∈ pattern.successors x → v ∈ host.successors u

theorem Agrees.nil : Agrees pattern host [] := ⟨List.nodup_nil, by simp⟩

theorem Agrees.of_append (h : Agrees pattern host (placed ++ tail)) : Agrees pattern host placed := by
  refine ⟨?_, fun x u y v hx hy => h.edge x u y v (List.mem_append_left _ hx) (List.mem_append_left _ hy)⟩
  have hn := h.images
  rw [List.map_append] at hn
  exact (List.nodup_append.mp hn).1

/-! ## Candidates -/

theorem mem_links {link : Link} : link ∈ (q.place pattern (placed.map Prod.fst)).links ↔
    ∃ x u, placed[link.earlier]? = some (x, u) ∧
      ((link.outgoing = true ∧ x ∈ pattern.successors q.pattern) ∨
        (link.outgoing = false ∧ q.pattern ∈ pattern.successors x)) := by
  obtain ⟨earlier, outgoing⟩ := link
  simp only [mem_links_place, List.getElem?_map, Option.map_eq_some_iff, Prod.exists, exists_and_right, exists_eq_right]
  cases outgoing <;> simp [Link.edge, Graph.mem_edges]

theorem admits_iff : (q.place pattern (placed.map Prod.fst)).admits host placed c = true ↔
    (q.pattern ∈ pattern.successors q.pattern → c ∈ host.successors c) ∧
    ∀ x u, (x, u) ∈ placed →
      (x ∈ pattern.successors q.pattern → u ∈ host.successors c) ∧
      (q.pattern ∈ pattern.successors x → c ∈ host.successors u) := by
  rw [Placement.admits, Bool.and_eq_true, List.all_eq_true]
  refine and_congr ?_ ⟨fun h x u hx => ?_, fun h link hlink => ?_⟩
  · rw [Bool.or_eq_true, Bool.not_eq_true', Graph.hasEdge_iff, ← Bool.not_eq_true, ← imp_iff_not_or]
    exact imp_congr Graph.hasEdge_iff Iff.rfl
  · obtain ⟨i, hi⟩ := List.mem_iff_getElem?.mp hx
    refine ⟨fun he => ?_, fun he => ?_⟩
    · simpa [hi] using h ⟨i, true⟩ (mem_links.mpr ⟨x, u, hi, .inl ⟨rfl, he⟩⟩)
    · simpa [hi] using h ⟨i, false⟩ (mem_links.mpr ⟨x, u, hi, .inr ⟨rfl, he⟩⟩)
  · obtain ⟨x, u, hi, ho⟩ := mem_links.mp hlink
    have hx := h x u (List.mem_of_getElem? hi)
    rcases ho with ⟨ho, he⟩ | ⟨ho, he⟩
    · simpa [hi, ho] using hx.1 he
    · simpa [hi, ho] using hx.2 he

/-- A candidate is accepted exactly when all placed vertices still agree with it. -/
theorem accepts_iff (h : Agrees pattern host placed) :
    (q.place pattern (placed.map Prod.fst)).accepts host placed c = true ↔
      Agrees pattern host (placed ++ [(q.pattern, c)]) := by
  have unused : (!placed.any (·.2 = c)) = true ↔ c ∉ placed.map Prod.snd := by
    simp
    grind
  rw [Placement.accepts, Bool.and_eq_true, admits_iff, unused]
  refine ⟨?_, ?_⟩
  · intro haccept
    obtain ⟨hc, loop, cross⟩ := haccept
    refine ⟨?_, fun x u y v hx hy he => ?_⟩
    · rw [List.map_append]
      refine List.nodup_append.mpr ⟨h.images, List.nodup_singleton c, ?_⟩
      intro u hu w hw heq
      rw [List.map_singleton, List.mem_singleton] at hw
      rw [heq, hw] at hu
      exact hc hu
    · -- Both ends are placed before, or one of them or each is the new vertex.
      rw [List.mem_append, List.mem_singleton, Prod.mk.injEq] at hx hy
      rcases hx with hx | ⟨rfl, rfl⟩ <;> rcases hy with hy | ⟨rfl, rfl⟩
      · exact h.edge x u y v hx hy he
      · exact (cross x u hx).2 he
      · exact (cross y v hy).1 he
      · exact loop he
  · intro h'
    have last : (q.pattern, c) ∈ placed ++ [(q.pattern, c)] := by simp
    refine ⟨fun hc => ?_, h'.edge _ _ _ _ last last, fun x u hx => ?_⟩
    · have hn := h'.images
      rw [List.map_append] at hn
      exact (List.nodup_append.mp hn).2.2 c hc c (by simp) rfl
    · have hx := List.mem_append_left [(q.pattern, c)] hx
      exact ⟨h'.edge _ _ _ _ last hx, h'.edge _ _ _ _ hx last⟩

/-! ## Completions -/

/-- The pairs place the vertices that wait, in turn, each at one of its candidates. -/
def Places (tail : Placed) (order : List Pending) : Prop :=
  List.Forall₂ (fun pair q => pair.1 = q.pattern ∧ pair.2 ∈ q.candidates) tail order

theorem Places.map_fst (h : Places tail order) : tail.map Prod.fst = order.map (·.pattern) := by
  induction h with
  | nil => rfl
  | cons hd _ ih => rw [List.map_cons, List.map_cons, hd.1, ih]

theorem Places.exists_pending (h : Places tail order) (hx : (x, z) ∈ tail) :
    ∃ q ∈ order, q.pattern = x ∧ z ∈ q.candidates := by
  induction h with
  | nil => cases hx
  | cons hd _ ih =>
    rcases List.mem_cons.mp hx with rfl | hx
    · exact ⟨_, List.mem_cons_self, hd.1.symm, hd.2⟩
    · obtain ⟨q, hq, h⟩ := ih hx
      exact ⟨q, List.mem_cons_of_mem _ hq, h⟩

/-- The next vertex takes one of the candidates that are accepted. -/
theorem mem_completions_cons :
    full ∈ completions host (arrange pattern (placed.map Prod.fst) (q :: order)) placed ↔
      ∃ c ∈ q.candidates, (q.place pattern (placed.map Prod.fst)).accepts host placed c = true ∧
        full ∈ completions host (arrange pattern ((placed ++ [(q.pattern, c)]).map Prod.fst) order)
          (placed ++ [(q.pattern, c)]) := by
  rw [arrange, completions, List.mem_flatMap]
  refine exists_congr fun c => and_congr_right fun _ => ?_
  rw [List.mem_ite_nil_right, List.map_append]
  rfl

/-- Completing a plan places all that waits so that everything agrees in the end. -/
theorem mem_completions (h : Agrees pattern host placed) :
    full ∈ completions host (arrange pattern (placed.map Prod.fst) order) placed ↔
      Agrees pattern host full ∧ ∃ tail, Places tail order ∧ full = placed ++ tail := by
  induction order generalizing placed with
  | nil =>
    rw [arrange, completions, List.mem_singleton]
    refine ⟨?_, ?_⟩
    · intro heq
      subst heq
      exact ⟨h, [], .nil, by simp⟩
    · intro hfull
      obtain ⟨-, tail, ht, rfl⟩ := hfull
      cases ht
      simp
  | cons q order ih =>
    rw [mem_completions_cons]
    refine ⟨?_, ?_⟩
    · intro hfull
      obtain ⟨c, hc, haccept, hfull⟩ := hfull
      rw [ih ((accepts_iff h).mp haccept)] at hfull
      obtain ⟨hagree, tail, ht, rfl⟩ := hfull
      exact ⟨hagree, (q.pattern, c) :: tail, .cons ⟨rfl, hc⟩ ht, by simp⟩
    · intro hfull
      obtain ⟨hagree, tail, ht, rfl⟩ := hfull
      cases ht with
      | @cons pair _ tail _ hd ht =>
        obtain ⟨x, c⟩ := pair
        obtain ⟨rfl, hc⟩ := hd
        have split : placed ++ (q.pattern, c) :: tail = (placed ++ [(q.pattern, c)]) ++ tail := by simp
        -- What agrees in the end agrees at every point on the way.
        have hnext : Agrees pattern host (placed ++ [(q.pattern, c)]) := (split ▸ hagree).of_append
        refine ⟨c, hc, (accepts_iff h).mpr hnext, ?_⟩
        rw [ih hnext]
        exact ⟨hagree, tail, ht, split⟩

theorem mem_completions_nil :
    full ∈ completions host (arrange pattern [] order) [] ↔ Agrees pattern host full ∧ Places full order := by
  have h := @mem_completions pattern host [] full order .nil
  simpa using h

/-! ## The order of the completions -/

theorem append_of_mem_completions (h : full ∈ completions host plan placed) :
    ∃ tail, full = placed ++ tail := by
  induction plan generalizing placed with
  | nil =>
    rw [completions, List.mem_singleton] at h
    exact ⟨[], by simp [h]⟩
  | cons p plan ih =>
    rw [completions, List.mem_flatMap] at h
    obtain ⟨c, -, h⟩ := h
    obtain ⟨tail, rfl⟩ := ih (List.mem_ite_nil_right.mp h).2
    exact ⟨(p.pattern, c) :: tail, by simp⟩

/-- The completions come in the lexicographic order of their images. -/
theorem completions_ordered (h : ∀ p ∈ plan, p.candidates.Pairwise (· < ·)) :
    (completions host plan placed).Pairwise fun full full' =>
      List.Lex (· < ·) (full.map Prod.snd) (full'.map Prod.snd) := by
  induction plan generalizing placed with
  | nil => exact List.pairwise_singleton ..
  | cons p plan ih =>
    rw [completions, List.pairwise_flatMap]
    refine ⟨fun c _ => ?_, (h p List.mem_cons_self).imp fun {c c'} hlt full hfull full' hfull' => ?_⟩
    · split
      · exact ih fun q hq => h q (List.mem_cons_of_mem p hq)
      · exact List.Pairwise.nil
    · -- Two completions with different candidates differ here for the first time.
      rw [List.mem_ite_nil_right] at hfull hfull'
      obtain ⟨tail, rfl⟩ := append_of_mem_completions hfull.2
      obtain ⟨tail', rfl⟩ := append_of_mem_completions hfull'.2
      simp only [List.map_append, List.map_cons, List.append_assoc, List.singleton_append]
      exact List.Lex.append_left _ (List.Lex.rel hlt) _

/-! ## All placements of some vertices of a pattern -/

section

variable (hp : pattern.Keyed) (sub : order.Subperm (candidatesOf pattern host)) (places : Places full order)
include hp sub

theorem nodup_pattern_of_subperm : (order.map (·.pattern)).Nodup := by
  obtain ⟨order', perm, sublist⟩ := sub
  have hn : ((candidatesOf pattern host).map (·.pattern)).Nodup := by
    rw [map_pattern_candidatesOf hp]
    exact pattern.nodup_ids
  exact (perm.map _).nodup_iff.mp (hn.sublist (sublist.map _))

include places

theorem Places.nodup_keys : (full.map Prod.fst).Nodup := by
  rw [places.map_fst]
  exact nodup_pattern_of_subperm hp sub

theorem Places.label?_eq (hh : host.Keyed) (h : (x, z) ∈ full) : host.label? z = pattern.label? x := by
  obtain ⟨q, hq, rfl, hz⟩ := places.exists_pending h
  obtain ⟨l, hl, hc⟩ := (mem_candidatesOf hp).mp (sub.subset hq)
  rw [hc, hh.mem_withLabel] at hz
  rw [hz, hl]

theorem Agrees.isPartialEmbedding (hh : host.Keyed) (h : Agrees pattern host full) :
    IsPartialEmbedding pattern host (order.map (·.pattern)) (.ofList full) := by
  have image : ∀ x z, (Mapping.ofList full).get? x = some z ↔ (x, z) ∈ full := by
    intro x z
    exact Mapping.get?_ofList (places.nodup_keys hp sub)
  refine ⟨fun x => ?_, fun x y z hx hy => ?_, fun x z hz => ?_, fun x y u v hu hv hxy => ?_⟩
  · rw [← places.map_fst]
    simp [Mapping.contains_iff_get?, image]
  · rw [image] at hx hy
    exact congrArg Prod.fst (List.inj_on_of_nodup_map h.images hx hy rfl)
  · exact places.label?_eq hp sub hh ((image x z).mp hz)
  · rw [Graph.hasEdge_iff] at hxy ⊢
    exact h.edge x u y v ((image x u).mp hu) ((image y v).mp hv) hxy

theorem Places.ofList_eq (h : IsPartialEmbedding pattern host (order.map (·.pattern)) m)
    (image : ∀ x z, (x, z) ∈ full → m.get? x = some z) : .ofList full = m := by
  refine Mapping.ext_get? fun x => Option.ext fun z => ?_
  rw [Mapping.get?_ofList (places.nodup_keys hp sub)]
  refine ⟨image x z, fun hz => ?_⟩
  have hx := (h.domain x).mp (Mapping.contains_iff_get?.mpr ⟨z, hz⟩)
  rw [← places.map_fst] at hx
  obtain ⟨⟨_, w⟩, hw, rfl⟩ := List.mem_map.mp hx
  rw [image _ w hw, Option.some.injEq] at hz
  exact hz ▸ hw

end

namespace IsPartialEmbedding

variable {xs : List VertexId}

theorem exists_places (hp : pattern.Keyed) (hh : host.Keyed) (h : IsPartialEmbedding pattern host xs m)
    (known : ∀ q ∈ order, q.pattern ∈ xs ∧ q ∈ candidatesOf pattern host) :
    ∃ full, Places full order ∧ ∀ x z, (x, z) ∈ full → m.get? x = some z := by
  induction order with
  | nil => exact ⟨[], .nil, by simp⟩
  | cons q order ih =>
    obtain ⟨full, places, image⟩ := ih fun p hp => known p (List.mem_cons_of_mem q hp)
    obtain ⟨hx, hq⟩ := known q List.mem_cons_self
    obtain ⟨l, hl, hc⟩ := (mem_candidatesOf hp).mp hq
    obtain ⟨z, hz⟩ := Mapping.contains_iff_get?.mp ((h.domain q.pattern).mpr hx)
    refine ⟨(q.pattern, z) :: full, .cons ⟨rfl, ?_⟩ places, fun x w hx => ?_⟩
    · rw [hc, hh.mem_withLabel, h.label _ _ hz, hl]
    · rcases List.mem_cons.mp hx with heq | hx
      · rw [Prod.mk.injEq] at heq
        rw [heq.1, heq.2, hz]
      · exact image x w hx

theorem agrees (h : IsPartialEmbedding pattern host xs m) (keys : (full.map Prod.fst).Nodup)
    (image : ∀ x z, (x, z) ∈ full → m.get? x = some z) : Agrees pattern host full := by
  refine ⟨h.injective.nodup_images keys image, fun x u y v hu hv he => ?_⟩
  exact Graph.hasEdge_iff.mp (h.edge x y u v (image x u hu) (image y v hv) (Graph.hasEdge_iff.mpr he))

end IsPartialEmbedding

/-- The completions of a plan of some vertices are the embeddings of their part of the pattern. -/
theorem mem_completions_partial (hp : pattern.Keyed) (hh : host.Keyed)
    (sub : order.Subperm (candidatesOf pattern host)) :
    m ∈ (completions host (arrange pattern [] order) []).map .ofList ↔
      IsPartialEmbedding pattern host (order.map (·.pattern)) m := by
  rw [List.mem_map]
  refine ⟨?_, ?_⟩
  · intro h
    obtain ⟨full, hfull, rfl⟩ := h
    obtain ⟨hagree, places⟩ := mem_completions_nil.mp hfull
    exact hagree.isPartialEmbedding hp sub places hh
  · intro h
    obtain ⟨full, places, image⟩ := h.exists_places hp hh fun q hq => ⟨List.mem_map_of_mem hq, sub.subset hq⟩
    have hagree := h.agrees (places.nodup_keys hp sub) image
    exact ⟨full, mem_completions_nil.mpr ⟨hagree, places⟩, places.ofList_eq hp sub h image⟩

/-- The candidates of a vertex are tried from the least one on, so the completions are ordered. -/
theorem completions_arrange_ordered (hp : pattern.Keyed) (hh : host.Keyed)
    (sub : order.Subperm (candidatesOf pattern host)) :
    (completions host (arrange pattern [] order) []).Pairwise fun full full' =>
      List.Lex (· < ·) (full.map Prod.snd) (full'.map Prod.snd) := by
  refine completions_ordered fun p hmem => ?_
  obtain ⟨q, hq, -, hc⟩ := exists_pending_of_mem_arrange hmem
  obtain ⟨l, -, hl⟩ := (mem_candidatesOf hp).mp (sub.subset hq)
  rw [hc, hl]
  exact hh.withLabel_ordered l

theorem nodup_completions_arrange (hp : pattern.Keyed) (hh : host.Keyed)
    (sub : order.Subperm (candidatesOf pattern host)) :
    ((completions host (arrange pattern [] order) []).map Mapping.ofList).Nodup := by
  rw [List.Nodup, List.pairwise_map]
  refine (completions_arrange_ordered hp hh sub).imp_of_mem fun {full full'} hfull hfull' hlex heq => ?_
  obtain ⟨-, places⟩ := mem_completions_nil.mp hfull
  obtain ⟨-, places'⟩ := mem_completions_nil.mp hfull'
  -- Both place the vertices in the order of the plan, so equal mappings make them equal lists.
  have keys := places.map_fst.trans places'.map_fst.symm
  have hne := (hlex.imp fun a b => VertexId.ne_of_lt).to_ne
  exact hne (congrArg _ (Mapping.ofList_injective (places.nodup_keys hp sub) keys heq))

/-! ## All placements of the whole pattern -/

theorem isEmbedding_iff_partial {xs : List VertexId} (hp : pattern.WellFormed)
    (all : ∀ x, x ∈ xs ↔ pattern.contains x = true) :
    IsEmbedding pattern host m ↔ IsPartialEmbedding pattern host xs m := by
  refine ⟨?_, ?_⟩
  · intro h
    refine ⟨fun x => (h.domain x).trans (all x).symm, h.injective, h.label, fun x y u v hu hv hxy => ?_⟩
    rw [Graph.hasEdge_iff] at hxy ⊢
    exact h.mem_successors_image hu hv hxy
  · intro h
    have domain (x : VertexId) := (h.domain x).trans (all x)
    refine ⟨domain, h.injective, h.label, fun x y hxy => ?_⟩
    -- Both ends are vertices of the pattern and so have images.
    have hy := Graph.hasEdge_iff.mp hxy
    obtain ⟨u, hu⟩ := Mapping.contains_iff_get?.mp ((domain x).mpr (hp.contains_source hy))
    obtain ⟨v, hv⟩ := Mapping.contains_iff_get?.mp ((domain y).mpr (hp.contains_target x y hy))
    exact ⟨u, v, hu, hv, h.edge x y u v hu hv hxy⟩

theorem mem_completions_arrange (hp : pattern.WellFormed) (hh : host.Keyed)
    (perm : order.Perm (candidatesOf pattern host)) :
    m ∈ (completions host (arrange pattern [] order) []).map .ofList ↔ IsEmbedding pattern host m := by
  rw [mem_completions_partial hp.keyed hh perm.subperm, isEmbedding_iff_partial hp]
  intro x
  rw [(perm.map _).mem_iff, map_pattern_candidatesOf hp.keyed, Graph.mem_ids]

end GraphGrammar
