import Mathlib.Data.Set.Function
import GraphGrammar.Proofs.WellFormed

/-!
# Gluing graphs together

What rewriting leaves of a graph is a context, and it glues a part to it: some vertices of the part are vertices of
the context, the others are new and may have any names that are not taken. So the result is determined up to the
names of the new vertices. This is proved here once, for parts over any indices (`Gluing.Makes.exists_isomorphism`),
and is what comparisons of two ways to rewrite rest on.
-/

namespace GraphGrammar

/-! ## Isomorphisms -/

/-- A bijection between the vertices of two graphs that keeps labels, edges, and where there are none. -/
structure Graph.IsIsomorphism (f : VertexId → VertexId) (g g' : Graph) : Prop where
  bijOn : Set.BijOn f {x | g.contains x = true} {x | g'.contains x = true}
  label? : ∀ x, g.contains x = true → g'.label? (f x) = g.label? x
  hasEdge : ∀ x y, g.contains x = true → g.contains y = true → g'.hasEdge (f x) (f y) = g.hasEdge x y

/-- The graphs have one table of vertices and the same edges, in whatever order these were added. -/
structure Graph.SameContent (g g' : Graph) : Prop where
  stored : g.stored = g'.stored
  hasEdge : ∀ x y, g.hasEdge x y = g'.hasEdge x y

/-- The function keeps labels and edges. -/
structure Graph.IsHomomorphism (f : VertexId → VertexId) (g g' : Graph) : Prop where
  label? : ∀ x l, g.label? x = some l → g'.label? (f x) = some l
  hasEdge : ∀ x y, g.hasEdge x y = true → g'.hasEdge (f x) (f y) = true

namespace Graph

variable {g g' : Graph} {f f' : VertexId → VertexId}

theorem IsHomomorphism.contains (h : IsHomomorphism f g g') {x : VertexId} (hx : g.contains x = true) :
    g'.contains (f x) = true := by
  obtain ⟨l, hl⟩ := contains_iff_label?.mp hx
  exact contains_of_label? (h.label? x l hl)

theorem IsHomomorphism.isIsomorphism (h : IsHomomorphism f g g') (h' : IsHomomorphism f' g' g)
    (left : ∀ x, g.contains x = true → f' (f x) = x) (right : ∀ y, g'.contains y = true → f (f' y) = y) :
    IsIsomorphism f g g' := by
  refine ⟨Set.InvOn.bijOn ⟨left, right⟩ (fun x hx => h.contains hx) fun y hy => h'.contains hy, ?_, ?_⟩
  · intro x hx
    obtain ⟨l, hl⟩ := contains_iff_label?.mp hx
    rw [hl, h.label? x l hl]
  · intro x y hx hy
    rw [Bool.eq_iff_iff]
    refine ⟨fun he => ?_, h.hasEdge x y⟩
    have back := h'.hasEdge _ _ he
    rwa [left x hx, left y hy] at back

theorem IsIsomorphism.sameContent (h : IsIsomorphism f g g') (hg : g.WellFormed) (hg' : g'.WellFormed)
    (fixed : ∀ x, g.contains x = true → f x = x) : SameContent g g' := by
  have back : ∀ y, g'.contains y = true → g.contains y = true := by
    intro y hy
    obtain ⟨x, hx, rfl⟩ := h.bijOn.surjOn hy
    rw [fixed x hx]
    exact hx
  have labels : ∀ x, g.label? x = g'.label? x := by
    intro x
    cases hx : g.contains x with
    | true =>
      have hl := h.label? x hx
      rw [fixed x hx] at hl
      exact hl.symm
    | false =>
      have hx' : g'.contains x = false := by
        rw [Bool.eq_false_iff]
        intro hc
        rw [back x hc] at hx
        cases hx
      rw [label?_eq_none_iff.mpr hx, label?_eq_none_iff.mpr hx']
  refine ⟨hg.keyed.stored_eq hg'.keyed labels, fun x y => ?_⟩
  by_cases hxy : g.contains x = true ∧ g.contains y = true
  · have he := h.hasEdge x y hxy.1 hxy.2
    rw [fixed x hxy.1, fixed y hxy.2] at he
    exact he.symm
  · -- An edge has both its ends in either graph.
    have none : ∀ k : Graph, k.WellFormed → (∀ z, k.contains z = true → g.contains z = true) →
        k.hasEdge x y = false := by
      intro k hk sub
      rw [Bool.eq_false_iff, ne_eq, hasEdge_iff]
      intro he
      exact hxy ⟨sub x (hk.contains_source he), sub y (hk.contains_target x y he)⟩
    rw [none g hg fun _ hz => hz, none g' hg' back]

end Graph

/-! ## Gluings -/

/-- A context and a part to be glued to it. -/
@[ext]
structure Gluing (ι : Type) where
  /-- The vertices of the context with their labels. -/
  label : VertexId → Label → Prop
  /-- The edges of the context. -/
  edge : VertexId → VertexId → Prop
  /-- The vertices of the part that are new, with their labels. -/
  new : ι → Label → Prop
  /-- The vertices of the part that are vertices of the context. -/
  shared : ι → VertexId → Prop
  /-- The edges of the part. -/
  partEdge : ι → ι → Prop

namespace Gluing

variable {ι : Type} {G : Gluing ι} {r r' : ι → Option VertexId} {k k' : Graph} {a c : ι} {x y : VertexId} {l : Label}

def Known (G : Gluing ι) (x : VertexId) : Prop := ∃ l, G.label x l

def IsNew (G : Gluing ι) (c : ι) : Prop := ∃ l, G.new c l

/-- The graph is the context with the part glued to it, whose vertices have the names `r`. -/
structure Makes (G : Gluing ι) (r : ι → Option VertexId) (k : Graph) : Prop where
  label? : ∀ x l, k.label? x = some l ↔ G.label x l ∨ ∃ c, G.new c l ∧ r c = some x
  hasEdge : ∀ u v, k.hasEdge u v = true ↔ G.edge u v ∨ ∃ a b, G.partEdge a b ∧ r a = some u ∧ r b = some v
  /-- An edge of the context has its ends there. -/
  known : ∀ u v, G.edge u v → G.Known u ∧ G.Known v
  /-- New vertices have names of their own, which the context does not know. -/
  named : ∀ c, G.IsNew c → ∃ x, r c = some x
  fresh : ∀ c x, G.IsNew c → r c = some x → ¬ G.Known x
  distinct : ∀ c d x, G.IsNew c → G.IsNew d → r c = some x → r d = some x → c = d
  /-- The other vertices of the part go by their names in the context. -/
  shared : ∀ a x, ¬ G.IsNew a → (r a = some x ↔ G.shared a x)
  shared_known : ∀ a x, G.shared a x → G.Known x

/-- The same gluing with the vertices of the part under other indices. -/
def reindex {κ : Type} (G : Gluing ι) (e : κ ≃ ι) : Gluing κ where
  label := G.label
  edge := G.edge
  new c := G.new (e c)
  shared a := G.shared (e a)
  partEdge a b := G.partEdge (e a) (e b)

/-- Some function takes the new vertices from one way to name them to another and moves nothing else. -/
theorem exists_rename (distinct : ∀ c d x, G.IsNew c → G.IsNew d → r c = some x → r d = some x → c = d)
    (named' : ∀ c, G.IsNew c → ∃ y, r' c = some y) :
    ∃ f : VertexId → VertexId, (∀ c x, G.IsNew c → r c = some x → r' c = some (f x)) ∧
      ∀ x, (∀ c, G.IsNew c → r c ≠ some x) → f x = x := by
  have image (x : VertexId) : ∃ y, (∀ c, G.IsNew c → r c = some x → r' c = some y) ∧
      ((∀ c, G.IsNew c → r c ≠ some x) → y = x) := by
    by_cases hx : ∃ c, G.IsNew c ∧ r c = some x
    · obtain ⟨c, hc, hcx⟩ := hx
      obtain ⟨y, hy⟩ := named' c hc
      refine ⟨y, fun d hd hdx => ?_, fun hn => absurd hcx (hn c hc)⟩
      rw [distinct d c x hd hc hdx hcx]
      exact hy
    · exact ⟨x, fun c hc hcx => absurd ⟨c, hc, hcx⟩ hx, fun _ => rfl⟩
  choose f hf using image
  exact ⟨f, fun c x => (hf x).1 c, fun x => (hf x).2⟩

namespace Makes

theorem reindex {κ : Type} (h : G.Makes r k) (e : κ ≃ ι) : (G.reindex e).Makes (fun c => r (e c)) k where
  label? x l := (h.label? x l).trans (or_congr_right e.surjective.exists)
  hasEdge u v := (h.hasEdge u v).trans (or_congr_right (by rw [e.surjective.exists₂]; rfl))
  known := h.known
  named c := h.named (e c)
  fresh c x := h.fresh (e c) x
  distinct c d x hc hd hcx hdx := e.injective (h.distinct (e c) (e d) x hc hd hcx hdx)
  shared a x := h.shared (e a) x
  shared_known a x := h.shared_known (e a) x

theorem fixed {f : VertexId → VertexId} (h : G.Makes r k) (others : ∀ x, (∀ c, G.IsNew c → r c ≠ some x) → f x = x)
    (hx : G.Known x) : f x = x :=
  others x fun c hc hcx => h.fresh c x hc hcx hx

section
variable {f : VertexId → VertexId} (h : G.Makes r k) (h' : G.Makes r' k')
  (news : ∀ c x, G.IsNew c → r c = some x → r' c = some (f x)) (others : ∀ x, G.Known x → f x = x)
include h h' news others

/-- Every vertex of the part is renamed, the shared ones trivially. -/
theorem rename_part (hx : r a = some x) : r' a = some (f x) := by
  by_cases ha : G.IsNew a
  · exact news a x ha hx
  · have hs := (h.shared a x ha).mp hx
    rw [others x (h.shared_known a x hs)]
    exact (h'.shared a x ha).mpr hs

theorem isHomomorphism : Graph.IsHomomorphism f k k' := by
  refine ⟨fun x l hl => ?_, fun x y he => ?_⟩
  · rw [h'.label?]
    rcases (h.label? x l).mp hl with hl | ⟨c, hc, hcx⟩
    · rw [others x ⟨l, hl⟩]
      exact .inl hl
    · exact .inr ⟨c, hc, news c x ⟨l, hc⟩ hcx⟩
  · rw [h'.hasEdge]
    rcases (h.hasEdge x y).mp he with he | ⟨a, b, hab, ha, hb⟩
    · obtain ⟨hx, hy⟩ := h.known x y he
      rw [others x hx, others y hy]
      exact .inl he
    · exact .inr ⟨a, b, hab, h.rename_part h' news others ha, h.rename_part h' news others hb⟩

omit h' in
theorem rename_back {f' : VertexId → VertexId} (news' : ∀ c x, G.IsNew c → r' c = some x → r c = some (f' x))
    (others' : ∀ x, G.Known x → f' x = x) (hx : k.contains x = true) : f' (f x) = x := by
  obtain ⟨l, hl⟩ := Graph.contains_iff_label?.mp hx
  rcases (h.label? x l).mp hl with hl | ⟨c, hc, hcx⟩
  · rw [others x ⟨l, hl⟩, others' x ⟨l, hl⟩]
  · have back := news' c _ ⟨l, hc⟩ (news c x ⟨l, hc⟩ hcx)
    rw [hcx, Option.some.injEq] at back
    exact back.symm

end

/-- Two graphs that are glued together from the same context and the same part are isomorphic: the vertices of the
context stay, and each vertex of the part goes to the one that has the same index. -/
theorem exists_isomorphism (h : G.Makes r k) (h' : G.Makes r' k') :
    ∃ f, Graph.IsIsomorphism f k k' ∧ (∀ x, G.Known x → f x = x) ∧ ∀ a x, r a = some x → r' a = some (f x) := by
  obtain ⟨f, news, others⟩ := exists_rename h.distinct h'.named
  obtain ⟨f', news', others'⟩ := exists_rename h'.distinct h.named
  have fixed (x : VertexId) (hx : G.Known x) : f x = x := h.fixed others hx
  have fixed' (x : VertexId) (hx : G.Known x) : f' x = x := h'.fixed others' hx
  have there := h.isHomomorphism h' news fixed
  have back := h'.isHomomorphism h news' fixed'
  refine ⟨f, there.isIsomorphism back ?_ ?_, fixed, ?_⟩
  · intro x hx
    exact h.rename_back news fixed news' fixed' hx
  · intro y hy
    exact h'.rename_back news' fixed' news fixed hy
  · intro a x hx
    exact h.rename_part h' news fixed hx

end Makes
end Gluing
end GraphGrammar
