import GraphGrammar.Proofs.Gluing
import GraphGrammar.Proofs.Rewrite

/-!
# Independent applications

Two applications in one graph are independent when neither erases what the other one's mapping or kept edges need.
The second is then still possible after the first, and what both make of the graph is a gluing in which neither
comes first: what both leave is the context, and the part is made of both right sides. So the two orders give the
same graph up to the names of the created vertices.
-/

namespace GraphGrammar

/-- Applying `p` at `m` erases no image under `n` of a vertex, of a left edge, or of a right edge between preserved
vertices of `q`. -/
structure Production.Spares (p : Production) (m : Mapping) (q : Production) (n : Mapping) : Prop where
  vertex : ∀ a x, n.get? a = some x → ¬ p.Erases m x
  leftEdge : ∀ a b u v, q.lhs.hasEdge a b = true → n.get? a = some u → n.get? b = some v → ¬ p.ErasesEdge m u v
  rightEdge : ∀ a b u v, q.rhs.hasEdge a b = true → q.Carries n a u → q.Carries n b v → ¬ p.ErasesEdge m u v

variable {p₁ p₂ : Production} {m₁ m₂ r₁ r₂ : Mapping} {g g₁ g₂ k : Graph} {a b c d u v x : VertexId} {l : Label}

theorem Production.spares_iff : p₁.Spares m₁ p₂ m₂ ↔
    (∀ e ∈ m₂.toList, ¬ p₁.Erases m₁ e.2) ∧
      (∀ e ∈ p₂.lhs.edges.filterMap m₂.edgeImage?, ¬ p₁.ErasesEdge m₁ e.1 e.2) ∧
      ∀ e ∈ p₂.sharedEdges.filterMap m₂.edgeImage?, ¬ p₁.ErasesEdge m₁ e.1 e.2 := by
  refine ⟨fun h => ⟨?_, ?_, ?_⟩, fun h => ⟨?_, ?_, ?_⟩⟩
  · intro e he
    exact h.vertex e.1 e.2 (Mapping.mem_toList.mp he)
  · intro e he
    obtain ⟨a, b, hab, ha, hb⟩ := mem_images.mp he
    exact h.leftEdge a b e.1 e.2 hab ha hb
  · intro e he
    obtain ⟨a, b, hab, ha, hb⟩ := Mapping.mem_edgeImages.mp he
    obtain ⟨hab, ⟨hla, hra⟩, hlb, hrb⟩ := mem_sharedEdges.mp hab
    exact h.rightEdge a b e.1 e.2 hab ⟨hla, hra, ha⟩ ⟨hlb, hrb, hb⟩
  · intro a x hx
    exact h.1 (a, x) (Mapping.mem_toList.mpr hx)
  · intro a b u v hab ha hb
    exact h.2.1 (u, v) (mem_images.mpr ⟨a, b, hab, ha, hb⟩)
  · intro a b u v hab ha hb
    obtain ⟨hla, hra, ha⟩ := ha
    obtain ⟨hlb, hrb, hb⟩ := hb
    have shared := mem_sharedEdges.mpr ⟨hab, ⟨hla, hra⟩, hlb, hrb⟩
    exact h.2.2 (u, v) (Mapping.mem_edgeImages.mpr ⟨a, b, shared, ha, hb⟩)

instance : Decidable (p₁.Spares m₁ p₂ m₂) := decidable_of_iff _ Production.spares_iff.symm

theorem Production.Spares.isEmbedding (spares : p₁.Spares m₁ p₂ m₂) (h₁ : Rewrites p₁ m₁ g g₁ r₁)
    (hm₂ : IsEmbedding p₂.lhs g m₂) : IsEmbedding p₂.lhs g₁ m₂ := by
  refine ⟨hm₂.domain, hm₂.injective, fun x z hz => ?_, fun x y hxy => ?_⟩
  · rw [h₁.label?_of_stays (hm₂.contains_image hz) (spares.vertex x z hz)]
    exact hm₂.label x z hz
  · obtain ⟨u, v, hu, hv, he⟩ := hm₂.edge x y hxy
    refine ⟨u, v, hu, hv, h₁.edge_iff.mpr (.inr ⟨he, ?_⟩)⟩
    exact ⟨spares.vertex x u hu, spares.vertex y v hv, spares.leftEdge x y u v hxy hu hv⟩

/-! ## Both applications as one gluing -/

/-- What both applications leave of the graph, and both right sides. -/
def bothGluing (p₁ : Production) (m₁ : Mapping) (p₂ : Production) (m₂ : Mapping) (g : Graph) :
    Gluing (VertexId ⊕ VertexId) where
  label x l := g.label? x = some l ∧ ¬ p₁.Erases m₁ x ∧ ¬ p₂.Erases m₂ x
  edge u v := g.hasEdge u v = true ∧ p₁.Leaves m₁ u v ∧ p₂.Leaves m₂ u v
  new := Sum.elim p₁.Creates p₂.Creates
  shared := Sum.elim (p₁.Carries m₁) (p₂.Carries m₂)
  partEdge := Sum.LiftRel (fun a b => p₁.rhs.hasEdge a b = true) fun a b => p₂.rhs.hasEdge a b = true

theorem bothGluing_swap :
    (bothGluing p₂ m₂ p₁ m₁ g).reindex (Equiv.sumComm VertexId VertexId) = bothGluing p₁ m₁ p₂ m₂ g := by
  ext1
  · funext x l
    exact propext (and_congr_right' and_comm)
  · funext u v
    exact propext (and_congr_right' and_comm)
  · funext c l
    cases c <;> rfl
  · funext a x
    cases a <;> rfl
  · funext a b
    exact propext Sum.liftRel_swap_iff

/-- Two applications that spare each other, the second in what the first makes of the graph. -/
structure InTurn (p₁ : Production) (m₁ : Mapping) (p₂ : Production) (m₂ : Mapping) (g g₁ g₂ : Graph)
    (r₁ r₂ : Mapping) : Prop where
  embedding₁ : IsEmbedding p₁.lhs g m₁
  embedding₂ : IsEmbedding p₂.lhs g m₂
  spares₁ : p₁.Spares m₁ p₂ m₂
  spares₂ : p₂.Spares m₂ p₁ m₁
  first : Rewrites p₁ m₁ g g₁ r₁
  second : Rewrites p₂ m₂ g₁ g₂ r₂

namespace InTurn

theorem ne_image_of_created (h : InTurn p₁ m₁ p₂ m₂ g g₁ g₂ r₁ r₂) (hc : p₁.lhs.contains c = false)
    (hx : r₁.get? c = some x) : m₂.get? d ≠ some x :=
  fun hd => h.first.not_stays hc hx ⟨h.embedding₂.contains_image hd, h.spares₁.vertex d x hd⟩

theorem not_erases_image (h : InTurn p₁ m₁ p₂ m₂ g g₁ g₂ r₁ r₂) (hx : r₁.get? a = some x) :
    ¬ p₂.Erases m₂ x := by
  cases ha : p₁.lhs.contains a with
  | true => exact h.spares₂.vertex a x (h.first.carries ha hx).2.2
  | false =>
    intro herased
    obtain ⟨d, -, -, hd⟩ := herased
    exact h.ne_image_of_created ha hx hd

theorem leaves_image (h : InTurn p₁ m₁ p₂ m₂ g g₁ g₂ r₁ r₂) (hab : p₁.rhs.hasEdge a b = true)
    (ha : r₁.get? a = some u) (hb : r₁.get? b = some v) : p₂.Leaves m₂ u v := by
  refine ⟨h.not_erases_image ha, h.not_erases_image hb, ?_⟩
  intro herased
  obtain ⟨c, d, hcd, hcd', hc, hd⟩ := herased
  -- An end that is created is no image of the second left side, and between others the edge is spared.
  have carried {z y e : VertexId} (hz : r₁.get? z = some y) (he : m₂.get? e = some y) : p₁.Carries m₁ z y := by
    cases hl : p₁.lhs.contains z with
    | true => exact h.first.carries hl hz
    | false => exact absurd he (h.ne_image_of_created hl hz)
  exact h.spares₂.rightEdge a b u v hab (carried ha hc) (carried hb hd) ⟨c, d, hcd, hcd', hc, hd⟩

/-- The names that the second application gives are no names of the first right side. -/
theorem apart (h : InTurn p₁ m₁ p₂ m₂ g g₁ g₂ r₁ r₂) (hd : p₂.lhs.contains d = false) (hc : r₁.get? c = some x) :
    r₂.get? d ≠ some x := by
  intro hx
  have taken := h.first.contains_image h.embedding₁ hc
  exact h.second.not_stays hd hx ⟨taken, h.not_erases_image hc⟩

theorem label?_iff (h : InTurn p₁ m₁ p₂ m₂ g g₁ g₂ r₁ r₂) : g₂.label? x = some l ↔
    (g.label? x = some l ∧ ¬ p₁.Erases m₁ x ∧ ¬ p₂.Erases m₂ x) ∨ (∃ c, p₁.Creates c l ∧ r₁.get? c = some x) ∨
      ∃ c, p₂.Creates c l ∧ r₂.get? c = some x := by
  have first : (∃ c, p₁.Creates c l ∧ r₁.get? c = some x) → ¬ p₂.Erases m₂ x := by
    intro himage
    obtain ⟨c, -, hx⟩ := himage
    exact h.not_erases_image hx
  rw [h.second.label?_iff, h.first.label?_iff, or_and_right, and_iff_left_of_imp first, and_assoc, or_assoc]

theorem edge_iff (h : InTurn p₁ m₁ p₂ m₂ g g₁ g₂ r₁ r₂) : g₂.hasEdge u v = true ↔
    (g.hasEdge u v = true ∧ p₁.Leaves m₁ u v ∧ p₂.Leaves m₂ u v) ∨
      (∃ a b, p₁.rhs.hasEdge a b = true ∧ r₁.get? a = some u ∧ r₁.get? b = some v) ∨
      ∃ a b, p₂.rhs.hasEdge a b = true ∧ r₂.get? a = some u ∧ r₂.get? b = some v := by
  have first : (∃ a b, p₁.rhs.hasEdge a b = true ∧ r₁.get? a = some u ∧ r₁.get? b = some v) →
      p₂.Leaves m₂ u v := by
    intro himage
    obtain ⟨a, b, hab, ha, hb⟩ := himage
    exact h.leaves_image hab ha hb
  rw [h.second.edge_iff, h.first.edge_iff, or_and_right, and_iff_left_of_imp first, and_assoc]
  exact or_rotate.trans or_left_comm

theorem makes (h : InTurn p₁ m₁ p₂ m₂ g g₁ g₂ r₁ r₂) (hg : g.WellFormed) :
    (bothGluing p₁ m₁ p₂ m₂ g).Makes (Sum.elim r₁.get? r₂.get?) g₂ where
  label? x l := by
    rw [h.label?_iff, Sum.exists]
    rfl
  hasEdge u v := by
    rw [h.edge_iff]
    simp [bothGluing, Sum.exists]
  known u v he := by
    obtain ⟨he, ⟨hu₁, hv₁, -⟩, hu₂, hv₂, -⟩ := he
    obtain ⟨⟨l, hl⟩, l', hl'⟩ := hg.exists_labels he
    exact ⟨⟨l, hl, hu₁, hu₂⟩, l', hl', hv₁, hv₂⟩
  named c hc := by
    rcases c with c | c
    · obtain ⟨l, -, hl⟩ := hc
      exact h.first.exists_image (Graph.contains_of_label? hl)
    · obtain ⟨l, -, hl⟩ := hc
      exact h.second.exists_image (Graph.contains_of_label? hl)
  fresh c x hc hcx hx := by
    -- A name that the context knows is that of a vertex that stays in both applications.
    obtain ⟨l, hl, hn₁, hn₂⟩ := hx
    have hg := Graph.contains_of_label? hl
    rcases c with c | c
    · obtain ⟨-, hc, -⟩ := hc
      exact h.first.not_stays hc hcx ⟨hg, hn₁⟩
    · obtain ⟨-, hc, -⟩ := hc
      exact h.second.not_stays hc hcx ⟨h.first.contains_of_stays hg hn₁, hn₂⟩
  distinct c d x hc hd hcx hdx := by
    rcases c with c | c <;> rcases d with d | d
    · exact congrArg Sum.inl (h.first.injective c d x hcx hdx)
    · obtain ⟨-, hd, -⟩ := hd
      exact absurd hdx (h.apart hd hcx)
    · obtain ⟨-, hc, -⟩ := hc
      exact absurd hcx (h.apart hc hdx)
    · exact congrArg Sum.inr (h.second.injective c d x hcx hdx)
  shared a x ha := by
    rcases a with a | a
    · exact h.first.get?_iff_carries ha
    · exact h.second.get?_iff_carries ha
  shared_known a x hx := by
    rcases a with a | a
    · obtain ⟨l, hl, hn⟩ := hx.exists_label h.embedding₁
      exact ⟨l, hl, hn, h.spares₂.vertex a x hx.2.2⟩
    · obtain ⟨l, hl, hn⟩ := hx.exists_label h.embedding₂
      exact ⟨l, hl, h.spares₁.vertex a x hx.2.2, hn⟩

end InTurn

namespace Production

theorem apply_in_turn (hg : g.WellFormed) (hp₁ : p₁.Keyed) (hp₂ : p₂.Keyed)
    (hm₁ : p₁.validate g m₁ = .ok ()) (hm₂ : p₂.validate g m₂ = .ok ())
    (spares₁ : p₁.Spares m₁ p₂ m₂) (spares₂ : p₂.Spares m₂ p₁ m₁)
    (room : g.nextFresh.toNat + 2 * (g.vertexCount + p₁.created.length + p₂.created.length) < UInt64.size - 1) :
    ∃ g₁ s₁ g₂ s₂, p₁.apply m₁ g = some (g₁, .ok s₁) ∧ p₂.apply m₂ g₁ = some (g₂, .ok s₂) ∧ g₂.WellFormed ∧
      InTurn p₁ m₁ p₂ m₂ g g₁ g₂ s₁.rhsMapping s₂.rhsMapping := by
  obtain ⟨g₁, s₁, happly₁, h₁, hg₁, left⟩ := exists_apply hg hp₁ hm₁ (by omega)
  have embedding₁ := (validate_iff hp₁.lhs).mp hm₁
  have embedding₂ := (validate_iff hp₂.lhs).mp hm₂
  have hm₂' := (validate_iff hp₂.lhs).mpr (spares₁.isEmbedding h₁ embedding₂)
  obtain ⟨g₂, s₂, happly₂, h₂, hg₂, -⟩ := exists_apply hg₁ hp₂ hm₂' (by omega)
  exact ⟨g₁, s₁, g₂, s₂, happly₁, happly₂, hg₂, embedding₁, embedding₂, spares₁, spares₂, h₁, h₂⟩

/-- Applications that spare what the other one needs can be made in either order. The two results are the same up
to the names of the created vertices, and are the same when none is created. -/
theorem apply_commutes (hg : g.WellFormed) (hp₁ : p₁.Keyed) (hp₂ : p₂.Keyed)
    (hm₁ : p₁.validate g m₁ = .ok ()) (hm₂ : p₂.validate g m₂ = .ok ())
    (spares₁ : p₁.Spares m₁ p₂ m₂) (spares₂ : p₂.Spares m₂ p₁ m₁)
    (room : g.nextFresh.toNat + 2 * (g.vertexCount + p₁.created.length + p₂.created.length) < UInt64.size - 1) :
    ∃ g₁ s₁ g₁₂ s₁₂ g₂ s₂ g₂₁ s₂₁,
      p₁.apply m₁ g = some (g₁, .ok s₁) ∧ p₂.apply m₂ g₁ = some (g₁₂, .ok s₁₂) ∧
      p₂.apply m₂ g = some (g₂, .ok s₂) ∧ p₁.apply m₁ g₂ = some (g₂₁, .ok s₂₁) ∧
      (∃ f, Graph.IsIsomorphism f g₁₂ g₂₁ ∧
        (∀ x, g.contains x = true → ¬ p₁.Erases m₁ x → ¬ p₂.Erases m₂ x → f x = x) ∧
        (∀ c, p₁.rhs.contains c = true →
          ∃ x, s₁.rhsMapping.get? c = some x ∧ s₂₁.rhsMapping.get? c = some (f x)) ∧
        ∀ c, p₂.rhs.contains c = true →
          ∃ x, s₁₂.rhsMapping.get? c = some x ∧ s₂.rhsMapping.get? c = some (f x)) ∧
      (p₁.created = [] → p₂.created = [] → Graph.SameContent g₁₂ g₂₁) := by
  obtain ⟨g₁, s₁, g₁₂, s₁₂, happly₁, happly₁₂, hg₁₂, h₁₂⟩ := apply_in_turn hg hp₁ hp₂ hm₁ hm₂ spares₁ spares₂ room
  obtain ⟨g₂, s₂, g₂₁, s₂₁, happly₂, happly₂₁, hg₂₁, h₂₁⟩ := apply_in_turn hg hp₂ hp₁ hm₂ hm₁ spares₂ spares₁
    (by omega)
  refine ⟨g₁, s₁, g₁₂, s₁₂, g₂, s₂, g₂₁, s₂₁, happly₁, happly₁₂, happly₂, happly₂₁, ?_⟩
  -- Both orders make one gluing, the second with the sides of the part exchanged.
  have makes₁₂ := h₁₂.makes hg
  have makes₂₁ := (h₂₁.makes hg).reindex (Equiv.sumComm VertexId VertexId)
  rw [bothGluing_swap] at makes₂₁
  obtain ⟨f, iso, known, image⟩ := makes₁₂.exists_isomorphism makes₂₁
  have stays (x : VertexId) (hx : g.contains x = true) (hn₁ : ¬ p₁.Erases m₁ x) (hn₂ : ¬ p₂.Erases m₂ x) :
      f x = x := by
    obtain ⟨l, hl⟩ := Graph.contains_iff_label?.mp hx
    exact known x ⟨l, hl, hn₁, hn₂⟩
  refine ⟨⟨f, iso, stays, fun c hc => ?_, fun c hc => ?_⟩, fun none₁ none₂ => ?_⟩
  · obtain ⟨x, hx⟩ := h₁₂.first.exists_image hc
    exact ⟨x, hx, image (.inl c) x hx⟩
  · obtain ⟨x, hx⟩ := h₁₂.second.exists_image hc
    exact ⟨x, hx, image (.inr c) x hx⟩
  · refine iso.sameContent hg₁₂ hg₂₁ fun x hx => ?_
    obtain ⟨l, hl⟩ := Graph.contains_iff_label?.mp hx
    rcases h₁₂.label?_iff.mp hl with ⟨hl, hn₁, hn₂⟩ | ⟨c, hc, -⟩ | ⟨c, hc, -⟩
    · exact known x ⟨l, hl, hn₁, hn₂⟩
    · exact absurd hc (not_creates hp₁ none₁)
    · exact absurd hc (not_creates hp₂ none₂)

section
/-- A path along three vertices. Their names are the first fresh ones. -/
def chain : Graph :=
  let b : Vertex := ⟨⟨"v1"⟩, ⟨"B"⟩⟩
  ((Graph.empty.addEdge ⟨⟨"v0"⟩, ⟨"A"⟩⟩ b).1.addEdge b ⟨⟨"v2"⟩, ⟨"C"⟩⟩).1

def replaceStart : Production where
  lhs := (Graph.empty.addEdge ⟨⟨"x"⟩, ⟨"A"⟩⟩ ⟨⟨"y"⟩, ⟨"B"⟩⟩).1
  rhs := (Graph.empty.addEdge ⟨⟨"z"⟩, ⟨"D"⟩⟩ ⟨⟨"y"⟩, ⟨"B"⟩⟩).1

def replaceEnd : Production where
  lhs := (Graph.empty.addEdge ⟨⟨"x"⟩, ⟨"B"⟩⟩ ⟨⟨"y"⟩, ⟨"C"⟩⟩).1
  rhs := (Graph.empty.addEdge ⟨⟨"x"⟩, ⟨"B"⟩⟩ ⟨⟨"z"⟩, ⟨"E"⟩⟩).1

def startOfChain : Mapping := .ofList [(⟨"x"⟩, ⟨"v0"⟩), (⟨"y"⟩, ⟨"v1"⟩)]

def endOfChain : Mapping := .ofList [(⟨"x"⟩, ⟨"v1"⟩), (⟨"y"⟩, ⟨"v2"⟩)]

/-- The vertex in the place of the first one takes over its name when it is made first, and has to take another one
when the counter has moved on. -/
theorem apply_commutes_chain :
    chain.WellFormed ∧ replaceStart.Keyed ∧ replaceEnd.Keyed ∧ replaceStart.validate chain startOfChain = .ok () ∧
      replaceEnd.validate chain endOfChain = .ok () ∧ replaceStart.Spares startOfChain replaceEnd endOfChain ∧
      replaceEnd.Spares endOfChain replaceStart startOfChain ∧ ∃ g₁ s₁ g₁₂ s₁₂ g₂ s₂ g₂₁ s₂₁ f,
      replaceStart.apply startOfChain chain = some (g₁, .ok s₁) ∧
      replaceEnd.apply endOfChain g₁ = some (g₁₂, .ok s₁₂) ∧
      replaceEnd.apply endOfChain chain = some (g₂, .ok s₂) ∧
      replaceStart.apply startOfChain g₂ = some (g₂₁, .ok s₂₁) ∧
      Graph.IsIsomorphism f g₁₂ g₂₁ ∧ f ⟨"v0"⟩ = ⟨"v3"⟩ ∧ f ⟨"v1"⟩ = ⟨"v1"⟩ ∧ f ⟨"v2"⟩ = ⟨"v2"⟩ := by
  have hg : chain.WellFormed := (Graph.WellFormed.empty.addEdge _ _).addEdge _ _
  have hp₁ : replaceStart.Keyed :=
    ⟨(Graph.WellFormed.empty.addEdge _ _).keyed, (Graph.WellFormed.empty.addEdge _ _).keyed⟩
  have hp₂ : replaceEnd.Keyed :=
    ⟨(Graph.WellFormed.empty.addEdge _ _).keyed, (Graph.WellFormed.empty.addEdge _ _).keyed⟩
  have hm₁ : replaceStart.validate chain startOfChain = .ok () := by decide +kernel
  have hm₂ : replaceEnd.validate chain endOfChain = .ok () := by decide +kernel
  have spares₁ : replaceStart.Spares startOfChain replaceEnd endOfChain := by decide +kernel
  have spares₂ : replaceEnd.Spares endOfChain replaceStart startOfChain := by decide +kernel
  obtain ⟨g₁, s₁, g₁₂, s₁₂, g₂, s₂, g₂₁, s₂₁, happly₁, happly₁₂, happly₂, happly₂₁, hiso, -⟩ :=
    apply_commutes hg hp₁ hp₂ hm₁ hm₂ spares₁ spares₂ (by decide +kernel)
  obtain ⟨f, iso, stays, start, last⟩ := hiso
  refine ⟨hg, hp₁, hp₂, hm₁, hm₂, spares₁, spares₂, g₁, s₁, g₁₂, s₁₂, g₂, s₂, g₂₁, s₂₁, f, happly₁, happly₁₂,
    happly₂, happly₂₁, iso, ?_⟩
  -- The images of the created vertices in the two runs.
  have run : (do
      let r₁ ← replaceStart.commit startOfChain chain
      let r₁₂ ← replaceEnd.commit endOfChain r₁.1
      let r₂ ← replaceEnd.commit endOfChain chain
      let r₂₁ ← replaceStart.commit startOfChain r₂.1
      return [r₁.2, r₁₂.2, r₂.2, r₂₁.2].map (·.rhsMapping.get? ⟨"z"⟩)) =
        some [some ⟨"v0"⟩, some ⟨"v2"⟩, some ⟨"v2"⟩, some ⟨"v3"⟩] := by
    decide +kernel
  simp only [(apply_eq_ok.mp happly₁).2, (apply_eq_ok.mp happly₁₂).2, (apply_eq_ok.mp happly₂).2,
    (apply_eq_ok.mp happly₂₁).2, Option.bind_eq_bind, Option.bind_some, Option.pure_def, Option.some.injEq,
    List.map_cons, List.map_nil, List.cons.injEq, and_true] at run
  obtain ⟨z₁, z₁₂, z₂, z₂₁⟩ := run
  refine ⟨?_, stays _ (by decide +kernel) (by decide +kernel) (by decide +kernel), ?_⟩
  · obtain ⟨x, hx, hfx⟩ := start ⟨"z"⟩ (by decide +kernel)
    obtain rfl : ⟨"v0"⟩ = x := Option.some.inj (z₁.symm.trans hx)
    exact Option.some.inj (hfx.symm.trans z₂₁)
  · obtain ⟨x, hx, hfx⟩ := last ⟨"z"⟩ (by decide +kernel)
    obtain rfl : ⟨"v2"⟩ = x := Option.some.inj (z₁₂.symm.trans hx)
    exact Option.some.inj (hfx.symm.trans z₂)

end

end Production
end GraphGrammar
