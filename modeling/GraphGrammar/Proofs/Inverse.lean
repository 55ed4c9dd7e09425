import GraphGrammar.Proofs.Gluing
import GraphGrammar.Proofs.Rewrite

/-!
# Undoing an application

The inverse of a production has its sides exchanged. The mapping that an application leaves behind is accepted for
the inverse, provided that the sides agree about the labels of the preserved vertices. Applying the inverse there
gives the graph back when nothing got lost that the left side does not tell, and nothing was there before that the
right side adds: then the graph before and the graph after both are the left side glued to the same context.
-/

namespace GraphGrammar

def Production.inverse (p : Production) : Production := { p with lhs := p.rhs, rhs := p.lhs }

/-- The left side tells every edge at an erased vertex, and no edge that the right side adds between preserved
vertices is there yet. -/
structure Production.Reversible (p : Production) (m : Mapping) (g : Graph) : Prop where
  told : ∀ u v, g.hasEdge u v = true → p.Erases m u ∨ p.Erases m v →
    ∃ a b, p.lhs.hasEdge a b = true ∧ m.get? a = some u ∧ m.get? b = some v
  added : ∀ a b u v, p.rhs.hasEdge a b = true → p.lhs.hasEdge a b = false → p.Carries m a u → p.Carries m b v →
    g.hasEdge u v = false

namespace Production

variable {p : Production} {m : Mapping} {g : Graph} {x : VertexId} {l l' : Label}

theorem reversible_iff : p.Reversible m g ↔
    (∀ e ∈ g.edges, p.Erases m e.1 ∨ p.Erases m e.2 → (p.lhs.edges.filterMap m.edgeImage?).contains e) ∧
      ∀ e ∈ (p.sharedEdges.filter fun e => !p.lhs.hasEdge e.1 e.2).filterMap m.edgeImage?,
        g.hasEdge e.1 e.2 = false := by
  refine ⟨fun h => ⟨?_, ?_⟩, fun h => ⟨?_, ?_⟩⟩
  · intro e he herased
    rw [List.contains_iff_mem]
    exact mem_images.mpr (h.told e.1 e.2 (Graph.hasEdge_iff.mpr (Graph.mem_edges.mp he)) herased)
  · intro e he
    obtain ⟨a, b, hab, ha, hb⟩ := Mapping.mem_edgeImages.mp he
    rw [List.mem_filter, Bool.not_eq_true'] at hab
    obtain ⟨hr, ⟨hla, hra⟩, hlb, hrb⟩ := mem_sharedEdges.mp hab.1
    exact h.added a b e.1 e.2 hr hab.2 ⟨hla, hra, ha⟩ ⟨hlb, hrb, hb⟩
  · intro u v he herased
    have listed := h.1 (u, v) (Graph.mem_edges.mpr (Graph.hasEdge_iff.mp he)) herased
    exact mem_images.mp (List.contains_iff_mem.mp listed)
  · intro a b u v hr hl ha hb
    obtain ⟨hla, hra, ha⟩ := ha
    obtain ⟨hlb, hrb, hb⟩ := hb
    have shared := mem_sharedEdges.mpr ⟨hr, ⟨hla, hra⟩, hlb, hrb⟩
    have new : (a, b) ∈ p.sharedEdges.filter fun e => !p.lhs.hasEdge e.1 e.2 :=
      List.mem_filter.mpr ⟨shared, (Bool.not_eq_true' _).mpr hl⟩
    exact h.2 (u, v) (Mapping.mem_edgeImages.mpr ⟨a, b, new, ha, hb⟩)

instance : Decidable (p.Reversible m g) := decidable_of_iff _ reversible_iff.symm

theorem label_eq_of_relabelled (hp : p.lhs.Keyed) (same : p.relabelled = []) (hl : p.lhs.label? x = some l)
    (hr : p.rhs.label? x = some l') : l = l' := by
  rw [relabelled, List.map_eq_nil_iff, List.filter_eq_nil_iff] at same
  have h := same ⟨x, l⟩ (hp.mem_vertices.mpr hl)
  obtain ⟨w, hw, rfl⟩ := Option.map_eq_some_iff.mp hr
  simp only [hw, Option.any_some, Vertex.sameLabel, Bool.not_eq_true', Bool.not_eq_false, decide_eq_true_eq] at h
  exact h.symm

theorem length_created_inverse (hp : p.lhs.Keyed) : p.inverse.created.length = p.deleted.length := by
  rw [created, deleted, ← hp.map_id_vertices, List.filter_map, List.length_map]
  rfl

end Production

/-! ## Both graphs as gluings of the left side -/

/-- What the left side does not tell of the graph, and the left side. -/
def leftGluing (p : Production) (m : Mapping) (g : Graph) : Gluing VertexId where
  label x l := g.label? x = some l ∧ ¬ p.Erases m x
  edge u v := g.hasEdge u v = true ∧ ¬ p.Erases m u ∧ ¬ p.Erases m v ∧
    ¬ ∃ a b, p.lhs.hasEdge a b = true ∧ m.get? a = some u ∧ m.get? b = some v
  new := p.inverse.Creates
  shared := p.Carries m
  partEdge a b := p.lhs.hasEdge a b = true

variable {p : Production} {m r s : Mapping} {g g' k : Graph} {a x u v : VertexId} {l : Label}

theorem Graph.WellFormed.leftGluing_known (hg : g.WellFormed) (he : (leftGluing p m g).edge u v) :
    (leftGluing p m g).Known u ∧ (leftGluing p m g).Known v := by
  obtain ⟨he, hu, hv, -⟩ := he
  obtain ⟨⟨l, hl⟩, l', hl'⟩ := hg.exists_labels he
  exact ⟨⟨l, hl, hu⟩, l', hl', hv⟩

/-- The graph before is glued together where the left side is found. -/
theorem IsEmbedding.makes (hm : IsEmbedding p.lhs g m) (hg : g.WellFormed) (rev : p.Reversible m g) :
    (leftGluing p m g).Makes m.get? g where
  label? x l := by
    refine ⟨?_, ?_⟩
    · intro hl
      by_cases herased : p.Erases m x
      · obtain ⟨d, hd, hr, hdx⟩ := herased
        exact .inr ⟨d, ⟨hr, (hm.label d x hdx).symm.trans hl⟩, hdx⟩
      · exact .inl ⟨hl, herased⟩
    · intro h
      rcases h with ⟨hl, -⟩ | ⟨d, ⟨-, hl⟩, hdx⟩
      · exact hl
      · exact (hm.label d x hdx).trans hl
  hasEdge u v := by
    refine ⟨?_, ?_⟩
    · -- What is no image of a left edge is at no erased vertex.
      intro he
      by_cases himage : ∃ a b, p.lhs.hasEdge a b = true ∧ m.get? a = some u ∧ m.get? b = some v
      · exact .inr himage
      · have hn := not_or.mp fun herased => himage (rev.told u v he herased)
        exact .inl ⟨he, hn.1, hn.2, himage⟩
    · intro h
      rcases h with ⟨he, -⟩ | ⟨a, b, hab, ha, hb⟩
      · exact he
      · exact Graph.hasEdge_iff.mpr (hm.mem_successors_image ha hb (Graph.hasEdge_iff.mp hab))
  known u v := hg.leftGluing_known
  named d hd := by
    obtain ⟨l, -, hl⟩ := hd
    exact hm.exists_image (Graph.contains_of_label? hl)
  fresh d x hd hdx hx := by
    obtain ⟨l, hr, -⟩ := hd
    obtain ⟨_, -, hn⟩ := hx
    exact hn ⟨d, hm.contains_of_image hdx, hr, hdx⟩
  distinct c d x _ _ := hm.injective c d x
  shared a x ha := by
    refine ⟨?_, fun hc => hc.2.2⟩
    intro hx
    have hl := hm.contains_of_image hx
    refine ⟨hl, ?_, hx⟩
    rw [← Bool.not_eq_false]
    intro hr
    obtain ⟨l, hlabel⟩ := Graph.contains_iff_label?.mp hl
    exact ha ⟨l, hr, hlabel⟩
  shared_known a x hx := hx.exists_label hm

namespace Rewrites

theorem isEmbedding_rhs (h : Rewrites p m g g' r) (hm : IsEmbedding p.lhs g m) (hrhs : p.rhs.WellFormed)
    (hlhs : p.lhs.Keyed) (same : p.relabelled = []) : IsEmbedding p.rhs g' r := by
  refine ⟨h.domain, h.injective, fun a x hx => ?_, fun a b hab => ?_⟩
  · obtain ⟨l, hl⟩ := h.exists_label hx
    rw [hl]
    cases ha : p.lhs.contains a with
    | true =>
      have hc := h.carries ha hx
      obtain ⟨hg, hn⟩ := hc.stays hm
      obtain ⟨l', hl'⟩ := Graph.contains_iff_label?.mp ha
      rw [h.label?_of_stays hg hn, hm.label a x hc.2.2, hl', Production.label_eq_of_relabelled hlhs same hl' hl]
    | false => exact (h.label? x l).mpr (.inr ⟨a, ha, hl, hx⟩)
  · have hab' := Graph.hasEdge_iff.mp hab
    obtain ⟨u, hu⟩ := h.exists_image (hrhs.contains_source hab')
    obtain ⟨v, hv⟩ := h.exists_image (hrhs.contains_target a b hab')
    exact ⟨u, v, hu, hv, h.edge_iff.mpr (.inl ⟨a, b, hab, hu, hv⟩)⟩

theorem not_erases_inverse (h : Rewrites p m g g' r) (hx : g.contains x = true) (hn : ¬ p.Erases m x) :
    ¬ p.inverse.Erases r x := by
  intro herased
  obtain ⟨c, -, hc, hcx⟩ := herased
  exact h.not_stays hc hcx ⟨hx, hn⟩

theorem carries_of_not_erases_inverse (h : Rewrites p m g g' r) (hx : r.get? a = some x)
    (hn : ¬ p.inverse.Erases r x) : p.Carries m a x := by
  cases ha : p.lhs.contains a with
  | true => exact h.carries ha hx
  | false => exact absurd ⟨a, (h.domain a).mp (Mapping.contains_iff_get?.mpr ⟨x, hx⟩), ha, hx⟩ hn

theorem carries_inverse (h : Rewrites p m g g' r) : p.inverse.Carries r a x ↔ p.Carries m a x := by
  refine ⟨?_, ?_⟩
  · intro hc
    obtain ⟨-, ha, hx⟩ := hc
    exact h.carries ha hx
  · intro hc
    exact ⟨hc.2.1, hc.1, h.get?_of_carries hc⟩

/-- The vertices that are left after both applications are those that the first one leaves. -/
theorem label?_inverse (h : Rewrites p m g g' r) :
    g'.label? x = some l ∧ ¬ p.inverse.Erases r x ↔ g.label? x = some l ∧ ¬ p.Erases m x := by
  rw [h.label?_iff]
  refine ⟨?_, ?_⟩
  · intro hx
    obtain ⟨hold | ⟨c, hc, hcx⟩, hn⟩ := hx
    · exact hold
    · have ha := (h.carries_of_not_erases_inverse hcx hn).1
      rw [hc.1] at ha
      cases ha
  · intro hx
    exact ⟨.inl hx, h.not_erases_inverse (Graph.contains_of_label? hx.1) hx.2⟩

/-- The edges that the inverse leaves are those that were there before and that the left side does not tell, and
images of left edges. -/
theorem edge_of_leaves_inverse (h : Rewrites p m g g' r) (hm : IsEmbedding p.lhs g m)
    (he : g'.hasEdge u v = true) (hl : p.inverse.Leaves r u v) : (leftGluing p m g).edge u v ∨
      ∃ a b, p.lhs.hasEdge a b = true ∧ p.Carries m a u ∧ p.Carries m b v := by
  obtain ⟨hu, hv, hnew⟩ := hl
  rcases h.edge_iff.mp he with ⟨a, b, hab, ha, hb⟩ | ⟨he, hn⟩
  · -- The image of a right edge is left only if it is one of a left edge too.
    refine .inr ⟨a, b, ?_, h.carries_of_not_erases_inverse ha hu, h.carries_of_not_erases_inverse hb hv⟩
    rw [← Bool.not_eq_false]
    intro hlhs
    exact hnew ⟨a, b, hab, hlhs, ha, hb⟩
  · by_cases himage : ∃ a b, p.lhs.hasEdge a b = true ∧ m.get? a = some u ∧ m.get? b = some v
    · obtain ⟨a, b, hab, ha, hb⟩ := himage
      exact .inr ⟨a, b, hab, hm.carries_of_not_erases ha hn.1, hm.carries_of_not_erases hb hn.2.1⟩
    · exact .inl ⟨he, hn.1, hn.2.1, himage⟩

theorem leaves_inverse_of_edge (h : Rewrites p m g g' r) (hg : g.WellFormed) (rev : p.Reversible m g)
    (he : (leftGluing p m g).edge u v) : g'.hasEdge u v = true ∧ p.inverse.Leaves r u v := by
  obtain ⟨⟨_, hu, hnu⟩, _, hv, hnv⟩ := hg.leftGluing_known he
  obtain ⟨he, -, -, himage⟩ := he
  have nu := h.not_erases_inverse (Graph.contains_of_label? hu) hnu
  have nv := h.not_erases_inverse (Graph.contains_of_label? hv) hnv
  refine ⟨h.edge_iff.mpr (.inr ⟨he, hnu, hnv, ?_⟩), nu, nv, ?_⟩
  · intro herased
    obtain ⟨a, b, hab, -, ha, hb⟩ := herased
    exact himage ⟨a, b, hab, ha, hb⟩
  · intro herased
    obtain ⟨a, b, hr, hl, ha, hb⟩ := herased
    have hn := rev.added a b u v hr hl (h.carries_of_not_erases_inverse ha nu)
      (h.carries_of_not_erases_inverse hb nv)
    rw [he] at hn
    cases hn

theorem get?_inverse (h : Rewrites p m g g' r) (h' : Rewrites p.inverse r g' k s) (hc : p.Carries m a x) :
    s.get? a = some x := h'.get?_of_carries (h.carries_inverse.mpr hc)

/-- The graph after both applications is glued together where the inverse has put the left side. -/
theorem makes (h : Rewrites p m g g' r) (hm : IsEmbedding p.lhs g m) (hg : g.WellFormed)
    (h' : Rewrites p.inverse r g' k s) (rev : p.Reversible m g) : (leftGluing p m g).Makes s.get? k where
  label? x l := by
    rw [h'.label?_iff, h.label?_inverse]
    rfl
  hasEdge u v := by
    rw [h'.edge_iff]
    refine ⟨?_, ?_⟩
    · intro he
      rcases he with hleft | ⟨he, hn⟩
      · exact .inr hleft
      · refine (h.edge_of_leaves_inverse hm he hn).imp_right fun himage => ?_
        obtain ⟨a, b, hab, ha, hb⟩ := himage
        exact ⟨a, b, hab, h.get?_inverse h' ha, h.get?_inverse h' hb⟩
    · intro he
      rcases he with he | hleft
      · exact .inr (h.leaves_inverse_of_edge hg rev he)
      · exact .inl hleft
  known u v := hg.leftGluing_known
  named d hd := by
    obtain ⟨l, -, hl⟩ := hd
    exact h'.exists_image (Graph.contains_of_label? hl)
  fresh d x hd hdx hx := by
    obtain ⟨_, hd, -⟩ := hd
    obtain ⟨_, hl⟩ := hx
    -- What the first application leaves stays in the second one too.
    have hstays := h.label?_inverse.mpr hl
    exact h'.not_stays hd hdx ⟨Graph.contains_of_label? hstays.1, hstays.2⟩
  distinct c d x _ _ := h'.injective c d x
  shared a x ha := by
    rw [h'.get?_iff_carries ha]
    exact h.carries_inverse
  shared_known a x hx := hx.exists_label hm

end Rewrites

/-! ## The two applications -/

namespace Production

/-- After an application its mapping of the right side is accepted for the inverse. Applying the inverse there gives
the graph back up to the names of the vertices that had been erased, if the application was reversible, and gives
the graph itself back if none had been erased. -/
theorem apply_inverse (hg : g.WellFormed) (hlhs : p.lhs.Keyed) (hrhs : p.rhs.WellFormed)
    (same : p.relabelled = []) (hm : p.validate g m = .ok ())
    (room : g.nextFresh.toNat + 2 * (g.vertexCount + p.created.length + p.deleted.length) < UInt64.size - 1) :
    ∃ g' s, p.apply m g = some (g', .ok s) ∧ p.inverse.validate g' s.rhsMapping = .ok () ∧
      ∃ k t, p.inverse.apply s.rhsMapping g' = some (k, .ok t) ∧
        (p.Reversible m g →
          (∃ f, Graph.IsIsomorphism f g k ∧ (∀ x, g.contains x = true → ¬ p.Erases m x → f x = x) ∧
            ∀ d, p.lhs.contains d = true →
              ∃ x, m.get? d = some x ∧ t.rhsMapping.get? d = some (f x)) ∧
          (p.deleted = [] → Graph.SameContent g k)) := by
  have hl := (validate_iff hlhs).mp hm
  obtain ⟨g', s, happly, h, hg', left⟩ := exists_apply hg ⟨hlhs, hrhs.keyed⟩ hm (by omega)
  have hm' : p.inverse.validate g' s.rhsMapping = .ok () :=
    (validate_iff hrhs.keyed).mpr (h.isEmbedding_rhs hl hrhs hlhs same)
  have hlength := length_created_inverse hlhs
  have hinverse : p.inverse.Keyed := ⟨hrhs.keyed, hlhs⟩
  obtain ⟨k, t, happly', h', hk, -⟩ := exists_apply hg' hinverse hm' (by omega)
  refine ⟨g', s, happly, hm', k, t, happly', fun rev => ?_⟩
  obtain ⟨f, iso, known, image⟩ := (hl.makes hg rev).exists_isomorphism (h.makes hl hg h' rev)
  have stays (x : VertexId) (hx : g.contains x = true) (hn : ¬ p.Erases m x) : f x = x := by
    obtain ⟨l, hlabel⟩ := Graph.contains_iff_label?.mp hx
    exact known x ⟨l, hlabel, hn⟩
  refine ⟨⟨f, iso, stays, fun d hd => ?_⟩, fun none => ?_⟩
  · obtain ⟨x, hx⟩ := hl.exists_image hd
    exact ⟨x, hx, image d x hx⟩
  · exact iso.sameContent hg hk fun x hx => stays x hx (not_erases none)

section
/-- An edge. The names of its ends are the first fresh ones. -/
def arrow : Graph := (Graph.empty.addEdge ⟨⟨"v0"⟩, ⟨"A"⟩⟩ ⟨⟨"v1"⟩, ⟨"B"⟩⟩).1

/-- Erases the source of an edge and leads another one from the target to a new vertex. -/
def passOn : Production where
  lhs := (Graph.empty.addEdge ⟨⟨"x"⟩, ⟨"A"⟩⟩ ⟨⟨"y"⟩, ⟨"B"⟩⟩).1
  rhs := (Graph.empty.addEdge ⟨⟨"y"⟩, ⟨"B"⟩⟩ ⟨⟨"z"⟩, ⟨"C"⟩⟩).1

def endsOfArrow : Mapping := .ofList [(⟨"x"⟩, ⟨"v0"⟩), (⟨"y"⟩, ⟨"v1"⟩)]

/-- The vertex that is put back cannot have its old name, for which the counter has moved on. -/
theorem apply_inverse_passOn :
    arrow.WellFormed ∧ passOn.lhs.Keyed ∧ passOn.rhs.WellFormed ∧ passOn.relabelled = [] ∧
      passOn.validate arrow endsOfArrow = .ok () ∧ passOn.Reversible endsOfArrow arrow ∧
      ∃ g' s k t f, passOn.apply endsOfArrow arrow = some (g', .ok s) ∧
        passOn.inverse.validate g' s.rhsMapping = .ok () ∧
        passOn.inverse.apply s.rhsMapping g' = some (k, .ok t) ∧
        Graph.IsIsomorphism f arrow k ∧ f ⟨"v0"⟩ = ⟨"v2"⟩ ∧ f ⟨"v1"⟩ = ⟨"v1"⟩ ∧
        g'.vertices = [⟨⟨"v0"⟩, ⟨"C"⟩⟩, ⟨⟨"v1"⟩, ⟨"B"⟩⟩] ∧ g'.edges = [(⟨"v1"⟩, ⟨"v0"⟩)] ∧
        k.vertices = [⟨⟨"v1"⟩, ⟨"B"⟩⟩, ⟨⟨"v2"⟩, ⟨"A"⟩⟩] ∧ k.edges = [(⟨"v2"⟩, ⟨"v1"⟩)] := by
  have hg : arrow.WellFormed := Graph.WellFormed.empty.addEdge _ _
  have hlhs : passOn.lhs.Keyed := (Graph.WellFormed.empty.addEdge _ _).keyed
  have hrhs : passOn.rhs.WellFormed := Graph.WellFormed.empty.addEdge _ _
  have same : passOn.relabelled = [] := by decide +kernel
  have hm : passOn.validate arrow endsOfArrow = .ok () := by decide +kernel
  have rev : passOn.Reversible endsOfArrow arrow := by decide +kernel
  obtain ⟨g', s, happly, hm', k, t, happly', undone⟩ := apply_inverse hg hlhs hrhs same hm (by decide +kernel)
  obtain ⟨⟨f, iso, stays, image⟩, -⟩ := undone rev
  have run : (do
      let there ← passOn.commit endsOfArrow arrow
      let back ← passOn.inverse.commit there.2.rhsMapping there.1
      return (back.2.rhsMapping.get? ⟨"x"⟩, [there.1.vertices, back.1.vertices], [there.1.edges, back.1.edges])) =
        some (some ⟨"v2"⟩, [[⟨⟨"v0"⟩, ⟨"C"⟩⟩, ⟨⟨"v1"⟩, ⟨"B"⟩⟩], [⟨⟨"v1"⟩, ⟨"B"⟩⟩, ⟨⟨"v2"⟩, ⟨"A"⟩⟩]],
          [[(⟨"v1"⟩, ⟨"v0"⟩)], [(⟨"v2"⟩, ⟨"v1"⟩)]]) := by
    decide +kernel
  simp only [(apply_eq_ok.mp happly).2, (apply_eq_ok.mp happly').2, Option.bind_eq_bind, Option.bind_some,
    Option.pure_def, Option.some.injEq, Prod.mk.injEq, List.cons.injEq, and_true] at run
  obtain ⟨putBack, ⟨vertices', vertices⟩, edges', edges⟩ := run
  refine ⟨hg, hlhs, hrhs, same, hm, rev, g', s, k, t, f, happly, hm', happly', iso, ?_,
    stays _ (by decide +kernel) (by decide +kernel), vertices', edges', vertices, edges⟩
  obtain ⟨x, hx, hfx⟩ := image ⟨"x"⟩ (by decide +kernel)
  obtain rfl : ⟨"v0"⟩ = x := Option.some.inj (.trans (by decide +kernel) hx)
  exact Option.some.inj (hfx.symm.trans putBack)

end

end Production
end GraphGrammar
