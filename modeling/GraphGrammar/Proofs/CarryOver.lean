import GraphGrammar.Proofs.PhaseEffects

/-!
# What is carried over to the right side

The first phase looks up each vertex of the right side and does not ask whether the left side has it too. For an
occurrence, which maps left vertices alone, this is the mapping on the vertices of both sides. A mapping by hand may
have an image for a created vertex as well. That image is carried over too, and right edges at the created vertex then
keep edges of the host.
-/

namespace GraphGrammar

namespace Mapping

variable {m : Mapping} {keep : VertexId → Bool} {x : VertexId}

/-- The mapping on some vertices only. -/
def restrict (m : Mapping) (keep : VertexId → Bool) : Mapping := .ofList (m.toList.filter fun pair => keep pair.1)

theorem get?_restrict : (m.restrict keep).get? x = if keep x then m.get? x else none := by
  have keys : ((m.toList.filter fun pair => keep pair.1).map Prod.fst).Nodup :=
    m.nodup_keys.sublist (List.filter_sublist.map _)
  apply Option.ext
  intro z
  rw [restrict, get?_ofList keys, List.mem_filter, mem_toList]
  cases keep x <;> simp

end Mapping

namespace Graph

variable {pattern : Graph} {m : Mapping} {keep : VertexId → Bool} {lost lost' : VertexId → VertexId → Prop}
  {g g' : Graph} {count : Nat} {u v : VertexId}

/-- Images under a part of the mapping are those of the edges with both ends in that part. -/
theorem hasImage_restrict : pattern.HasImage (m.restrict keep) u v ↔
    ∃ a b, pattern.hasEdge a b = true ∧ (keep a = true ∧ keep b = true) ∧ m.get? a = some u ∧ m.get? b = some v := by
  refine exists_congr fun a => exists_congr fun b => and_congr_right fun _ => ?_
  rw [Mapping.get?_restrict, Mapping.get?_restrict]
  cases keep a <;> cases keep b <;> simp

theorem HasImage.of_restrict (h : pattern.HasImage (m.restrict keep) u v) : pattern.HasImage m u v := by
  obtain ⟨a, b, he, -, ha, hb⟩ := hasImage_restrict.mp h
  exact ⟨a, b, he, ha, hb⟩

theorem ErasesEdges.congr (h : ErasesEdges lost g g' count)
    (same : ∀ u v, g.hasEdge u v = true → (lost u v ↔ lost' u v)) : ErasesEdges lost' g g' count where
  wellFormed := h.wellFormed
  stored := h.stored
  nextFresh := h.nextFresh
  hasEdge u v := (h.hasEdge u v).trans (and_congr_right fun he => not_congr (same u v he))
  successors := h.successors
  count_eq := h.count_eq
  edgeCount := h.edgeCount

theorem ErasesEdges.lost_iff (h : ErasesEdges lost g g' count) (h' : ErasesEdges lost' g g' count)
    (he : g.hasEdge u v = true) : lost u v ↔ lost' u v := by
  have left_of := h.hasEdge u v
  rw [h'.hasEdge u v] at left_of
  exact not_iff_not.mp (by simpa [he] using left_of.symm)

end Graph

namespace Production

variable {p : Production} {left : Mapping} {x u v : VertexId}

def shares (p : Production) (x : VertexId) : Bool := p.lhs.contains x && p.rhs.contains x

theorem carryOver_eq_restrict : p.carryOver left = left.restrict p.rhs.contains :=
  Mapping.ext_get? fun _ => get?_carryOver.trans Mapping.get?_restrict.symm

/-- Only the vertices of both sides are carried over exactly when no created vertex has an image. -/
theorem carryOver_eq_restrict_shares :
    p.carryOver left = left.restrict p.shares ↔ ∀ c l, p.Creates c l → left.get? c = none := by
  refine ⟨fun h c l hc => ?_, fun h => Mapping.ext_get? fun x => ?_⟩
  · have hx := congrArg (Mapping.get? · c) h
    simpa [get?_carryOver, Mapping.get?_restrict, shares, hc.1, Graph.contains_of_label? hc.2] using hx
  · rw [get?_carryOver, Mapping.get?_restrict, shares]
    cases hl : p.lhs.contains x with
    | true => simp
    | false =>
      cases hr : p.rhs.contains x with
      | false => simp
      | true =>
        obtain ⟨l, hlabel⟩ := Graph.contains_iff_label?.mp hr
        simp [h x l ⟨hl, hlabel⟩]

theorem carryOver_of_isEmbedding {g : Graph} (h : IsEmbedding p.lhs g left) :
    p.carryOver left = left.restrict p.shares := by
  refine carryOver_eq_restrict_shares.mpr fun c l hc => ?_
  rw [← Option.not_isSome_iff_eq_none, ← Mapping.contains_eq_isSome, h.domain, hc.1]
  exact Bool.false_ne_true

theorem hasImage_carryOver (hr : p.rhs.WellFormed) :
    p.rhs.HasImage (p.carryOver left) u v ↔ p.rhs.HasImage left u v := by
  rw [carryOver_eq_restrict]
  refine ⟨Graph.HasImage.of_restrict, ?_⟩
  intro h
  obtain ⟨a, b, he, ha, hb⟩ := h
  have hb' := Graph.hasEdge_iff.mp he
  exact Graph.hasImage_restrict.mpr ⟨a, b, he, ⟨hr.contains_source hb', hr.contains_target a b hb'⟩, ha, hb⟩

/-- To look at the vertices of both sides is enough exactly when no image of a left edge is kept by right edges at
created vertices alone. -/
theorem lost_iff_shares : (∀ u v, (p.lhs.HasImage left u v ∧ ¬ p.rhs.HasImage left u v ↔
      p.lhs.HasImage left u v ∧ ¬ p.rhs.HasImage (left.restrict p.shares) u v)) ↔
    ∀ u v, p.lhs.HasImage left u v → p.rhs.HasImage left u v → p.rhs.HasImage (left.restrict p.shares) u v := by
  refine forall_congr' fun u => forall_congr' fun v => ⟨fun h hl hr => ?_, fun h => ?_⟩
  · by_contra hs
    exact (h.mpr ⟨hl, hs⟩).2 hr
  · refine and_congr_right fun hl => not_congr ⟨h hl, Graph.HasImage.of_restrict⟩

/-- The first phase carries over what the right side has, in one with the vertices of both sides exactly when no created
vertex has an image. The second then erases the images of left edges that no right edge falls on, and these are the ones
that no right edge between vertices of both sides falls on, in all graphs, exactly when created vertices keep
no edge. -/
theorem carryOver_then_eraseEdges (left : Mapping) (hr : p.rhs.WellFormed) :
    p.carryOver left = left.restrict p.rhs.contains ∧
      (p.carryOver left = left.restrict p.shares ↔ ∀ c l, p.Creates c l → left.get? c = none) ∧
      (∀ g : Graph, g.WellFormed →
        Graph.ErasesEdges (fun u v => p.lhs.HasImage left u v ∧ ¬ p.rhs.HasImage left u v) g
          (p.eraseEdges left (p.carryOver left) g).1 (p.eraseEdges left (p.carryOver left) g).2) ∧
      ((∀ g : Graph, g.WellFormed →
        Graph.ErasesEdges (fun u v => p.lhs.HasImage left u v ∧ ¬ p.rhs.HasImage (left.restrict p.shares) u v) g
          (p.eraseEdges left (p.carryOver left) g).1 (p.eraseEdges left (p.carryOver left) g).2) ↔
        ∀ u v, p.lhs.HasImage left u v → p.rhs.HasImage left u v → p.rhs.HasImage (left.restrict p.shares) u v) := by
  have erases (g : Graph) (hg : g.WellFormed) :
      Graph.ErasesEdges (fun u v => p.lhs.HasImage left u v ∧ ¬ p.rhs.HasImage left u v) g
        (p.eraseEdges left (p.carryOver left) g).1 (p.eraseEdges left (p.carryOver left) g).2 :=
    (eraseEdges_effect hg).congr fun u v _ => and_congr_right fun _ => not_congr (hasImage_carryOver hr)
  refine ⟨carryOver_eq_restrict, carryOver_eq_restrict_shares, erases, ?_⟩
  rw [← lost_iff_shares]
  refine ⟨fun h u v => ?_, fun h g hg => (erases g hg).congr fun u v _ => h u v⟩
  -- A host with this one edge tells whether it is lost.
  have hg := Graph.WellFormed.empty.addEdge ⟨u, ⟨"A"⟩⟩ ⟨v, ⟨"A"⟩⟩
  have he : (Graph.empty.addEdge ⟨u, ⟨"A"⟩⟩ ⟨v, ⟨"A"⟩⟩).1.hasEdge u v = true := by
    rw [Graph.addEdge, Graph.hasEdge_iff, Graph.mem_successors_link]
    exact .inr ⟨rfl, rfl⟩
  exact (erases _ hg).lost_iff (h _ hg) he

section

/-- The edge from `a` to `b` is to go; one from `a` to a new vertex is to come. -/
def swerve : Production where
  lhs := (Graph.empty.addEdge ⟨⟨"a"⟩, ⟨"A"⟩⟩ ⟨⟨"b"⟩, ⟨"B"⟩⟩).1
  rhs := ((Graph.empty.addVertex ⟨⟨"b"⟩, ⟨"B"⟩⟩).1.addEdge ⟨⟨"a"⟩, ⟨"A"⟩⟩ ⟨⟨"c"⟩, ⟨"B"⟩⟩).1

def oneEdge : Graph := (Graph.empty.addEdge ⟨⟨"g0"⟩, ⟨"A"⟩⟩ ⟨⟨"g1"⟩, ⟨"B"⟩⟩).1

/-- The new vertex has an image too, the one of `b`. -/
def createdToTarget : Mapping := .ofList [(⟨"a"⟩, ⟨"g0"⟩), (⟨"b"⟩, ⟨"g1"⟩), (⟨"c"⟩, ⟨"g1"⟩)]

def preservedOnly : Mapping := .ofList [(⟨"a"⟩, ⟨"g0"⟩), (⟨"b"⟩, ⟨"g1"⟩)]

/-- Without an image for the new vertex the edge is erased. -/
theorem carryOver_then_eraseEdges_preservedOnly : swerve.rhs.WellFormed ∧ oneEdge.WellFormed ∧
    swerve.carryOver preservedOnly = preservedOnly.restrict swerve.shares ∧
    Graph.ErasesEdges (fun u v => swerve.lhs.HasImage preservedOnly u v ∧ ¬ swerve.rhs.HasImage preservedOnly u v)
      oneEdge (swerve.eraseEdges preservedOnly (swerve.carryOver preservedOnly) oneEdge).1 1 := by
  have hr : swerve.rhs.WellFormed := (Graph.WellFormed.empty.addVertex _).addEdge _ _
  have hg : oneEdge.WellFormed := Graph.WellFormed.empty.addEdge _ _
  obtain ⟨-, -, erases, -⟩ := carryOver_then_eraseEdges (p := swerve) preservedOnly hr
  have count : (swerve.eraseEdges preservedOnly (swerve.carryOver preservedOnly) oneEdge).2 = 1 := by decide +kernel
  exact ⟨hr, hg, by decide +kernel, count ▸ erases oneEdge hg⟩

/-- With one it is carried over, although the left side does not have the vertex, and keeps the edge of the host. -/
theorem carryOver_createdToTarget :
    swerve.carryOver createdToTarget ≠ createdToTarget.restrict swerve.shares ∧
      swerve.lhs.HasImage createdToTarget ⟨"g0"⟩ ⟨"g1"⟩ ∧
      ¬ swerve.rhs.HasImage (createdToTarget.restrict swerve.shares) ⟨"g0"⟩ ⟨"g1"⟩ ∧
      (swerve.eraseEdges createdToTarget (swerve.carryOver createdToTarget) oneEdge).1.hasEdge ⟨"g0"⟩ ⟨"g1"⟩ =
        true := by
  refine ⟨by decide +kernel, ⟨⟨"a"⟩, ⟨"b"⟩, by decide +kernel⟩, ?_, by decide +kernel⟩
  have kept : ¬ swerve.keeps (createdToTarget.restrict swerve.shares) (⟨"g0"⟩, ⟨"g1"⟩) = true := by decide +kernel
  rwa [keeps_iff] at kept

end

end Production
end GraphGrammar
