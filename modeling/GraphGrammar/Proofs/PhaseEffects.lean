import Mathlib.Data.Set.Card
import GraphGrammar.Proofs.Counts

/-!
# What each phase does on its own

Nobody judges the mappings of a phase that is called by hand: they may send two vertices to one, leave vertices out and
name what is not there. What a phase does is the same all the same, and told by the sets of edges and vertices that the
mappings give, so a change that two parts of a pattern ask for is made once and counted once. All else is as it was, the
order of the targets included.
-/

namespace GraphGrammar

/-! ## Effects -/

namespace Graph

/-- The edges that are `lost` go, `count` of them, and nothing else changes. -/
structure ErasesEdges (lost : VertexId → VertexId → Prop) (g g' : Graph) (count : Nat) : Prop where
  wellFormed : g'.WellFormed
  stored : g'.stored = g.stored
  nextFresh : g'.nextFresh = g.nextFresh
  hasEdge : ∀ u v, g'.hasEdge u v = true ↔ g.hasEdge u v = true ∧ ¬ lost u v
  /-- The targets that are left stay in their order. -/
  successors : ∀ u, (g'.successors u).Sublist (g.successors u)
  count_eq : count = {e : Edge | g.hasEdge e.1 e.2 = true ∧ g'.hasEdge e.1 e.2 = false}.ncard
  edgeCount : g'.edgeCount + count = g.edgeCount

/-- The vertices that are `gone` go with their edges, `count` vertices, and nothing else changes. -/
structure ErasesVertices (gone : VertexId → Prop) (g g' : Graph) (count : Nat) : Prop where
  wellFormed : g'.WellFormed
  nextFresh : g'.nextFresh = g.nextFresh
  label? : ∀ x l, g'.label? x = some l ↔ g.label? x = some l ∧ ¬ gone x
  hasEdge : ∀ u v, g'.hasEdge u v = true ↔ g.hasEdge u v = true ∧ ¬ gone u ∧ ¬ gone v
  successors : ∀ u, (g'.successors u).Sublist (g.successors u)
  count_eq : count = {x | g.contains x = true ∧ g'.contains x = false}.ncard
  vertexCount : g'.vertexCount + count = g.vertexCount

/-- Edges that are `new` come where both ends are vertices, `count` of them, and nothing else changes. -/
structure AddsEdges (new : VertexId → VertexId → Prop) (g g' : Graph) (count : Nat) : Prop where
  wellFormed : g'.WellFormed
  stored : g'.stored = g.stored
  nextFresh : g'.nextFresh = g.nextFresh
  hasEdge : ∀ u v, g'.hasEdge u v = true ↔
    g.hasEdge u v = true ∨ new u v ∧ g.contains u = true ∧ g.contains v = true
  /-- New targets come behind the old ones. -/
  successors : ∀ u, g.successors u <+: g'.successors u
  count_eq : count = {e : Edge | g'.hasEdge e.1 e.2 = true ∧ g.hasEdge e.1 e.2 = false}.ncard
  edgeCount : g'.edgeCount = g.edgeCount + count

/-- The edge is the image of an edge of the pattern. -/
def HasImage (pattern : Graph) (m : Mapping) (u v : VertexId) : Prop :=
  ∃ a b, pattern.hasEdge a b = true ∧ m.get? a = some u ∧ m.get? b = some v

end Graph

/-- Each created vertex of the production is added under a name of its own and mapped to it, `count` of them, and
nothing else changes. -/
structure Production.AddsVertices (p : Production) (right : Mapping) (g g' : Graph) (count : Nat) (right' : Mapping) :
    Prop where
  wellFormed : g'.WellFormed
  /-- Each has a name that was no vertex. -/
  named : ∀ c l, p.Creates c l → ∃ x, right'.get? c = some x ∧ g.contains x = false
  distinct : ∀ c d l l' x, p.Creates c l → p.Creates d l' → right'.get? c = some x → right'.get? d = some x → c = d
  others : ∀ a, (∀ l, ¬ p.Creates a l) → right'.get? a = right.get? a
  label? : ∀ x l, g'.label? x = some l ↔ g.label? x = some l ∨ ∃ c, p.Creates c l ∧ right'.get? c = some x
  successors : ∀ u, g'.successors u = g.successors u
  count_eq : count = p.created.length
  vertexCount : g'.vertexCount = g.vertexCount + count

/-! ## Sizes of differences -/

namespace Graph

variable {g g' : Graph} {es : List Edge} {x y a b : VertexId}

theorem ncard_of_nodup {α : Type} {s : Set α} {l : List α} (nodup : l.Nodup) (h : ∀ a, a ∈ s ↔ a ∈ l) :
    s.ncard = l.length := by
  classical
  have listed : s = (l.toFinset : Set α) := by
    ext a
    rw [h, Finset.mem_coe, List.mem_toFinset]
  rw [listed, Set.ncard_coe_finset, List.toFinset_card_of_nodup nodup]

theorem WellFormed.edgeCount_diff (hg : g.WellFormed) (hg' : g'.WellFormed)
    (sub : ∀ x y, y ∈ g'.successors x → y ∈ g.successors x) :
    g.edgeCount = g'.edgeCount + {e : Edge | g.hasEdge e.1 e.2 = true ∧ g'.hasEdge e.1 e.2 = false}.ncard := by
  have nodup : (g.edges.filter fun e => !g'.hasEdge e.1 e.2).Nodup := (nodup_edges hg.nodup).filter _
  have listed (x y : VertexId) : (x, y) ∈ (g.edges.filter fun e => !g'.hasEdge e.1 e.2) ↔
      g.hasEdge x y = true ∧ g'.hasEdge x y = false := by
    rw [List.mem_filter, mem_edges, ← hasEdge_iff, Bool.not_eq_true']
  have size : {e : Edge | g.hasEdge e.1 e.2 = true ∧ g'.hasEdge e.1 e.2 = false}.ncard =
      (g.edges.filter fun e => !g'.hasEdge e.1 e.2).length := ncard_of_nodup nodup fun e => (listed e.1 e.2).symm
  rw [size]
  refine hg'.edgeCount_add hg nodup (fun x y hxy => ?_) fun x y => ?_
  · rw [← hasEdge_iff, ((listed x y).mp hxy).2]
    exact Bool.false_ne_true
  · rw [listed, ← Bool.not_eq_true, hasEdge_iff, hasEdge_iff]
    by_cases hy : y ∈ g'.successors x <;> simp [hy, sub x y]

theorem vertexCount_diff (sub : ∀ x, g'.contains x = true → g.contains x = true) :
    g.vertexCount = g'.vertexCount + {x | g.contains x = true ∧ g'.contains x = false}.ncard := by
  have nodup : (g.ids.filter fun x => !g'.contains x).Nodup := g.nodup_ids.filter _
  have size : {x | g.contains x = true ∧ g'.contains x = false}.ncard =
      (g.ids.filter fun x => !g'.contains x).length := ncard_of_nodup nodup fun x => by simp
  rw [size]
  refine vertexCount_add nodup (fun x hx => ?_) fun x => ?_
  · simpa using (List.mem_filter.mp hx).2
  · cases hx : g'.contains x with
    | true => simp [sub x hx]
    | false => simp [hx]

/-! ## Targets of added edges -/

theorem successors_prefix_connect : g.successors x <+: (g.connect a b).1.successors x := by
  rw [connect_fst]
  split
  · rw [successors_link]
    split
    · next h => exact h.1 ▸ List.prefix_append _ _
    · exact List.prefix_rfl
  · exact List.prefix_rfl

theorem successors_prefix_foldl_connect :
    g.successors x <+: (es.foldl (fun g e => (g.connect e.1 e.2).1) g).successors x := by
  refine List.foldlRecOn es _ (motive := fun g' : Graph => g.successors x <+: g'.successors x)
    List.prefix_rfl fun g' h e _ => ?_
  exact h.trans successors_prefix_connect

end Graph

/-! ## The four phases -/

namespace Production

variable {p : Production} {left right : Mapping} {g : Graph}

theorem mem_lostEdges_iff_hasImage {u v : VertexId} :
    (u, v) ∈ p.lostEdges left right ↔ p.lhs.HasImage left u v ∧ ¬ p.rhs.HasImage right u v := by
  rw [mem_lostEdges, Bool.eq_false_iff, ne_eq, keeps_iff]
  rfl

theorem eraseEdges_effect (hg : g.WellFormed) :
    Graph.ErasesEdges (fun u v => p.lhs.HasImage left u v ∧ ¬ p.rhs.HasImage right u v) g
      (p.eraseEdges left right g).1 (p.eraseEdges left right g).2 := by
  have successors (u : VertexId) : (p.eraseEdges left right g).1.successors u =
      (g.successors u).filter fun v => (u, v) ∉ p.lostEdges left right := by
    rw [eraseEdges_fst, hg.successors_foldl_eraseEdge]
  have counted : (p.eraseEdges left right g).1.edgeCount + (p.eraseEdges left right g).2 = g.edgeCount :=
    eraseEdges_count hg
  refine ⟨hg.eraseEdges, ?_, ?_, fun u v => ?_, fun u => ?_, ?_, counted⟩
  · rw [eraseEdges_fst]
    exact Std.ExtTreeMap.ext_getElem? fun x => Graph.vertex?_foldl_eraseEdge
  · rw [eraseEdges_fst, Graph.nextFresh_foldl_eraseEdge]
  · rw [Graph.hasEdge_iff, successors, List.mem_filter, decide_eq_true_eq, mem_lostEdges_iff_hasImage,
      Graph.hasEdge_iff]
  · rw [successors]
    exact List.filter_sublist
  · have left_of (u v : VertexId) (hv : v ∈ (p.eraseEdges left right g).1.successors u) : v ∈ g.successors u := by
      rw [successors] at hv
      exact (List.mem_filter.mp hv).1
    have diff := hg.edgeCount_diff hg.eraseEdges left_of
    omega

theorem eraseVertices_effect (hg : g.WellFormed) :
    Graph.ErasesVertices (p.Erases left) g (p.eraseVertices left g).1 (p.eraseVertices left g).2 := by
  have label (x : VertexId) (l : Label) : (p.eraseVertices left g).1.label? x = some l ↔
      g.label? x = some l ∧ ¬ p.Erases left x := by
    rw [eraseVertices_fst, Graph.label?_foldl_eraseVertex, erases_iff_mem]
    split <;> simp [*]
  have successors (u : VertexId) : (p.eraseVertices left g).1.successors u =
      if p.Erases left u then [] else (g.successors u).filter fun v => ¬ p.Erases left v := by
    simp only [eraseVertices_fst, hg.successors_foldl_eraseVertex, erases_iff_mem]
  have counted : (p.eraseVertices left g).1.vertexCount + (p.eraseVertices left g).2 = g.vertexCount :=
    eraseVertices_count
  refine ⟨hg.eraseVertices, ?_, label, fun u v => ?_, fun u => ?_, ?_, counted⟩
  · rw [eraseVertices_fst, Graph.nextFresh_foldl_eraseVertex]
  · rw [Graph.hasEdge_iff, Graph.hasEdge_iff, successors]
    split <;> simp [*]
  · rw [successors]
    split
    · exact List.nil_sublist _
    · exact List.filter_sublist
  · have left_of (x : VertexId) (hx : (p.eraseVertices left g).1.contains x = true) : g.contains x = true := by
      obtain ⟨l, hl⟩ := Graph.contains_iff_label?.mp hx
      exact Graph.contains_of_label? ((label x l).mp hl).1
    have diff := Graph.vertexCount_diff left_of
    omega

theorem addVertices_effect (hg : g.WellFormed) (hp : p.Keyed)
    (room : g.nextFresh.toNat + g.vertexCount + p.created.length < UInt64.size - 1) :
    ∃ g' count right', p.addVertices right g = some (g', count, right') ∧ p.AddsVertices right g g' count right' := by
  obtain ⟨g', right', hrun, h, -, size⟩ := Allocated.foldl g right g.nextFresh 0 (nodup_created hp) (by omega)
    (Nat.le_refl _) (Graph.filledFrom_nextFresh g)
  rw [Nat.zero_add, ← addVertices_eq] at hrun
  have created {c : VertexId} {l : Label} (hc : p.Creates c l) : (⟨c, l⟩ : Vertex) ∈ p.created :=
    (mem_created hp).mpr ⟨hc.2, hc.1⟩
  refine ⟨g', _, right', hrun, hg.addVertices hrun, fun c l hc => ?_, fun c d l l' x hc hd hcx hdx => ?_,
    fun a ha => ?_, fun x l => ?_, h.successors, rfl, size⟩
  · obtain ⟨k, hk, -, -, free⟩ := h.name _ (created hc)
    exact ⟨_, hk, free⟩
  · exact h.distinct _ (created hc) _ (created hd) (hcx.trans hdx.symm)
  · refine h.others a fun hmem => ?_
    obtain ⟨hr, hl⟩ := (mem_map_id_created hp).mp hmem
    obtain ⟨l, hlabel⟩ := Graph.contains_iff_label?.mp hr
    exact ha l ⟨hl, hlabel⟩
  · rw [h.label?]
    refine or_congr_right ⟨?_, ?_⟩
    · intro hnew
      obtain ⟨v, hv, hx, rfl⟩ := hnew
      obtain ⟨hlabel, hl⟩ := (mem_created hp).mp hv
      exact ⟨v.id, ⟨hl, hlabel⟩, hx⟩
    · intro hnew
      obtain ⟨c, hc, hx⟩ := hnew
      exact ⟨⟨c, l⟩, created hc, hx, rfl⟩

theorem addEdges_effect (hg : g.WellFormed) :
    Graph.AddsEdges (p.rhs.HasImage right) g (p.addEdges right g).1 (p.addEdges right g).2 := by
  have mem (u v : VertexId) : v ∈ (p.addEdges right g).1.successors u ↔
      v ∈ g.successors u ∨ p.rhs.HasImage right u v ∧ g.contains u = true ∧ g.contains v = true := by
    rw [addEdges_fst, Graph.mem_successors_foldl_connect, mem_images]
    rfl
  have counted : (p.addEdges right g).1.edgeCount = g.edgeCount + (p.addEdges right g).2 := addEdges_count hg
  refine ⟨hg.addEdges, ?_, ?_, fun u v => ?_, fun u => ?_, ?_, counted⟩
  · rw [addEdges_fst]
    exact Std.ExtTreeMap.ext_getElem? fun x => Graph.vertex?_foldl_connect
  · rw [addEdges_fst, Graph.nextFresh_foldl_connect]
  · rw [Graph.hasEdge_iff, Graph.hasEdge_iff, mem]
  · rw [addEdges_fst]
    exact Graph.successors_prefix_foldl_connect
  · have diff := hg.addEdges.edgeCount_diff hg (g := (p.addEdges right g).1) fun u v hv => (mem u v).mpr (.inl hv)
    omega

/-- Each phase does what the images of its part of the production ask for, whatever the mappings are. The one that adds
vertices needs room for their names below the largest word. -/
theorem phases_effects (left right : Mapping) (hp : p.Keyed) (hg : g.WellFormed) :
    Graph.ErasesEdges (fun u v => p.lhs.HasImage left u v ∧ ¬ p.rhs.HasImage right u v) g
        (p.eraseEdges left right g).1 (p.eraseEdges left right g).2 ∧
      Graph.ErasesVertices (p.Erases left) g (p.eraseVertices left g).1 (p.eraseVertices left g).2 ∧
      (g.nextFresh.toNat + g.vertexCount + p.created.length < UInt64.size - 1 →
        ∃ g' count right', p.addVertices right g = some (g', count, right') ∧
          p.AddsVertices right g g' count right') ∧
      Graph.AddsEdges (p.rhs.HasImage right) g (p.addEdges right g).1 (p.addEdges right g).2 :=
  ⟨eraseEdges_effect hg, eraseVertices_effect hg, addVertices_effect hg hp, addEdges_effect hg⟩

section

/-- Two edges to find side by side, of which one is to keep its ends. -/
def twinEdges : Production where
  lhs := ((Graph.empty.addEdge ⟨⟨"a"⟩, ⟨"A"⟩⟩ ⟨⟨"b"⟩, ⟨"A"⟩⟩).1.addEdge ⟨⟨"c"⟩, ⟨"A"⟩⟩ ⟨⟨"d"⟩, ⟨"A"⟩⟩).1
  rhs :=
    let a : Vertex := ⟨⟨"a"⟩, ⟨"A"⟩⟩
    let b : Vertex := ⟨⟨"b"⟩, ⟨"A"⟩⟩
    (((Graph.empty.addEdge a a).1.addEdge a b).1.addEdge b ⟨⟨"n"⟩, ⟨"B"⟩⟩).1

/-- All left vertices go to one end of the ring. -/
def allToFirst : Mapping := .ofList [(⟨"a"⟩, ⟨"v0"⟩), (⟨"b"⟩, ⟨"v0"⟩), (⟨"c"⟩, ⟨"v0"⟩), (⟨"d"⟩, ⟨"v0"⟩)]

/-- The right vertices that are mapped go to the other end, and a name goes there that no vertex has. -/
def someToSecond : Mapping := .ofList [(⟨"a"⟩, ⟨"v1"⟩), (⟨"b"⟩, ⟨"v1"⟩), (⟨"z"⟩, ⟨"v1"⟩)]

/-- Where two edges or two vertices fall on one, each phase makes and counts one change. -/
theorem phases_effects_twinEdges :
    ring.WellFormed ∧ twinEdges.Keyed ∧
      ring.nextFresh.toNat + ring.vertexCount + twinEdges.created.length < UInt64.size - 1 ∧
      Graph.ErasesEdges (fun u v => twinEdges.lhs.HasImage allToFirst u v ∧ ¬ twinEdges.rhs.HasImage someToSecond u v)
        ring (twinEdges.eraseEdges allToFirst someToSecond ring).1 1 ∧
      Graph.ErasesVertices (twinEdges.Erases allToFirst) ring (twinEdges.eraseVertices allToFirst ring).1 1 ∧
      (∃ g' right', twinEdges.addVertices someToSecond ring = some (g', 1, right') ∧
        twinEdges.AddsVertices someToSecond ring g' 1 right' ∧ right'.get? ⟨"n"⟩ = some ⟨"v2"⟩) ∧
      Graph.AddsEdges (twinEdges.rhs.HasImage someToSecond) ring (twinEdges.addEdges someToSecond ring).1 1 := by
  have hg : ring.WellFormed := ((Graph.WellFormed.empty.addEdge _ _).addEdge _ _).addEdge _ _
  have hp : twinEdges.Keyed := ⟨((Graph.WellFormed.empty.addEdge _ _).addEdge _ _).keyed,
    (((Graph.WellFormed.empty.addEdge _ _).addEdge _ _).addEdge _ _).keyed⟩
  have room : ring.nextFresh.toNat + ring.vertexCount + twinEdges.created.length < UInt64.size - 1 := by
    decide +kernel
  have counts : (twinEdges.eraseEdges allToFirst someToSecond ring).2 = 1 ∧
      (twinEdges.eraseVertices allToFirst ring).2 = 1 ∧ (twinEdges.addEdges someToSecond ring).2 = 1 := by
    decide +kernel
  have added : (twinEdges.addVertices someToSecond ring).map (fun r => (r.2.1, r.2.2.get? ⟨"n"⟩)) =
      some (1, some ⟨"v2"⟩) := by
    decide +kernel
  obtain ⟨edgesErased, verticesErased, edgesAdded⟩ := counts
  obtain ⟨erasesEdges, erasesVertices, adding, addsEdges⟩ := phases_effects allToFirst someToSecond hp hg
  obtain ⟨g', count, right', hrun, addsVertices⟩ := adding room
  rw [edgesErased] at erasesEdges
  rw [verticesErased] at erasesVertices
  rw [edgesAdded] at addsEdges
  rw [hrun, Option.map_some, Option.some.injEq, Prod.mk.injEq] at added
  obtain ⟨rfl, named⟩ := added
  exact ⟨hg, hp, room, erasesEdges, erasesVertices, ⟨g', right', hrun, addsVertices, named⟩, addsEdges⟩

end

end Production

end GraphGrammar
