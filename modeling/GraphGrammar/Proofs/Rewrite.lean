import GraphGrammar.Proofs.Allocation
import GraphGrammar.Proofs.Embedding
import GraphGrammar.Proofs.Phases

/-!
# What an application does

`Rewrites` tells the graph after an application from the graph before it, the production and the two mappings
alone, with no phase in it. `Production.commit_rewrites` derives it for every embedding: an edge lives on exactly
when both its ends do and no left edge outside the right side falls on it, and a vertex under a fresh name has
the edges of the right side and no others, also when the name is that of a vertex that was just erased.

What is assumed: the tables of the graph agree (`Graph.WellFormed`), the vertices of both sides are stored under their
own identifiers (`Production.Keyed`), and the counter has room for the created vertices. All graphs that operations
produce have the first two (`GraphGrammar.Proofs.Session`). Without the third an application may never end.
-/

namespace GraphGrammar
open Std

/-- The vertex is the image of one that the production deletes. -/
def Production.Erases (p : Production) (m : Mapping) (x : VertexId) : Prop :=
  ∃ d, p.lhs.contains d = true ∧ p.rhs.contains d = false ∧ m.get? d = some x

/-- The edge is the image of a left edge that is no right edge. -/
def Production.ErasesEdge (p : Production) (m : Mapping) (u v : VertexId) : Prop :=
  ∃ a b, p.lhs.hasEdge a b = true ∧ p.rhs.hasEdge a b = false ∧ m.get? a = some u ∧ m.get? b = some v

/-- The edge, if it is there, is left where it is. -/
def Production.Leaves (p : Production) (m : Mapping) (u v : VertexId) : Prop :=
  ¬ p.Erases m u ∧ ¬ p.Erases m v ∧ ¬ p.ErasesEdge m u v

/-- The vertex is on the right side only, with this label there. -/
def Production.Creates (p : Production) (c : VertexId) (l : Label) : Prop :=
  p.lhs.contains c = false ∧ p.rhs.label? c = some l

/-- The vertex is on both sides and is mapped to `x`. -/
def Production.Carries (p : Production) (m : Mapping) (a x : VertexId) : Prop :=
  p.lhs.contains a = true ∧ p.rhs.contains a = true ∧ m.get? a = some x

/-- The graph `g'` and the mapping `r` of the right side are what applying `p` at `m` makes of `g`. -/
structure Rewrites (p : Production) (m : Mapping) (g g' : Graph) (r : Mapping) : Prop where
  /-- The vertices of the right side are mapped, and nothing else is. -/
  domain : ∀ x, r.contains x = true ↔ p.rhs.contains x = true
  injective : r.Injective
  /-- Preserved vertices keep their images. -/
  preserved : ∀ x, p.lhs.contains x = true → p.rhs.contains x = true → r.get? x = m.get? x
  /-- Created vertices have images that were no vertices or that are erased. -/
  created : ∀ c x, p.lhs.contains c = false → r.get? c = some x → g.contains x = true → p.Erases m x
  /-- What is not erased keeps its label; created vertices have the labels of the right side. -/
  label? : ∀ x l, g'.label? x = some l ↔
    (g.label? x = some l ∧ ¬ p.Erases m x) ∨
    ∃ c, p.lhs.contains c = false ∧ p.rhs.label? c = some l ∧ r.get? c = some x
  /-- The edges are the images of the right edges, and those that were there between vertices that are not
  erased, unless they are the image of a left edge that is no right edge. -/
  hasEdge : ∀ u v, g'.hasEdge u v = true ↔
    (∃ a b, p.rhs.hasEdge a b = true ∧ r.get? a = some u ∧ r.get? b = some v) ∨
    (g.hasEdge u v = true ∧ ¬ p.Erases m u ∧ ¬ p.Erases m v ∧
      ¬ ∃ a b, p.lhs.hasEdge a b = true ∧ p.rhs.hasEdge a b = false ∧ m.get? a = some u ∧ m.get? b = some v)

section
variable {p : Production} {m : Mapping} {g : Graph} {a x : VertexId}

theorem Production.Carries.stays (h : p.Carries m a x) (hm : IsEmbedding p.lhs g m) :
    g.contains x = true ∧ ¬ p.Erases m x := by
  obtain ⟨-, hr, hx⟩ := h
  refine ⟨hm.contains_image hx, ?_⟩
  intro herased
  obtain ⟨d, -, hd, hdx⟩ := herased
  rw [hm.injective d a x hdx hx, hr] at hd
  cases hd

theorem Production.Carries.exists_label (h : p.Carries m a x) (hm : IsEmbedding p.lhs g m) :
    ∃ l, g.label? x = some l ∧ ¬ p.Erases m x := by
  obtain ⟨hc, hn⟩ := h.stays hm
  obtain ⟨l, hl⟩ := Graph.contains_iff_label?.mp hc
  exact ⟨l, hl, hn⟩

theorem IsEmbedding.carries_of_not_erases (hm : IsEmbedding p.lhs g m) (hx : m.get? a = some x)
    (hn : ¬ p.Erases m x) : p.Carries m a x := by
  have hl := hm.contains_of_image hx
  refine ⟨hl, ?_, hx⟩
  rw [← Bool.not_eq_false]
  intro hr
  exact hn ⟨a, hl, hr, hx⟩

end

namespace Rewrites

variable {p : Production} {g g' : Graph} {m r : Mapping} {a b c u v x : VertexId} {l : Label}

theorem not_stays (h : Rewrites p m g g' r) (hc : p.lhs.contains c = false) (hx : r.get? c = some x) :
    ¬ (g.contains x = true ∧ ¬ p.Erases m x) :=
  fun hs => hs.2 (h.created c x hc hx hs.1)

theorem carries (h : Rewrites p m g g' r) (ha : p.lhs.contains a = true) (hx : r.get? a = some x) :
    p.Carries m a x := by
  have hr := (h.domain a).mp (Mapping.contains_iff_get?.mpr ⟨x, hx⟩)
  exact ⟨ha, hr, (h.preserved a ha hr).symm.trans hx⟩

theorem get?_of_carries (h : Rewrites p m g g' r) (hc : p.Carries m a x) : r.get? a = some x := by
  obtain ⟨ha, hr, hx⟩ := hc
  exact (h.preserved a ha hr).trans hx

theorem exists_label (h : Rewrites p m g g' r) (hx : r.get? c = some x) : ∃ l, p.rhs.label? c = some l :=
  Graph.contains_iff_label?.mp ((h.domain c).mp (Mapping.contains_iff_get?.mpr ⟨x, hx⟩))

theorem exists_image (h : Rewrites p m g g' r) (hc : p.rhs.contains c = true) : ∃ x, r.get? c = some x :=
  Mapping.contains_iff_get?.mp ((h.domain c).mpr hc)

theorem label?_of_stays (h : Rewrites p m g g' r) (hx : g.contains x = true) (hn : ¬ p.Erases m x) :
    g'.label? x = g.label? x := by
  obtain ⟨l, hl⟩ := Graph.contains_iff_label?.mp hx
  rw [hl]
  exact (h.label? x l).mpr (.inl ⟨hl, hn⟩)

theorem contains_of_stays (h : Rewrites p m g g' r) (hx : g.contains x = true) (hn : ¬ p.Erases m x) :
    g'.contains x = true := by
  rw [Graph.contains_eq_isSome, h.label?_of_stays hx hn, ← Graph.contains_eq_isSome]
  exact hx

theorem contains_image (h : Rewrites p m g g' r) (hm : IsEmbedding p.lhs g m) (hx : r.get? a = some x) :
    g'.contains x = true := by
  cases ha : p.lhs.contains a with
  | true =>
    obtain ⟨hg, hn⟩ := (h.carries ha hx).stays hm
    exact h.contains_of_stays hg hn
  | false =>
    obtain ⟨l, hl⟩ := h.exists_label hx
    exact Graph.contains_of_label? ((h.label? x l).mpr (.inr ⟨a, ha, hl, hx⟩))

theorem label?_iff (h : Rewrites p m g g' r) : g'.label? x = some l ↔
    (g.label? x = some l ∧ ¬ p.Erases m x) ∨ ∃ c, p.Creates c l ∧ r.get? c = some x := by
  simp only [h.label?, Production.Creates, and_assoc]

theorem edge_iff (h : Rewrites p m g g' r) : g'.hasEdge u v = true ↔
    (∃ a b, p.rhs.hasEdge a b = true ∧ r.get? a = some u ∧ r.get? b = some v) ∨
      (g.hasEdge u v = true ∧ p.Leaves m u v) := h.hasEdge u v

theorem creates_of_get? (h : Rewrites p m g g' r) (hc : p.lhs.contains c = false) (hx : r.get? c = some x) :
    ∃ l, p.Creates c l := by
  obtain ⟨l, hl⟩ := h.exists_label hx
  exact ⟨l, hc, hl⟩

theorem get?_iff_carries (h : Rewrites p m g g' r) (hn : ¬ ∃ l, p.Creates a l) :
    r.get? a = some x ↔ p.Carries m a x := by
  refine ⟨?_, ?_⟩
  · intro hx
    cases ha : p.lhs.contains a with
    | true => exact h.carries ha hx
    | false => exact absurd (h.creates_of_get? ha hx) hn
  · intro hc
    exact h.get?_of_carries hc

end Rewrites

namespace Production

variable {p : Production} {g g' : Graph} {m r right : Mapping} {x y u v : VertexId}

theorem mem_deleted : x ∈ p.deleted ↔ p.lhs.contains x = true ∧ p.rhs.contains x = false := by
  simp [deleted]

theorem mem_created (hp : p.Keyed) {c : Vertex} :
    c ∈ p.created ↔ p.rhs.label? c.id = some c.label ∧ p.lhs.contains c.id = false := by
  simp [created, hp.rhs.mem_vertices]

theorem nodup_created (hp : p.Keyed) : (p.created.map (·.id)).Nodup := by
  have h := p.rhs.nodup_ids
  rw [← hp.rhs.map_id_vertices] at h
  exact h.sublist (List.filter_sublist.map _)

theorem mem_map_id_created (hp : p.Keyed) :
    x ∈ p.created.map (·.id) ↔ p.rhs.contains x = true ∧ p.lhs.contains x = false := by
  rw [List.mem_map, Graph.contains_iff_label?]
  refine ⟨?_, ?_⟩
  · intro h
    obtain ⟨c, hc, rfl⟩ := h
    obtain ⟨hl, hn⟩ := (mem_created hp).mp hc
    exact ⟨⟨c.label, hl⟩, hn⟩
  · intro h
    obtain ⟨⟨l, hl⟩, hn⟩ := h
    exact ⟨⟨x, l⟩, (mem_created hp).mpr ⟨hl, hn⟩, rfl⟩

theorem mem_preserved : x ∈ p.preserved ↔ p.lhs.contains x = true ∧ p.rhs.contains x = true := by
  simp [preserved]

theorem not_creates (hp : p.Keyed) (none : p.created = []) {c : VertexId} {l : Label} : ¬ p.Creates c l := by
  intro h
  obtain ⟨hn, hl⟩ := h
  have hc : (⟨c, l⟩ : Vertex) ∈ p.created := (mem_created hp).mpr ⟨hl, hn⟩
  simp [none] at hc

theorem erases_iff_mem : p.Erases m x ↔ x ∈ p.deleted.filterMap m.get? := by
  simp only [Erases, List.mem_filterMap, mem_deleted, and_assoc]

theorem not_erases (none : p.deleted = []) : ¬ p.Erases m x := by
  rw [erases_iff_mem, none]
  exact List.not_mem_nil

theorem mem_images {e : Graph} : (u, v) ∈ e.edges.filterMap m.edgeImage? ↔
    ∃ a b, e.hasEdge a b = true ∧ m.get? a = some u ∧ m.get? b = some v := by
  simp only [Mapping.mem_edgeImages, Graph.mem_edges, Graph.hasEdge_iff]

def goneEdges (p : Production) : List Edge := p.lhs.edges.filter fun e => !p.rhs.hasEdge e.1 e.2

def sharedEdges (p : Production) : List Edge :=
  p.rhs.edges.filter fun e => p.preserved.contains e.1 && p.preserved.contains e.2

theorem erasesEdge_iff_mem : p.ErasesEdge m u v ↔ (u, v) ∈ p.goneEdges.filterMap m.edgeImage? := by
  simp only [ErasesEdge, goneEdges, Mapping.mem_edgeImages, List.mem_filter, Graph.mem_edges, Graph.hasEdge_iff,
    Bool.not_eq_true', and_assoc]

theorem mem_sharedEdges {a b : VertexId} : (a, b) ∈ p.sharedEdges ↔
    p.rhs.hasEdge a b = true ∧ (p.lhs.contains a = true ∧ p.rhs.contains a = true) ∧
      p.lhs.contains b = true ∧ p.rhs.contains b = true := by
  rw [sharedEdges, List.mem_filter, Graph.mem_edges, ← Graph.hasEdge_iff, Bool.and_eq_true, List.contains_iff_mem,
    List.contains_iff_mem, mem_preserved, mem_preserved]

instance : Decidable (p.Erases m x) := decidable_of_iff _ erases_iff_mem.symm

instance : Decidable (p.ErasesEdge m u v) := decidable_of_iff _ erasesEdge_iff_mem.symm

instance : Decidable (p.Leaves m u v) := inferInstanceAs (Decidable (_ ∧ _ ∧ _))

theorem keeps_iff : p.keeps right (u, v) = true ↔
    ∃ a b, p.rhs.hasEdge a b = true ∧ right.get? a = some u ∧ right.get? b = some v := by
  rw [keeps, List.any_eq_true]
  simp only [Prod.exists, Graph.mem_edges, beq_iff_eq, Mapping.edgeImage?_eq_some, Graph.hasEdge_iff]

theorem mem_lostEdges : (u, v) ∈ p.lostEdges m right ↔
    (∃ a b, p.lhs.hasEdge a b = true ∧ m.get? a = some u ∧ m.get? b = some v) ∧ p.keeps right (u, v) = false := by
  rw [lostEdges, List.mem_filter, mem_images, Bool.not_eq_true']

/-! ## The graph between the erasing and the adding phases -/

/-- The graph after the edges and the vertices are erased. -/
def rest (p : Production) (m : Mapping) (g : Graph) : Graph :=
  (p.eraseVertices m (p.eraseEdges m (p.carryOver m) g).1).1

theorem label?_rest {l : Label} : (p.rest m g).label? x = some l ↔ g.label? x = some l ∧ ¬ p.Erases m x := by
  rw [rest, eraseVertices_fst, Graph.label?_foldl_eraseVertex, eraseEdges_fst, Graph.label?_foldl_eraseEdge,
    erases_iff_mem]
  split <;> simp [*]

theorem contains_rest : (p.rest m g).contains x = true ↔ g.contains x = true ∧ ¬ p.Erases m x := by
  simp only [Graph.contains_iff_label?, label?_rest, exists_and_right]

theorem successors_rest (hg : g.WellFormed) : (p.rest m g).successors x = (g.successors x).filter fun y =>
    ¬ p.Erases m x ∧ ¬ p.Erases m y ∧ (x, y) ∉ p.lostEdges m (p.carryOver m) := by
  simp only [erases_iff_mem]
  rw [rest, eraseVertices_fst, hg.eraseEdges.successors_foldl_eraseVertex, eraseEdges_fst,
    hg.successors_foldl_eraseEdge]
  split
  · next erased =>
    symm
    rw [List.filter_eq_nil_iff]
    simp [erased]
  · next stays =>
    rw [List.filter_filter]
    refine List.filter_congr fun y _ => ?_
    rw [← Bool.decide_and, decide_eq_decide, and_iff_right stays]

theorem mem_successors_rest (hg : g.WellFormed) : y ∈ (p.rest m g).successors x ↔
    y ∈ g.successors x ∧ ¬ p.Erases m x ∧ ¬ p.Erases m y ∧ (x, y) ∉ p.lostEdges m (p.carryOver m) := by
  rw [successors_rest hg, List.mem_filter, decide_eq_true_eq]

theorem nextFresh_rest : (p.rest m g).nextFresh = g.nextFresh := by
  rw [rest, eraseVertices_fst, Graph.nextFresh_foldl_eraseVertex, eraseEdges_fst, Graph.nextFresh_foldl_eraseEdge]

theorem vertexCount_rest_le : (p.rest m g).vertexCount ≤ g.vertexCount := by
  have hids : (p.rest m g).ids ⊆ g.ids := fun x hx =>
    Graph.mem_ids.mpr (contains_rest.mp (Graph.mem_ids.mp hx)).1
  rw [← Graph.length_ids, ← Graph.length_ids]
  exact ((p.rest m g).nodup_ids.subperm hids).length_le

/-- An application goes through when the created vertices can be added; the other phases always do. -/
theorem commit_eq_some {s : Summary} : p.commit m g = some (g', s) ↔
    ∃ g₃ n r, p.addVertices (p.carryOver m) (p.rest m g) = some (g₃, n, r) ∧ (p.addEdges r g₃).1 = g' ∧
      ⟨(p.eraseEdges m (p.carryOver m) g).2, (p.eraseVertices m (p.eraseEdges m (p.carryOver m) g).1).2, n,
        (p.addEdges r g₃).2, r⟩ = s := by
  simp only [commit]
  rw [← rest]
  cases p.addVertices (p.carryOver m) (p.rest m g) with
  | none => simp
  | some added =>
    obtain ⟨g₃, n, r⟩ := added
    simp

theorem exists_addVertices (hp : p.Keyed)
    (room : g.nextFresh.toNat + g.vertexCount + p.created.length < UInt64.size - 1) :
    ∃ g₃ r, p.addVertices (p.carryOver m) (p.rest m g) = some (g₃, p.created.length, r) ∧
      Allocated p.created (p.rest m g) (p.carryOver m) g₃ r ∧
      g₃.FilledFrom g.nextFresh ∧ g₃.vertexCount ≤ g.vertexCount + p.created.length := by
  -- The erasing phases leave the counter as it is and do not add to the vertices, so there is room in the rest.
  have hle := vertexCount_rest_le (p := p) (m := m) (g := g)
  have hfresh := nextFresh_rest (p := p) (m := m) (g := g)
  have hn := congrArg UInt64.toNat hfresh
  obtain ⟨g₃, r, hrun, h, filled, size⟩ := Allocated.foldl (p.rest m g) (p.carryOver m) (p.rest m g).nextFresh 0
    (nodup_created hp) (by omega) (Nat.le_refl _) (Graph.filledFrom_nextFresh _)
  rw [← addVertices_eq, Nat.zero_add] at hrun
  exact ⟨g₃, r, hrun, h, hfresh ▸ filled, by omega⟩

theorem exists_commit (hp : p.Keyed)
    (room : g.nextFresh.toNat + g.vertexCount + p.created.length < UInt64.size - 1) :
    ∃ g' s, p.commit m g = some (g', s) := by
  obtain ⟨g₃, r, hrun, -⟩ := exists_addVertices (m := m) hp room
  exact ⟨_, _, commit_eq_some.mpr ⟨g₃, _, r, hrun, rfl, rfl⟩⟩

section
variable {s : Summary} (hp : p.Keyed) (room : g.nextFresh.toNat + g.vertexCount + p.created.length < UInt64.size - 1)
  (hcommit : p.commit m g = some (g', s))
include hp room hcommit

theorem exists_allocated :
    ∃ g₃, Allocated p.created (p.rest m g) (p.carryOver m) g₃ s.rhsMapping ∧
      g' = (p.addEdges s.rhsMapping g₃).1 ∧ g₃.FilledFrom g.nextFresh ∧
      g₃.vertexCount ≤ g.vertexCount + p.created.length := by
  obtain ⟨g₃, r, hrun, h, filled, size⟩ := exists_addVertices (m := m) hp room
  obtain ⟨g₃', n, r', hrun', rfl, rfl⟩ := commit_eq_some.mp hcommit
  rw [hrun] at hrun'
  cases hrun'
  exact ⟨g₃, h, rfl, filled, size⟩

/-- The counter moves behind no more numbers than there are vertices in the end, and of these there are at most as
many more as are created. -/
theorem nextFresh_commit_le :
    g'.nextFresh.toNat ≤ g.nextFresh.toNat + g'.vertexCount ∧ g'.vertexCount ≤ g.vertexCount + p.created.length := by
  obtain ⟨g₃, -, rfl, filled, size⟩ := exists_allocated hp room hcommit
  rw [addEdges_fst, Graph.nextFresh_foldl_connect, Graph.vertexCount_foldl_connect]
  exact ⟨filled.nextFresh_le, size⟩

end

end Production

/-- The phases keep the invariant whatever the mapping is. -/
theorem Graph.WellFormed.commit {p : Production} {m : Mapping} {g : Graph} {r : Graph × Summary} (hg : g.WellFormed)
    (h : p.commit m g = some r) : r.1.WellFormed := by
  obtain ⟨g', s⟩ := r
  obtain ⟨g₃, n, right, hrun, rfl, -⟩ := Production.commit_eq_some.mp h
  exact (hg.eraseEdges.eraseVertices.addVertices hrun).addEdges

/-- So do they keep it that the vertices are stored under their own identifiers, whatever else the tables are. -/
theorem Graph.Keyed.commit {p : Production} {m : Mapping} {g : Graph} {r : Graph × Summary} (hg : g.Keyed)
    (h : p.commit m g = some r) : r.1.Keyed := by
  obtain ⟨g', s⟩ := r
  obtain ⟨g₃, n, right, hrun, rfl, -⟩ := Production.commit_eq_some.mp h
  have rest : (p.rest m g).Keyed := hg.of_vertex? fun x v hx => by
    rw [Production.rest, Production.eraseVertices_fst, Graph.vertex?_foldl_eraseVertex, Production.eraseEdges_fst,
      Graph.vertex?_foldl_eraseEdge] at hx
    split at hx
    · cases hx
    · exact hx
  have added : g₃.Keyed := by
    refine foldlM_induction (·.1.Keyed) hrun rest fun s hs v _ s' hs' => ?_
    obtain ⟨g₁, host, hfresh, rfl⟩ := allocate_eq_some.mp hs'
    obtain ⟨k, -, -, -, rfl⟩ := Graph.free_of_fresh hfresh
    exact Graph.Keyed.addVertex (g := { s.1 with nextFresh := k.next }) hs _
  exact added.of_vertex? fun x v hx => by rwa [Production.addEdges_fst, Graph.vertex?_foldl_connect] at hx

namespace Production

variable {p : Production} {g g' : Graph} {m r right : Mapping} {x y u v : VertexId} {s : Summary}

/-! ## The mapping of the right side -/

theorem contains_rest_of_preserved (hm : IsEmbedding p.lhs g m) (hr : p.rhs.contains x = true)
    (hx : m.get? x = some u) : (p.rest m g).contains u = true := by
  have carried : p.Carries m x u := ⟨hm.contains_of_image hx, hr, hx⟩
  exact contains_rest.mpr (carried.stays hm)

section RhsMapping
variable {g₃ : Graph} (hp : p.Keyed) (hm : IsEmbedding p.lhs g m)
  (h : Allocated p.created (p.rest m g) (p.carryOver m) g₃ r)
include hp h

theorem get?_of_known (hx : p.lhs.contains x = true) : r.get? x = if p.rhs.contains x then m.get? x else none := by
  rw [h.others x (by simp [mem_map_id_created hp, hx]), get?_carryOver]

theorem get?_of_unknown (hx : p.rhs.contains x = false) : r.get? x = none := by
  rw [h.others x (by simp [mem_map_id_created hp, hx]), get?_carryOver, hx]
  rfl

/-- A created vertex has a fresh name and a label on the right side, which it keeps. -/
theorem exists_name (hl : p.lhs.contains x = false) (hr : p.rhs.contains x = true) :
    ∃ k l, r.get? x = some (.numbered k) ∧ (p.rest m g).contains (.numbered k) = false ∧
      p.rhs.label? x = some l ∧ g₃.label? (.numbered k) = some l := by
  obtain ⟨l, hlabel⟩ := Graph.contains_iff_label?.mp hr
  have hc : (⟨x, l⟩ : Vertex) ∈ p.created := (mem_created hp).mpr ⟨hlabel, hl⟩
  obtain ⟨k, hk, -, -, free⟩ := h.name _ hc
  exact ⟨k, l, hk, free, hlabel, (h.label? _ _).mpr (.inr ⟨_, hc, hk, rfl⟩)⟩

include hm

theorem rhsMapping_contains : r.contains x = true ↔ p.rhs.contains x = true := by
  cases hr : p.rhs.contains x with
  | false => simp [Mapping.contains_eq_isSome, get?_of_unknown hp h hr]
  | true =>
    refine iff_of_true (Mapping.contains_iff_get?.mpr ?_) rfl
    cases hl : p.lhs.contains x with
    | true =>
      rw [get?_of_known hp h hl, if_pos hr]
      exact hm.exists_image hl
    | false =>
      obtain ⟨k, _, hk, -⟩ := exists_name hp h hl hr
      exact ⟨_, hk⟩

theorem rhsMapping_injective : r.Injective := by
  intro x y z hx hy
  have known {x : VertexId} (hx : r.get? x = some z) (hl : p.lhs.contains x = true) :
      p.rhs.contains x = true ∧ m.get? x = some z := by
    rw [get?_of_known hp h hl] at hx
    split at hx
    · exact ⟨‹_›, hx⟩
    · cases hx
  have unknown {x : VertexId} (hx : r.get? x = some z) (hl : p.lhs.contains x = false) :
      (p.rest m g).contains z = false ∧ ∃ l, (⟨x, l⟩ : Vertex) ∈ p.created := by
    have hr := (rhsMapping_contains hp hm h).mp (Mapping.contains_iff_get?.mpr ⟨z, hx⟩)
    obtain ⟨k, l, hk, free, hlabel, -⟩ := exists_name hp h hl hr
    rw [hx, Option.some.injEq] at hk
    exact ⟨hk ▸ free, l, (mem_created hp).mpr ⟨hlabel, hl⟩⟩
  -- An image of a preserved vertex is a vertex of the rest, a fresh name is not.
  cases hlx : p.lhs.contains x <;> cases hly : p.lhs.contains y
  · obtain ⟨-, l, hcx⟩ := unknown hx hlx
    obtain ⟨-, l', hcy⟩ := unknown hy hly
    exact h.distinct _ hcx _ hcy (hx.trans hy.symm)
  · obtain ⟨hr, hmy⟩ := known hy hly
    have hz := contains_rest_of_preserved hm hr hmy
    rw [(unknown hx hlx).1] at hz
    cases hz
  · obtain ⟨hr, hmx⟩ := known hx hlx
    have hz := contains_rest_of_preserved hm hr hmx
    rw [(unknown hy hly).1] at hz
    cases hz
  · exact hm.injective x y z (known hx hlx).2 (known hy hly).2

theorem contains_rhsMapping (hx : r.get? x = some u) : g₃.contains u = true := by
  have hr := (rhsMapping_contains hp hm h).mp (Mapping.contains_iff_get?.mpr ⟨u, hx⟩)
  cases hl : p.lhs.contains x with
  | true =>
    rw [get?_of_known hp h hl, if_pos hr] at hx
    obtain ⟨l, hlu⟩ := Graph.contains_iff_label?.mp (contains_rest_of_preserved hm hr hx)
    exact Graph.contains_of_label? ((h.label? u l).mpr (.inl hlu))
  | false =>
    obtain ⟨k, l, hk, -, -, hlabel⟩ := exists_name hp h hl hr
    rw [hx, Option.some.injEq] at hk
    exact hk ▸ Graph.contains_of_label? hlabel

theorem get?_of_carryOver (hx : (p.carryOver m).get? x = some u) : r.get? x = some u := by
  rw [get?_carryOver] at hx
  split at hx
  · next hr => rw [get?_of_known hp h (hm.contains_of_image hx), if_pos hr, hx]
  · cases hx

/-- Between vertices that are not erased, and apart from the images of right edges, the edges that get lost are
the images of the left edges that are no right edges. -/
theorem mem_lostEdges_iff (hu : ¬ p.Erases m u) (hv : ¬ p.Erases m v)
    (new : ¬ ∃ a b, p.rhs.hasEdge a b = true ∧ r.get? a = some u ∧ r.get? b = some v) :
    (u, v) ∈ p.lostEdges m (p.carryOver m) ↔
      ∃ a b, p.lhs.hasEdge a b = true ∧ p.rhs.hasEdge a b = false ∧ m.get? a = some u ∧ m.get? b = some v := by
  have carried {a z : VertexId} (hz : ¬ p.Erases m z) (ha : m.get? a = some z) :
      (p.carryOver m).get? a = some z := by
    obtain ⟨-, hr, -⟩ := hm.carries_of_not_erases ha hz
    rw [get?_carryOver, hr, if_pos rfl, ha]
  rw [mem_lostEdges, Bool.eq_false_iff, ne_eq, keeps_iff]
  refine ⟨?_, ?_⟩
  · intro hlost
    obtain ⟨⟨a, b, hab, ha, hb⟩, hkeep⟩ := hlost
    refine ⟨a, b, hab, Bool.eq_false_iff.mpr fun hr => hkeep ?_, ha, hb⟩
    exact ⟨a, b, hr, carried hu ha, carried hv hb⟩
  · intro himage
    obtain ⟨a, b, hab, -, ha, hb⟩ := himage
    refine ⟨⟨a, b, hab, ha, hb⟩, ?_⟩
    -- A right edge that keeps this one falls on it, and then it is no old edge.
    intro hkeep
    obtain ⟨c, d, hcd, hc, hd⟩ := hkeep
    exact new ⟨c, d, hcd, get?_of_carryOver hp hm h hc, get?_of_carryOver hp hm h hd⟩

end RhsMapping

/-! ## The result -/

/-- An application at an embedding does what `Rewrites` tells, if the counter has room for the created vertices. -/
theorem commit_rewrites (hg : g.WellFormed) (hp : p.Keyed) (hm : IsEmbedding p.lhs g m)
    (room : g.nextFresh.toNat + g.vertexCount + p.created.length < UInt64.size - 1)
    (hcommit : p.commit m g = some (g', s)) : Rewrites p m g g' s.rhsMapping := by
  obtain ⟨g₃, h, rfl, -, -⟩ := exists_allocated hp room hcommit
  generalize s.rhsMapping = r at h ⊢
  rw [addEdges_fst]
  refine ⟨fun x => rhsMapping_contains hp hm h, rhsMapping_injective hp hm h, ?_, ?_, ?_, ?_⟩
  · intro x hl hr
    rw [get?_of_known hp h hl, if_pos hr]
  · -- A fresh name is free in the rest, so a vertex that has it is one of those that are erased.
    intro c x hl hx hg
    have hr := (rhsMapping_contains hp hm h).mp (Mapping.contains_iff_get?.mpr ⟨x, hx⟩)
    obtain ⟨k, -, hk, free, -⟩ := exists_name hp h hl hr
    rw [hx, Option.some.injEq] at hk
    rw [← hk] at free
    refine Classical.byContradiction fun hn => ?_
    rw [contains_rest.mpr ⟨hg, hn⟩] at free
    cases free
  · intro x l
    rw [Graph.label?_foldl_connect, h.label?, label?_rest]
    refine or_congr Iff.rfl ⟨?_, ?_⟩
    · intro hnew
      obtain ⟨c, hc, hx, rfl⟩ := hnew
      obtain ⟨hlabel, hl⟩ := (mem_created hp).mp hc
      exact ⟨c.id, hl, hlabel, hx⟩
    · intro hnew
      obtain ⟨c, hl, hlabel, hx⟩ := hnew
      exact ⟨⟨c, l⟩, (mem_created hp).mpr ⟨hlabel, hl⟩, hx, rfl⟩
  · intro u v
    have ends : (∃ a b, p.rhs.hasEdge a b = true ∧ r.get? a = some u ∧ r.get? b = some v) →
        g₃.contains u = true ∧ g₃.contains v = true := by
      intro himage
      obtain ⟨a, b, -, ha, hb⟩ := himage
      exact ⟨contains_rhsMapping hp hm h ha, contains_rhsMapping hp hm h hb⟩
    rw [Graph.hasEdge_iff, Graph.mem_successors_foldl_connect, h.successors, mem_successors_rest hg, mem_images,
      and_iff_left_of_imp ends, or_comm]
    -- Where an image of a right edge is, no old edge matters; elsewhere the old edges are told apart.
    refine or_congr_right' fun new => ?_
    rw [Graph.hasEdge_iff]
    refine and_congr_right fun _ => and_congr_right fun hu => and_congr_right fun hv => not_congr ?_
    exact mem_lostEdges_iff hp hm h hu hv new

/-- An accepted mapping is applied, and some of the room in the counter is left for a next application. -/
theorem exists_apply (hg : g.WellFormed) (hp : p.Keyed) (hm : p.validate g m = .ok ())
    (room : g.nextFresh.toNat + g.vertexCount + p.created.length < UInt64.size - 1) :
    ∃ g' s, p.apply m g = some (g', .ok s) ∧ Rewrites p m g g' s.rhsMapping ∧ g'.WellFormed ∧
      g'.nextFresh.toNat + g'.vertexCount ≤ g.nextFresh.toNat + 2 * (g.vertexCount + p.created.length) := by
  obtain ⟨g', s, hcommit⟩ := exists_commit (m := m) hp room
  obtain ⟨hn, hsize⟩ := nextFresh_commit_le hp room hcommit
  refine ⟨g', s, apply_eq_ok.mpr ⟨hm, hcommit⟩, commit_rewrites hg hp ((validate_iff hp.lhs).mp hm) room hcommit,
    hg.commit hcommit, ?_⟩
  omega

/-- A mapping that is accepted is applied, and the application does what `Rewrites` tells. -/
theorem apply_rewrites (hg : g.WellFormed) (hp : p.Keyed) (hm : p.validate g m = .ok ())
    (room : g.nextFresh.toNat + g.vertexCount + p.created.length < UInt64.size - 1) :
    ∃ g' s, p.apply m g = some (g', .ok s) ∧ Rewrites p m g g' s.rhsMapping := by
  obtain ⟨g', s, happly, h, -⟩ := exists_apply hg hp hm room
  exact ⟨g', s, happly, h⟩

section
/-- Two vertices with edges both ways and a loop. Their names are the first fresh ones. -/
def ring : Graph :=
  let a : Vertex := ⟨⟨"v0"⟩, ⟨"A"⟩⟩
  let b : Vertex := ⟨⟨"v1"⟩, ⟨"B"⟩⟩
  (((Graph.empty.addEdge a b).1.addEdge b a).1.addEdge a a).1

/-- Puts another vertex in the place of the source of an edge, and declares another label at the target. -/
def replaceSource : Production where
  lhs := (Graph.empty.addEdge ⟨⟨"x"⟩, ⟨"A"⟩⟩ ⟨⟨"y"⟩, ⟨"B"⟩⟩).1
  rhs := (Graph.empty.addEdge ⟨⟨"z"⟩, ⟨"C"⟩⟩ ⟨⟨"y"⟩, ⟨"D"⟩⟩).1

def sourceOfRing : Mapping := .ofList [(⟨"x"⟩, ⟨"v0"⟩), (⟨"y"⟩, ⟨"v1"⟩)]

/-- The vertex that is created gets the name of the one that is erased, and neither its edges nor its loop. -/
theorem apply_replaceSource :
    ring.WellFormed ∧ replaceSource.Keyed ∧ replaceSource.validate ring sourceOfRing = .ok () ∧
      ring.nextFresh.toNat + ring.vertexCount + replaceSource.created.length < UInt64.size - 1 ∧
      ∃ g' s, replaceSource.apply sourceOfRing ring = some (g', .ok s) ∧
        Rewrites replaceSource sourceOfRing ring g' s.rhsMapping ∧
        g'.vertices = [⟨⟨"v0"⟩, ⟨"C"⟩⟩, ⟨⟨"v1"⟩, ⟨"B"⟩⟩] ∧ g'.edges = [(⟨"v0"⟩, ⟨"v1"⟩)] := by
  have hg : ring.WellFormed := ((Graph.WellFormed.empty.addEdge _ _).addEdge _ _).addEdge _ _
  have hm : replaceSource.validate ring sourceOfRing = .ok () := by decide +kernel
  have room : ring.nextFresh.toNat + ring.vertexCount + replaceSource.created.length < UInt64.size - 1 := by
    decide +kernel
  have hp : replaceSource.Keyed :=
    ⟨(Graph.WellFormed.empty.addEdge _ _).keyed, (Graph.WellFormed.empty.addEdge _ _).keyed⟩
  obtain ⟨g', s, happly, h⟩ := apply_rewrites hg hp hm room
  have run : (replaceSource.apply sourceOfRing ring).map (fun r => (r.1.vertices, r.1.edges)) =
      some ([⟨⟨"v0"⟩, ⟨"C"⟩⟩, ⟨⟨"v1"⟩, ⟨"B"⟩⟩], [(⟨"v0"⟩, ⟨"v1"⟩)]) := by
    decide +kernel
  rw [happly, Option.map_some, Option.some.injEq, Prod.mk.injEq] at run
  exact ⟨hg, hp, hm, room, g', s, happly, h, run⟩

end

end Production
end GraphGrammar
