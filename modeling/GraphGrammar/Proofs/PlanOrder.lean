import Mathlib.Data.List.Nodup
import Mathlib.Data.List.Perm.Basic
import GraphGrammar.Matching.Plan
import GraphGrammar.Proofs.Readers

/-!
# Plans as orders

Which vertex is placed next matters for the order of the occurrences and for the cost of the search, and not for
which occurrences there are. So a plan is taken apart: `arrange` makes placements of the vertices in any order at
all, and a plan is `arrange` of some order of all vertices of the pattern, each with the host vertices of its
label. The order is greedy: each vertex precedes those behind it at the time when it is placed.
-/

namespace GraphGrammar
open Std

variable {pattern host : Graph} {placed : List VertexId} {waiting order : List Pending} {q : Pending}

/-- The placements of vertices in the given order, behind those that are placed. -/
def arrange (pattern : Graph) : (placed : List VertexId) → (order : List Pending) → List Placement
  | _, [] => []
  | placed, q :: order => q.place pattern placed :: arrange pattern (placed ++ [q.pattern]) order

theorem exists_place_of_mem_arrange {p : Placement} (h : p ∈ arrange pattern placed order) :
    ∃ q ∈ order, ∃ placed, p = q.place pattern placed := by
  induction order generalizing placed with
  | nil => cases h
  | cons q order ih =>
    rcases List.mem_cons.mp h with rfl | h
    · exact ⟨q, List.mem_cons_self, placed, rfl⟩
    · obtain ⟨q', hq', hp⟩ := ih h
      exact ⟨q', List.mem_cons_of_mem q hq', hp⟩

theorem exists_pending_of_mem_arrange {p : Placement} (h : p ∈ arrange pattern placed order) :
    ∃ q ∈ order, p.pattern = q.pattern ∧ p.candidates = q.candidates := by
  obtain ⟨q, hq, placed', rfl⟩ := exists_place_of_mem_arrange h
  exact ⟨q, hq, rfl, rfl⟩

theorem map_pattern_arrange : (arrange pattern placed order).map (·.pattern) = order.map (·.pattern) := by
  induction order generalizing placed with
  | nil => rfl
  | cons q order ih => exact congrArg (q.pattern :: ·) ih

/-- What is placed first does not depend on what is placed later. -/
theorem take_arrange {d : Nat} : (arrange pattern placed order).take d = arrange pattern placed (order.take d) := by
  induction order generalizing placed d with
  | nil => rw [List.take_nil]; exact List.take_nil
  | cons q order ih =>
    cases d with
    | zero => rfl
    | succ d => exact congrArg (q.place pattern placed :: ·) ih

/-! ## Links -/

/-- The edge that a link of `x` with the earlier vertex `y` stands for. -/
def Link.edge (link : Link) (x y : VertexId) : Edge := if link.outgoing then (x, y) else (y, x)

/-- The links of a vertex stand for its edges with the vertices that are placed. -/
theorem mem_links_place {link : Link} : link ∈ (q.place pattern placed).links ↔
    ∃ x, placed[link.earlier]? = some x ∧ link.edge q.pattern x ∈ pattern.edges := by
  obtain ⟨earlier, outgoing⟩ := link
  simp only [Pending.place, List.mem_flatMap, Prod.exists, List.mk_mem_zipIdx_iff_getElem?, List.mem_append,
    List.mem_ite_nil_right, List.mem_singleton, Link.mk.injEq, Link.edge, Graph.hasEdge_iff]
  cases outgoing <;> simp [Graph.mem_edges]

/-! ## The next vertex -/

namespace Pending

theorem first?_mem (h : first? pattern placed waiting = some q) : q ∈ waiting := by
  cases waiting with
  | nil => cases h
  | cons p rest =>
    rw [first?, Option.some.injEq] at h
    rw [← h]
    -- The best one so far is the first of all or one of those that came after it.
    refine List.foldlRecOn rest _ (motive := (· ∈ p :: rest)) List.mem_cons_self fun best hb q hq => ?_
    split
    · exact List.mem_cons_of_mem p hq
    · exact hb

theorem exists_first? (pattern : Graph) (placed : List VertexId) (h : waiting ≠ []) :
    ∃ q, first? pattern placed waiting = some q := by
  cases waiting with
  | nil => exact absurd rfl h
  | cons p rest => exact ⟨_, rfl⟩

/-- How two waiting vertices compare: by the neighbours that are placed, the more the earlier, then by the number of
candidates, then by identifier. -/
def comparePlace (pattern : Graph) (placed : List VertexId) : Pending → Pending → Ordering :=
  compareLex
    (compareLex (fun p q => compare (q.linkCount pattern placed) (p.linkCount pattern placed))
      (compareOn fun p => p.candidates.length))
    (compareOn Pending.pattern)

instance (pattern : Graph) (placed : List VertexId) : TransCmp (comparePlace pattern placed) := by
  have more : TransCmp (compareOn fun p : Pending => p.linkCount pattern placed) := inferInstance
  have links : TransCmp fun p q : Pending => compare (q.linkCount pattern placed) (p.linkCount pattern placed) :=
    more.opposite
  exact inferInstanceAs (TransCmp (compareLex (compareLex _ _) _))

theorem precedes_iff_compare {p : Pending} :
    p.precedes pattern placed q = true ↔ comparePlace pattern placed p q = .lt :=
  Ordering.isLT_iff_eq_lt

/-- One waiting vertex precedes another one by the first of the three criteria in which they differ. -/
theorem precedes_iff {p : Pending} : p.precedes pattern placed q = true ↔
    q.linkCount pattern placed < p.linkCount pattern placed ∨
    (p.linkCount pattern placed = q.linkCount pattern placed ∧
      (p.candidates.length < q.candidates.length ∨
        (p.candidates.length = q.candidates.length ∧ p.pattern < q.pattern))) := by
  have least : compare p.pattern q.pattern = .lt ↔ p.pattern < q.pattern := Iff.rfl
  rw [precedes, Ordering.isLT_iff_eq_lt, Ordering.then_eq_lt, Ordering.then_eq_lt, Ordering.then_eq_eq,
    Nat.compare_eq_lt, Nat.compare_eq_lt, Nat.compare_eq_eq, Nat.compare_eq_eq, least]
  grind

/-- Nothing among those compared comes in front of the result. -/
theorem isLE_foldl (rest : List Pending) (p : Pending) : ∀ r ∈ p :: rest,
    (comparePlace pattern placed
      (rest.foldl (fun best q => if q.precedes pattern placed best then q else best) p) r).isLE = true := by
  induction rest generalizing p with
  | nil =>
    intro r hr
    rw [List.mem_singleton] at hr
    rw [hr, List.foldl_nil]
    exact ReflCmp.isLE_rfl
  | cons q rest ih =>
    -- The better one of the first two is at least as good as both, and the result is as good as that one.
    generalize hbest : (if q.precedes pattern placed p then q else p) = best
    have better : (comparePlace pattern placed best p).isLE = true ∧
        (comparePlace pattern placed best q).isLE = true := by
      subst hbest
      split
      · next h => exact ⟨Ordering.isLE_of_eq_lt (precedes_iff_compare.mp h), ReflCmp.isLE_rfl⟩
      · next h =>
        refine ⟨ReflCmp.isLE_rfl, OrientedCmp.isGE_iff_isLE.mp ?_⟩
        rw [precedes_iff_compare] at h
        cases hcmp : comparePlace pattern placed q p with
        | lt => exact absurd hcmp h
        | eq => rfl
        | gt => rfl
    intro r hr
    rw [List.foldl_cons, hbest]
    have first := ih best best List.mem_cons_self
    rw [List.mem_cons, List.mem_cons] at hr
    rcases hr with rfl | rfl | hr
    · exact TransCmp.isLE_trans first better.1
    · exact TransCmp.isLE_trans first better.2
    · exact ih best r (List.mem_cons_of_mem best hr)

theorem precedes_of_first? (h : first? pattern placed waiting = some q) {p : Pending} (hp : p ∈ waiting)
    (hne : p.pattern ≠ q.pattern) : q.precedes pattern placed p = true := by
  cases waiting with
  | nil => cases hp
  | cons b rest =>
    rw [first?, Option.some.injEq] at h
    have hle : (comparePlace pattern placed q p).isLE = true := by
      rw [← h]
      exact isLE_foldl rest b p hp
    rw [precedes_iff_compare]
    cases hcmp : comparePlace pattern placed q p with
    | lt => rfl
    | eq =>
      -- They compare as equal only with the same identifier.
      rw [comparePlace, compareLex, Ordering.then_eq_eq] at hcmp
      exact absurd (compare_eq_iff_eq.mp hcmp.2).symm hne
    | gt => rw [hcmp] at hle; cases hle

end Pending

/-- Each vertex of the order precedes those behind it, given what is placed before it. -/
def Greedy (pattern : Graph) : (placed : List VertexId) → (order : List Pending) → Prop
  | _, [] => True
  | placed, q :: order =>
    (∀ p ∈ order, q.precedes pattern placed p = true) ∧ Greedy pattern (placed ++ [q.pattern]) order

theorem cons_filter_perm (hn : (waiting.map (·.pattern)).Nodup) (hq : q ∈ waiting) :
    (q :: waiting.filter (·.pattern ≠ q.pattern)).Perm waiting := by
  have nodup : waiting.Nodup := hn.of_map
  have same : waiting.filter (·.pattern ≠ q.pattern) = waiting.erase q := by
    rw [nodup.erase_eq_filter]
    refine List.filter_congr fun p hp => ?_
    by_cases hpq : p = q
    · simp [hpq]
    · have hne : p.pattern ≠ q.pattern := fun e => hpq (List.inj_on_of_nodup_map hn hp hq e)
      simp [hpq, hne]
  rw [same]
  exact (List.perm_cons_erase hq).symm

/-- The placements are those of a greedy order of all that wait. -/
theorem exists_order (pattern : Graph) (placed : List VertexId) (hn : (waiting.map (·.pattern)).Nodup) :
    ∃ order, order.Perm waiting ∧ Greedy pattern placed order ∧
      placements pattern waiting.length placed waiting = arrange pattern placed order := by
  generalize hc : waiting.length = count
  induction count generalizing placed waiting with
  | zero =>
    rw [List.length_eq_zero_iff] at hc
    exact ⟨[], by rw [hc], trivial, rfl⟩
  | succ count ih =>
    -- The one that precedes the others comes first, and the rest is ordered as it is placed behind it.
    obtain ⟨q, hq⟩ := Pending.exists_first? pattern placed (List.ne_nil_of_length_eq_add_one hc)
    have perm := cons_filter_perm hn (Pending.first?_mem hq)
    obtain ⟨order, horder, greedy, h⟩ := ih (placed ++ [q.pattern]) (hn.sublist (List.filter_sublist.map _))
      (show (waiting.filter (·.pattern ≠ q.pattern)).length = count by
        have hl := perm.length_eq
        rw [List.length_cons] at hl
        omega)
    refine ⟨q :: order, (horder.cons q).trans perm, ⟨fun p hp => ?_, greedy⟩, ?_⟩
    · have hrest := List.mem_filter.mp (horder.mem_iff.mp hp)
      exact Pending.precedes_of_first? hq hrest.1 (of_decide_eq_true hrest.2)
    · rw [placements, hq]
      exact congrArg _ h

/-! ## The vertices that wait -/

/-- The vertices of the pattern, each with the host vertices of its label. -/
def candidatesOf (pattern host : Graph) : List Pending :=
  pattern.vertices.map fun v => ⟨v.id, host.withLabel v.label⟩

theorem mem_candidatesOf (hp : pattern.Keyed) :
    q ∈ candidatesOf pattern host ↔
      ∃ l, pattern.label? q.pattern = some l ∧ q.candidates = host.withLabel l := by
  obtain ⟨id, cs⟩ := q
  simp only [candidatesOf, List.mem_map, hp.mem_vertices, Pending.mk.injEq]
  refine ⟨?_, ?_⟩
  · intro h
    obtain ⟨v, hv, rfl, rfl⟩ := h
    exact ⟨v.label, hv, rfl⟩
  · intro h
    obtain ⟨l, hl, rfl⟩ := h
    exact ⟨⟨id, l⟩, hl, rfl, rfl⟩

theorem map_pattern_candidatesOf (hp : pattern.Keyed) :
    (candidatesOf pattern host).map (·.pattern) = pattern.ids := by
  rw [candidatesOf, List.map_map, ← hp.map_id_vertices]
  rfl

theorem mapM_eq_some {α β : Type} {f : α → Option β} {f' : α → β} {l : List α} (h : ∀ a ∈ l, f a = some (f' a)) :
    l.mapM f = some (l.map f') := by
  induction l with
  | nil => rfl
  | cons a l ih =>
    rw [List.mapM_cons, h a List.mem_cons_self, ih fun b hb => h b (List.mem_cons_of_mem a hb)]
    rfl

theorem mapM_eq_none {α β : Type} {f : α → Option β} {l : List α} {a : α} (ha : a ∈ l) (h : f a = none) :
    l.mapM f = none := by
  induction l with
  | nil => cases ha
  | cons b l ih =>
    rw [List.mapM_cons]
    rcases List.mem_cons.mp ha with rfl | ha
    · rw [h]; rfl
    · rw [ih ha]; cases f b <;> rfl

theorem pendings?_eq_some (h : ∀ v ∈ pattern.vertices, host.withLabel v.label ≠ []) :
    pendings? pattern host = some (candidatesOf pattern host) := by
  refine mapM_eq_some fun v hv => ?_
  split
  · exact absurd ‹_› (h v hv)
  · rfl

theorem pendings?_eq_none {v : Vertex} (hv : v ∈ pattern.vertices) (hl : host.withLabel v.label = []) :
    pendings? pattern host = none := by
  refine mapM_eq_none hv ?_
  rw [hl]

theorem plan?_eq_none : plan? pattern host = none ↔
    ∃ v ∈ pattern.vertices, host.withLabel v.label = [] := by
  rw [plan?, Option.map_eq_none_iff]
  refine ⟨fun h => Classical.byContradiction fun hn => ?_, ?_⟩
  · rw [pendings?_eq_some fun v hv hl => hn ⟨v, hv, hl⟩] at h
    cases h
  · intro h
    obtain ⟨v, hv, hl⟩ := h
    exact pendings?_eq_none hv hl

theorem exists_missing_iff (hp : pattern.Keyed) : (∃ v ∈ pattern.vertices, host.withLabel v.label = []) ↔
    ∃ x l, pattern.label? x = some l ∧ host.withLabel l = [] := by
  simp only [hp.mem_vertices]
  refine ⟨?_, ?_⟩
  · intro h
    obtain ⟨v, hv, hl⟩ := h
    exact ⟨v.id, v.label, hv, hl⟩
  · intro h
    obtain ⟨x, l, hx, hl⟩ := h
    exact ⟨⟨x, l⟩, hx, hl⟩

theorem plan?_eq : plan? pattern host =
    if (candidatesOf pattern host).any (·.candidates.isEmpty) then none
    else some (placements pattern (candidatesOf pattern host).length [] (candidatesOf pattern host)) := by
  have missing : (candidatesOf pattern host).any (·.candidates.isEmpty) = true ↔ plan? pattern host = none := by
    rw [plan?_eq_none, candidatesOf, List.any_map, List.any_eq_true]
    simp only [Function.comp_apply, List.isEmpty_iff]
  split
  · next h => exact missing.mp h
  · next h =>
    rw [missing, plan?_eq_none] at h
    rw [plan?, pendings?_eq_some fun v hv hnone => h ⟨v, hv, hnone⟩]
    rfl

/-- A plan places all vertices of the pattern, in a greedy order. -/
theorem exists_greedy_of_plan? {plan : List Placement} (hp : pattern.Keyed) (h : plan? pattern host = some plan) :
    ∃ order, order.Perm (candidatesOf pattern host) ∧ Greedy pattern [] order ∧ plan = arrange pattern [] order := by
  have labels : ∀ v ∈ pattern.vertices, host.withLabel v.label ≠ [] := by
    intro v hv hl
    rw [plan?_eq_none.mpr ⟨v, hv, hl⟩] at h
    cases h
  rw [plan?, pendings?_eq_some labels, Option.map_some, Option.some.injEq] at h
  have hn : ((candidatesOf pattern host).map (·.pattern)).Nodup := by
    rw [map_pattern_candidatesOf hp]
    exact pattern.nodup_ids
  obtain ⟨order, perm, greedy, heq⟩ := exists_order pattern [] hn
  exact ⟨order, perm, greedy, h.symm.trans heq⟩

theorem plan?_eq_some {plan : List Placement} (hp : pattern.Keyed) (h : plan? pattern host = some plan) :
    ∃ order, order.Perm (candidatesOf pattern host) ∧ plan = arrange pattern [] order := by
  obtain ⟨order, perm, -, heq⟩ := exists_greedy_of_plan? hp h
  exact ⟨order, perm, heq⟩

theorem plan?_perm {plan : List Placement} (hp : pattern.Keyed) (h : plan? pattern host = some plan) :
    (plan.map (·.pattern)).Perm pattern.ids := by
  obtain ⟨order, perm, rfl⟩ := plan?_eq_some hp h
  rw [map_pattern_arrange]
  exact (perm.map _).trans (.of_eq (map_pattern_candidatesOf hp))

end GraphGrammar
