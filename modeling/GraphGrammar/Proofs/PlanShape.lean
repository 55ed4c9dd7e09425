import Mathlib.Data.List.Sigma
import GraphGrammar.Proofs.Components

/-!
# What a plan says

A plan has each vertex of the pattern once, with the host vertices of its label, and each edge of the pattern once: a
loop at its vertex, any other edge as a link at the later one of its ends, which tells the position of the earlier one.
So a link never asks for an image that is not there yet, and the search that looks out for such links is the search
itself. The vertices of one component stand side by side, and all of them but the first have links.
-/

namespace GraphGrammar

/-- The plan has the link `k.2` at position `k.1`, and it stands for the edge. -/
def ChecksEdge (plan : List Placement) (e : Edge) (k : Nat × Link) : Prop :=
  ∃ p q, plan[k.1]? = some p ∧ k.2 ∈ p.links ∧ plan[k.2.earlier]? = some q ∧ k.2.edge p.pattern q.pattern = e

/-- The links of each vertex stand for its edges with the vertices in front of it, and for nothing else. -/
def LinksBack (pattern : Graph) (plan : List Placement) : Prop :=
  ∀ (i : Nat) (p : Placement), plan[i]? = some p → ∀ link, link ∈ p.links ↔
    link.earlier < i ∧ ∃ q, plan[link.earlier]? = some q ∧ link.edge p.pattern q.pattern ∈ pattern.edges

/-- The plan places the whole pattern in the host. -/
structure PlacesPattern (pattern host : Graph) (plan : List Placement) : Prop where
  /-- Each vertex is placed once. -/
  perm : (plan.map (·.pattern)).Perm pattern.ids
  /-- Its candidates are the host vertices of its label, in order. -/
  candidates : ∀ p ∈ plan, p.candidates.Pairwise (· < ·) ∧
    ∀ z, z ∈ p.candidates ↔ ∃ l, pattern.label? p.pattern = some l ∧ host.label? z = some l
  /-- A loop is checked at its vertex. -/
  selfLoop : ∀ p ∈ plan, p.selfLoop = pattern.hasEdge p.pattern p.pattern
  links : LinksBack pattern plan
  /-- No link is listed twice. -/
  nodup_links : ∀ p ∈ plan, p.links.Nodup
  /-- Each edge between two vertices is checked once. -/
  edges : ∀ e ∈ pattern.edges, e.1 ≠ e.2 → ∃! k, ChecksEdge plan e k
  /-- What stands between two vertices of one component is in that component. -/
  contiguous : ∀ (i j k : Nat) (p q r : Placement), i ≤ j → j ≤ k → plan[i]? = some p → plan[j]? = some q →
    plan[k]? = some r → pattern.Joined p.pattern r.pattern → pattern.Joined p.pattern q.pattern
  /-- A vertex behind another one of its component has a link. -/
  linked : ∀ (i j : Nat) (p q : Placement), i < j → plan[i]? = some p → plan[j]? = some q →
    pattern.Joined p.pattern q.pattern → q.links ≠ []

/-- Why a search that looks out for links without an image ends before all candidates are tried. -/
inductive CheckedCut where
  | cut (c : Cut)
  /-- A link tells a position at which nothing is placed. -/
  | outside

/-- The search, with a look at the positions of all links before a candidate is judged. -/
def exploreChecked (host : Graph) (limits : SearchLimits) :
    List Placement → Placed → Progress → Except CheckedCut Progress
  | [], placed, progress => (progress.record limits (.ofList placed)).mapError .cut
  | p :: rest, placed, progress =>
    p.candidates.foldlM (fun progress candidate => do
      let progress ← (progress.tick limits).mapError .cut
      if p.links.all (·.earlier < placed.length) then
        if p.accepts host placed candidate then
          exploreChecked host limits rest (placed ++ [(p.pattern, candidate)]) progress
        else
          return progress
      else
        .error .outside) progress

variable {pattern host : Graph} {limits : SearchLimits} {order : List Pending} {plan : List Placement} {placed : Placed}
  {progress : Progress} {names : List VertexId} {q : Pending} {p p' : Placement} {link : Link} {i j : Nat}
  {x y : VertexId} {e : Edge}

/-! ## Positions -/

theorem getElem?_arrange : (arrange pattern names order)[i]? =
    order[i]?.map fun q => q.place pattern (names ++ (order.take i).map (·.pattern)) := by
  induction order generalizing names i with
  | nil => rfl
  | cons q order ih =>
    cases i with
    | zero => simp [arrange]
    | succ i => simp [arrange, ih]

theorem nodup_links_place : (q.place pattern names).links.Nodup := by
  rw [Pending.place, List.nodup_flatMap]
  refine ⟨fun e _ => ?_, ?_⟩
  · dsimp only
    split_ifs <;> simp
  · -- Links with different vertices tell different positions.
    refine (List.pairwise_map.mp (List.nodup_zipIdx_map_snd names)).imp fun {e e'} hne link hlink hlink' => hne ?_
    simp only [List.mem_append, List.mem_ite_nil_right, List.mem_singleton] at hlink hlink'
    grind

/-! ## Links of a plan -/

theorem linksBack_arrange : LinksBack pattern (arrange pattern [] order) := by
  intro i p hi link
  have names : order.map (·.pattern) = (arrange pattern [] order).map (·.pattern) := map_pattern_arrange.symm
  rw [getElem?_arrange, List.nil_append] at hi
  obtain ⟨q, -, rfl⟩ := Option.map_eq_some_iff.mp hi
  rw [mem_links_place, List.map_take, names]
  simp only [List.getElem?_take, List.getElem?_map]
  split <;> simp [*, Pending.place]

theorem getElem?_map_pattern (hi : plan[i]? = some p) : (plan.map (·.pattern))[i]? = some p.pattern := by
  rw [List.getElem?_map, hi, Option.map_some]

theorem position_unique (nodup : (plan.map (·.pattern)).Nodup) (hi : plan[i]? = some p) (hj : plan[j]? = some p')
    (same : p.pattern = p'.pattern) : i = j := by
  have at_i := getElem?_map_pattern hi
  have at_j := getElem?_map_pattern hj
  rw [same] at at_i
  exact (List.getElem?_inj (List.getElem?_eq_some_iff.mp at_i).1 nodup).mp (at_i.trans at_j.symm)

section

variable (links : LinksBack pattern plan)
include links

theorem ChecksEdge.unique (nodup : (plan.map (·.pattern)).Nodup) {k k' : Nat × Link} (h : ChecksEdge plan e k)
    (h' : ChecksEdge plan e k') : k = k' := by
  obtain ⟨i, earlier, outgoing⟩ := k
  obtain ⟨i', earlier', outgoing'⟩ := k'
  obtain ⟨p, q, hp, hlink, hq, rfl⟩ := h
  obtain ⟨p', q', hp', hlink', hq', heq⟩ := h'
  have before := ((links i p hp _).mp hlink).1
  have before' := ((links i' p' hp' _).mp hlink').1
  -- With the same direction both ends agree; with the other one each end would be in front of the other.
  cases outgoing <;> cases outgoing' <;> simp only [Link.edge, Prod.mk.injEq, reduceIte, Bool.false_eq_true] at heq
  · have later : i' = i := position_unique nodup hp' hp heq.2
    have earlier_eq : earlier' = earlier := position_unique nodup hq' hq heq.1
    rw [later, earlier_eq]
  · have low := position_unique nodup hp' hq heq.1
    have high := position_unique nodup hq' hp heq.2
    omega
  · have high := position_unique nodup hq' hp heq.1
    have low := position_unique nodup hp' hq heq.2
    omega
  · have later : i' = i := position_unique nodup hp' hp heq.1
    have earlier_eq : earlier' = earlier := position_unique nodup hq' hq heq.2
    rw [later, earlier_eq]

theorem exists_checksEdge (hi : plan[i]? = some p) (hj : plan[j]? = some p')
    (he : (p.pattern, p'.pattern) ∈ pattern.edges) (hne : p.pattern ≠ p'.pattern) :
    ∃ k, ChecksEdge plan (p.pattern, p'.pattern) k := by
  rcases Nat.lt_trichotomy i j with hlt | rfl | hlt
  · refine ⟨(j, ⟨i, false⟩), p', p, hj, ?_, hi, rfl⟩
    exact (links j p' hj _).mpr ⟨hlt, p, hi, he⟩
  · rw [hi, Option.some.injEq] at hj
    exact absurd (congrArg Placement.pattern hj) hne
  · refine ⟨(i, ⟨j, true⟩), p, p', hi, ?_, hj, rfl⟩
    exact (links i p hi _).mpr ⟨hlt, p', hj, he⟩

theorem existsUnique_checksEdge (perm : (plan.map (·.pattern)).Perm pattern.ids) (hp : pattern.WellFormed)
    (he : e ∈ pattern.edges) (hne : e.1 ≠ e.2) : ∃! k, ChecksEdge plan e k := by
  obtain ⟨x, y⟩ := e
  have position {z : VertexId} (hz : pattern.contains z = true) :
      ∃ (i : Nat) (p : Placement), plan[i]? = some p ∧ p.pattern = z := by
    obtain ⟨p, hmem, rfl⟩ := List.mem_map.mp (perm.mem_iff.mpr (Graph.mem_ids.mpr hz))
    obtain ⟨i, hi⟩ := List.mem_iff_getElem?.mp hmem
    exact ⟨i, p, hi, rfl⟩
  have known := Graph.mem_edges.mp he
  obtain ⟨i, p, hi, rfl⟩ := position (hp.contains_source known)
  obtain ⟨j, p', hj, rfl⟩ := position (hp.contains_target _ _ known)
  obtain ⟨k, hk⟩ := exists_checksEdge links hi hj he hne
  have nodup := perm.nodup_iff.mpr pattern.nodup_ids
  exact ⟨k, hk, fun k' hk' => ChecksEdge.unique links nodup hk' hk⟩

end

/-! ## Components along a plan -/

theorem eq_take_append_drop {α : Type} {l : List α} {a : α} (h : l[i]? = some a) :
    l = l.take i ++ a :: l.drop (i + 1) := by
  obtain ⟨hi, rfl⟩ := List.getElem?_eq_some_iff.mp h
  rw [← List.drop_eq_getElem_cons hi, List.take_append_drop]

theorem mem_take_of_lt {α : Type} {l : List α} {a : α} (h : l[i]? = some a) (hlt : i < j) : a ∈ l.take j := by
  refine List.mem_of_getElem? (i := i) ?_
  rw [List.getElem?_take_of_lt hlt, h]

theorem mem_drop_of_lt {α : Type} {l : List α} {a : α} (h : l[i]? = some a) (hlt : j < i) : a ∈ l.drop (j + 1) := by
  refine List.mem_of_getElem? (i := i - (j + 1)) ?_
  rw [List.getElem?_drop, show j + 1 + (i - (j + 1)) = i by omega, h]

section

variable (greedy : IsGreedy pattern host (plan.map (·.pattern))) (hp : pattern.WellFormed)
include greedy hp

theorem joined_of_contiguous {k : Nat} {r : Placement} (hij : i ≤ j) (hjk : j ≤ k) (hi : plan[i]? = some p)
    (hj : plan[j]? = some p') (hk : plan[k]? = some r) (joined : pattern.Joined p.pattern r.pattern) :
    pattern.Joined p.pattern p'.pattern := by
  rcases Nat.eq_or_lt_of_le hij with rfl | hij
  · rw [hi, Option.some.injEq] at hj
    exact hj ▸ .refl _
  rcases Nat.eq_or_lt_of_le hjk with rfl | hjk
  · rw [hj, Option.some.injEq] at hk
    exact hk ▸ joined
  · exact greedy.joined_of_between hp (eq_take_append_drop (getElem?_map_pattern hj))
      (mem_take_of_lt (getElem?_map_pattern hi) hij) (mem_drop_of_lt (getElem?_map_pattern hk) hjk) joined

/-- A vertex behind another one of its component has a placed neighbour, and so a link. -/
theorem exists_link (links : LinksBack pattern plan) (hij : i < j) (hi : plan[i]? = some p) (hj : plan[j]? = some p')
    (joined : pattern.Joined p.pattern p'.pattern) : ∃ link, link ∈ p'.links := by
  have split := eq_take_append_drop (getElem?_map_pattern hj)
  obtain ⟨u, hu, he⟩ := greedy.exists_neighbour hp split (mem_take_of_lt (getElem?_map_pattern hi) hij)
    (greedy.not_mem_placed split) joined
  obtain ⟨e, he'⟩ := List.mem_iff_getElem?.mp hu
  rw [List.getElem?_take, List.getElem?_map] at he'
  split at he'
  · next hlt =>
    obtain ⟨q, hq, rfl⟩ := Option.map_eq_some_iff.mp he'
    rcases he with he | he
    · exact ⟨⟨e, false⟩, (links j p' hj _).mpr ⟨hlt, q, hq, Graph.mem_edges.mpr (Graph.hasEdge_iff.mp he)⟩⟩
    · exact ⟨⟨e, true⟩, (links j p' hj _).mpr ⟨hlt, q, hq, Graph.mem_edges.mpr (Graph.hasEdge_iff.mp he)⟩⟩
  · cases he'

end

/-! ## The plan of a search -/

theorem plan?_eq_none_iff (hp : pattern.Keyed) (hh : host.Keyed) : plan? pattern host = none ↔
    ∃ x l, pattern.label? x = some l ∧ ∀ z, host.label? z ≠ some l := by
  rw [plan?_eq_none, exists_missing_iff hp]
  simp only [List.eq_nil_iff_forall_not_mem, hh.mem_withLabel, ne_eq]

theorem placesPattern_of_plan? (hp : pattern.WellFormed) (hh : host.Keyed) (h : plan? pattern host = some plan) :
    PlacesPattern pattern host plan := by
  obtain ⟨order, perm, greedy, rfl⟩ := exists_greedy_of_plan? hp.keyed h
  have isGreedy : IsGreedy pattern host ((arrange pattern [] order).map (·.pattern)) := by
    rw [map_pattern_arrange]
    exact greedy.isGreedy hp.keyed perm
  have links : LinksBack pattern (arrange pattern [] order) := linksBack_arrange
  refine ⟨isGreedy.perm, fun p hmem => ?_, fun p hmem => ?_, links, fun p hmem => ?_, fun e he hne => ?_, ?_, ?_⟩
  · obtain ⟨q, hq, hpattern, hcandidates⟩ := exists_pending_of_mem_arrange hmem
    obtain ⟨l, hl, hlist⟩ := (mem_candidatesOf hp.keyed).mp (perm.mem_iff.mp hq)
    rw [hcandidates, hlist, hpattern, hl]
    refine ⟨hh.withLabel_ordered l, fun z => ?_⟩
    rw [hh.mem_withLabel]
    simp only [Option.some.injEq, exists_eq_left']
  · obtain ⟨q, -, names, rfl⟩ := exists_place_of_mem_arrange hmem
    rfl
  · obtain ⟨q, -, names, rfl⟩ := exists_place_of_mem_arrange hmem
    exact nodup_links_place
  · exact existsUnique_checksEdge links isGreedy.perm hp he hne
  · intro i j k p q r hij hjk hi hj hk joined
    exact joined_of_contiguous isGreedy hp hij hjk hi hj hk joined
  · intro i j p q hij hi hj joined
    obtain ⟨link, hlink⟩ := exists_link isGreedy hp links hij hi hj joined
    exact List.ne_nil_of_mem hlink

/-! ## Watching the positions -/

theorem foldlM_mapError {α σ ε ε' : Type} {f : ε → ε'} {step : σ → α → Except ε σ} {l : List α} {s : σ} :
    l.foldlM (fun s a => (step s a).mapError f) s = (l.foldlM step s).mapError f := by
  induction l generalizing s with
  | nil => rfl
  | cons a l ih =>
    rw [List.foldlM_cons, List.foldlM_cons]
    cases step s a with
    | error e => rfl
    | ok s => exact ih

/-- As long as links tell positions in front of their own, the search never leaves the placed vertices. -/
theorem exploreChecked_eq (inside : ∀ (i : Nat) (p : Placement), plan[i]? = some p →
      ∀ link ∈ p.links, link.earlier < placed.length + i) :
    exploreChecked host limits plan placed progress = (explore host limits plan placed progress).mapError .cut := by
  induction plan generalizing placed progress with
  | nil => rfl
  | cons p rest ih =>
    have checked : p.links.all (·.earlier < placed.length) = true := by
      simpa using inside 0 p rfl
    have more (candidate : VertexId) (progress : Progress) :
        exploreChecked host limits rest (placed ++ [(p.pattern, candidate)]) progress =
          (explore host limits rest (placed ++ [(p.pattern, candidate)]) progress).mapError .cut := by
      refine ih fun i q hi link hlink => ?_
      have hlt := inside (i + 1) q hi link hlink
      rw [List.length_append, List.length_singleton]
      omega
    rw [exploreChecked, explore, ← foldlM_mapError]
    refine congrArg (List.foldlM · progress p.candidates) (funext fun progress => funext fun candidate => ?_)
    cases progress.tick limits with
    | error cut => rfl
    | ok progress =>
      show (if p.links.all (·.earlier < placed.length) then _ else _) = Except.mapError _ (if _ then _ else _)
      rw [if_pos checked, more]
      split <;> rfl

/-- There is no plan exactly when a label of the pattern is on no vertex of the host. A plan places the whole pattern,
and along it the search under any limits never asks for the image at a position where nothing is placed yet. -/
theorem plan?_places (hp : pattern.WellFormed) (hh : host.Keyed) :
    (plan? pattern host = none ↔ ∃ x l, pattern.label? x = some l ∧ ∀ z, host.label? z ≠ some l) ∧
      ∀ plan, plan? pattern host = some plan → PlacesPattern pattern host plan ∧
        ∀ limits, exploreChecked host limits plan [] {} = (explore host limits plan [] {}).mapError .cut := by
  refine ⟨plan?_eq_none_iff hp.keyed hh, fun plan h => ?_⟩
  have shape := placesPattern_of_plan? hp hh h
  refine ⟨shape, fun limits => exploreChecked_eq fun i p hi link hlink => ?_⟩
  rw [List.length_nil, Nat.zero_add]
  exact ((shape.links i p hi link).mp hlink).1

section

/-- Edges both ways between `a` and `d`, one of which has a loop, and an edge from `c` to `b` apart from them. -/
def twoParts : Graph :=
  let a : Vertex := ⟨⟨"a"⟩, ⟨"A"⟩⟩
  let d : Vertex := ⟨⟨"d"⟩, ⟨"B"⟩⟩
  ((((Graph.empty.addEdge a d).1.addEdge d a).1.addEdge d d).1.addEdge ⟨⟨"c"⟩, ⟨"B"⟩⟩ ⟨⟨"b"⟩, ⟨"A"⟩⟩).1

/-- In itself, the vertex next to `a` is placed before the others, although its identifier is the greatest. -/
theorem plan?_places_twoParts :
    let as : List VertexId := [⟨"a"⟩, ⟨"b"⟩]
    let bs : List VertexId := [⟨"c"⟩, ⟨"d"⟩]
    let plan : List Placement := [⟨⟨"a"⟩, as, [], false⟩, ⟨⟨"d"⟩, bs, [⟨0, true⟩, ⟨0, false⟩], true⟩,
      ⟨⟨"b"⟩, as, [], false⟩, ⟨⟨"c"⟩, bs, [⟨2, true⟩], false⟩]
    twoParts.WellFormed ∧ loopedPair.Keyed ∧
      plan? twoParts twoParts = some plan ∧ PlacesPattern twoParts twoParts plan ∧
      (∀ limits, exploreChecked twoParts limits plan [] {} = (explore twoParts limits plan [] {}).mapError .cut) ∧
      plan? twoParts loopedPair = none := by
  intro as bs plan
  have hp : twoParts.WellFormed := (((Graph.WellFormed.empty.addEdge _ _).addEdge _ _).addEdge _ _).addEdge _ _
  have hplan : plan? twoParts twoParts = some plan := by decide +kernel
  have only_as (z : VertexId) : loopedPair.label? z ≠ some ⟨"B"⟩ := by
    have listed : loopedPair.withLabel ⟨"B"⟩ = [] := by decide +kernel
    rw [ne_eq, ← loopedPair_keyed.mem_withLabel, listed]
    exact List.not_mem_nil
  obtain ⟨-, shape⟩ := plan?_places hp hp.keyed
  obtain ⟨places, inside⟩ := shape plan hplan
  obtain ⟨missing, -⟩ := plan?_places hp loopedPair_keyed
  exact ⟨hp, loopedPair_keyed, hplan, places, inside, missing.mpr ⟨⟨"d"⟩, ⟨"B"⟩, by decide +kernel, only_as⟩⟩

end

end GraphGrammar
