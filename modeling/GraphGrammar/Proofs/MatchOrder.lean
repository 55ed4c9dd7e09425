import Mathlib.Data.Finset.Basic
import GraphGrammar.Proofs.SearchCost

/-!
# The order of the occurrences

What is found first, and so what a quota leaves and what a selection by position picks, depends on the order of the
search. Read as a tuple of images along the plan, the occurrences are listed in lexicographic order. The plan itself
has one order that the pattern and the host determine: it is greedy for placed neighbours, then for few candidates,
then for the least identifier (`IsGreedy`).
-/

namespace GraphGrammar
open Std

/-- An identifier comes before another one, as lists of code points. -/
def VertexId.CodePointsBefore (a b : VertexId) : Prop :=
  List.Lex (fun c d => c.val < d.val) a.name.toList b.name.toList

/-- The images of the vertices in the given order, as a tuple, come before those of the other mapping. -/
def ImagesBefore (order : List VertexId) (m m' : Mapping) : Prop :=
  ∃ zs zs', List.Forall₂ (fun x z => m.get? x = some z) order zs ∧
    List.Forall₂ (fun x z => m'.get? x = some z) order zs' ∧ List.Lex VertexId.CodePointsBefore zs zs'

/-- The placed vertices that share an edge with a vertex, in either direction, without the vertex itself. -/
def placedNeighbours (pattern : Graph) (placed : List VertexId) (x : VertexId) : Finset VertexId :=
  {y ∈ placed.toFinset | y ≠ x ∧ (pattern.hasEdge x y = true ∨ pattern.hasEdge y x = true)}

/-- Of two vertices that are not placed yet, `x` is to be placed before `y`: it has more placed neighbours, or as many
and fewer host vertices of its label, or as many of both and the lesser identifier. -/
def PlacedBefore (pattern host : Graph) (placed : List VertexId) (x y : VertexId) : Prop :=
  (placedNeighbours pattern placed y).card < (placedNeighbours pattern placed x).card ∨
  ((placedNeighbours pattern placed x).card = (placedNeighbours pattern placed y).card ∧
    (candidateCount pattern host x < candidateCount pattern host y ∨
      (candidateCount pattern host x = candidateCount pattern host y ∧ x < y)))

/-- The order has each vertex of the pattern once, and the next one is always to be placed before all others that are
not placed yet. -/
structure IsGreedy (pattern host : Graph) (order : List VertexId) : Prop where
  perm : order.Perm pattern.ids
  next : ∀ placed x rest, order = placed ++ x :: rest →
    ∀ y, pattern.contains y = true → y ∉ placed → y ≠ x → PlacedBefore pattern host placed x y

variable {pattern host : Graph} {placed rest rest' front : List VertexId} {order back : List Pending} {full : Placed}
  {p q : Pending} {x y : VertexId}

/-! ## The order of the plan -/

theorem PlacedBefore.asymm (h : PlacedBefore pattern host placed x y) : ¬ PlacedBefore pattern host placed y x := by
  intro h'
  rcases h with h | ⟨links, h | ⟨counts, h⟩⟩ <;> rcases h' with h' | ⟨links', h' | ⟨counts', h'⟩⟩ <;>
    first
      | omega
      | exact VertexId.lt_asymm h h'

/-- Behind the same vertices, two greedy orders place the same ones. -/
theorem IsGreedy.eq_of_prefix (h : IsGreedy pattern host (placed ++ rest))
    (h' : IsGreedy pattern host (placed ++ rest')) : rest = rest' := by
  have perm : rest.Perm rest' := (List.perm_append_left_iff placed).mp (h.perm.trans h'.perm.symm)
  induction rest generalizing placed rest' with
  | nil => exact perm.nil_eq
  | cons x rest ih =>
    cases rest' with
    | nil => exact absurd perm.eq_nil (List.cons_ne_nil x rest)
    | cons x' rest' =>
      have unplaced {y : VertexId} {tail : List VertexId} (hg : IsGreedy pattern host (placed ++ y :: tail)) :
          pattern.contains y = true ∧ y ∉ placed := by
        have hn := hg.perm.nodup_iff.mpr pattern.nodup_ids
        rw [List.nodup_append] at hn
        refine ⟨Graph.mem_ids.mp (hg.perm.mem_iff.mp (by simp)), fun hy => ?_⟩
        exact hn.2.2 y hy y List.mem_cons_self rfl
      obtain ⟨hx, hxp⟩ := unplaced h
      obtain ⟨hx', hxp'⟩ := unplaced h'
      obtain rfl : x = x' := by
        by_contra hne
        exact (h.next placed x rest rfl x' hx' hxp' (Ne.symm hne)).asymm
          (h'.next placed x' rest' rfl x hx hxp hne)
      rw [List.append_cons] at h h'
      rw [ih h h' perm.cons_inv]

theorem IsGreedy.unique (h : IsGreedy pattern host rest) (h' : IsGreedy pattern host rest') : rest = rest' := by
  have eq : IsGreedy pattern host ([] ++ rest) → IsGreedy pattern host ([] ++ rest') → rest = rest' := eq_of_prefix
  exact eq h h'

theorem linkCount_eq_card (nodup : placed.Nodup) (hx : q.pattern ∉ placed) :
    q.linkCount pattern placed = (placedNeighbours pattern placed q.pattern).card := by
  have neighbours : placedNeighbours pattern placed q.pattern =
      (placed.filter fun y => pattern.hasEdge q.pattern y || pattern.hasEdge y q.pattern).toFinset := by
    ext y
    have hne : y ∈ placed → y ≠ q.pattern := fun hy heq => hx (heq ▸ hy)
    simp only [placedNeighbours, Finset.mem_filter, List.mem_toFinset, List.mem_filter, Bool.or_eq_true]
    grind
  rw [neighbours, List.toFinset_card_of_nodup (nodup.filter _), Pending.linkCount, List.countP_eq_length_filter]

theorem candidates_length (hp : pattern.Keyed) (h : q ∈ candidatesOf pattern host) :
    q.candidates.length = candidateCount pattern host q.pattern := by
  obtain ⟨l, hl, hc⟩ := (mem_candidatesOf hp).mp h
  rw [hc, candidateCount_eq hl]

theorem Greedy.precedes (h : Greedy pattern placed order) {front : List Pending} (split : order = front ++ q :: back)
    (hp : p ∈ back) : q.precedes pattern (placed ++ front.map (·.pattern)) p = true := by
  induction front generalizing placed order with
  | nil =>
    subst split
    rw [List.map_nil, List.append_nil]
    exact h.1 p hp
  | cons r front ih =>
    subst split
    rw [List.map_cons, List.append_cons]
    exact ih h.2 rfl

/-- The vertices of a greedy order of all that waits are in the greedy order of the pattern. -/
theorem Greedy.isGreedy (hpattern : pattern.Keyed) (h : Greedy pattern [] order)
    (perm : order.Perm (candidatesOf pattern host)) : IsGreedy pattern host (order.map (·.pattern)) := by
  have ids : (order.map (·.pattern)).Perm pattern.ids := by
    have ids : (candidatesOf pattern host).map (·.pattern) = pattern.ids := map_pattern_candidatesOf hpattern
    rw [← ids]
    exact perm.map _
  refine ⟨ids, fun placed x rest split y hy hyp hne => ?_⟩
  have nodup : (placed ++ x :: rest).Nodup := split ▸ ids.nodup_iff.mpr pattern.nodup_ids
  -- The vertex `y` waits behind `x`, so that the two were compared when `x` was placed.
  obtain ⟨front, behind, rfl, rfl, hbehind⟩ := List.map_eq_append_iff.mp split
  obtain ⟨q, back, rfl, rfl, rfl⟩ := List.map_eq_cons_iff.mp hbehind
  have hmem := ids.mem_iff.mpr (Graph.mem_ids.mpr hy)
  rw [split, List.mem_append, List.mem_cons] at hmem
  obtain ⟨p, hp, rfl⟩ := List.mem_map.mp ((hmem.resolve_left hyp).resolve_left hne)
  have hprecedes := h.precedes rfl hp
  rw [List.nil_append, Pending.precedes_iff] at hprecedes
  rw [List.nodup_append] at nodup
  have hqp : q.pattern ∉ front.map (·.pattern) := fun hq => nodup.2.2 _ hq _ List.mem_cons_self rfl
  rwa [linkCount_eq_card nodup.1 hqp, linkCount_eq_card nodup.1 hyp,
    candidates_length hpattern (perm.mem_iff.mp (by simp)),
    candidates_length hpattern (perm.mem_iff.mp (by simp [hp]))] at hprecedes

/-! ## The order of the list -/

/-- The images along the order of the plan are the second components of the placed pairs. -/
theorem Places.images (hp : pattern.Keyed) (sub : order.Subperm (candidatesOf pattern host))
    (places : Places full order) :
    List.Forall₂ (fun x z => (Mapping.ofList full).get? x = some z) (order.map (·.pattern)) (full.map Prod.snd) := by
  rw [← places.map_fst, List.forall₂_map_left_iff, List.forall₂_map_right_iff, List.forall₂_same]
  intro e he
  exact (Mapping.get?_ofList (places.nodup_keys hp sub)).mpr he

theorem completions_imagesBefore (hp : pattern.Keyed) (hh : host.Keyed)
    (sub : order.Subperm (candidatesOf pattern host)) :
    ((completions host (arrange pattern [] order) []).map Mapping.ofList).Pairwise
      (ImagesBefore (order.map (·.pattern))) := by
  rw [List.pairwise_map]
  refine (completions_arrange_ordered hp hh sub).imp_of_mem fun {full full'} hfull hfull' hlex => ?_
  have places := (mem_completions_nil.mp hfull).2
  have places' := (mem_completions_nil.mp hfull').2
  exact ⟨_, _, places.images hp sub, places'.images hp sub, hlex.imp fun a b => VertexId.lt_iff_codePoints.mp⟩

/-- A search without limits succeeds. Without a plan it finds nothing. A plan has the one greedy order, and along it
the images increase from each occurrence found to those that are found later. -/
theorem findAll_ordered (hp : pattern.Keyed) (hh : host.Keyed) :
    ∃ ms, findAll {} pattern host = .ok ms ∧
      match plan? pattern host with
      | none => ms = []
      | some plan =>
        (∀ order, IsGreedy pattern host order ↔ order = plan.map (·.pattern)) ∧
          ms.Pairwise (ImagesBefore (plan.map (·.pattern))) := by
  refine ⟨embeddings pattern host, findAll_eq_embeddings, ?_⟩
  rw [embeddings]
  cases hplan : plan? pattern host with
  | none =>
    -- Without vertices no label can be missing.
    have hne : ¬ pattern.isEmpty = true := by
      intro hempty
      obtain ⟨x, l, hx, -⟩ := (exists_missing_iff hp).mp (plan?_eq_none.mp hplan)
      have hcontains := Graph.contains_of_label? hx
      rw [Graph.isEmpty_iff.mp hempty] at hcontains
      cases hcontains
    exact if_neg hne
  | some plan =>
    obtain ⟨order, perm, greedy, rfl⟩ := exists_greedy_of_plan? hp hplan
    dsimp only
    rw [map_pattern_arrange]
    have isGreedy : IsGreedy pattern host (order.map (·.pattern)) := greedy.isGreedy hp perm
    refine ⟨fun order' => ⟨fun h => ?_, ?_⟩, ?_⟩
    · exact h.unique isGreedy
    · intro heq
      subst heq
      exact isGreedy
    · split
      · exact List.pairwise_singleton ..
      · exact completions_imagesBefore hp hh perm.subperm

section

/-- Vertices of one label, without edges. -/
def alike (names : List String) : Graph := names.foldl (fun g name => (g.addVertex ⟨⟨name⟩, ⟨"X"⟩⟩).1) ∅

theorem wellFormed_alike (names : List String) : (alike names).WellFormed :=
  List.foldlRecOn names _ .empty fun _ hg _ _ => hg.addVertex _

/-- Two unlinked vertices in three of their label: both can be placed anywhere, the lesser identifier is placed first,
and the pairs come as in a dictionary. -/
theorem findAll_ordered_alike :
    (alike ["q", "p"]).Keyed ∧ (alike ["c", "a", "b"]).Keyed ∧
      IsGreedy (alike ["q", "p"]) (alike ["c", "a", "b"]) [⟨"p"⟩, ⟨"q"⟩] ∧
      ∃ ms, findAll {} (alike ["q", "p"]) (alike ["c", "a", "b"]) = .ok ms ∧
        ms.Pairwise (ImagesBefore [⟨"p"⟩, ⟨"q"⟩]) ∧
        ms.map (·.hosts) = [[⟨"a"⟩, ⟨"b"⟩], [⟨"a"⟩, ⟨"c"⟩], [⟨"b"⟩, ⟨"a"⟩], [⟨"b"⟩, ⟨"c"⟩], [⟨"c"⟩, ⟨"a"⟩],
          [⟨"c"⟩, ⟨"b"⟩]] := by
  have hp := (wellFormed_alike ["q", "p"]).keyed
  have hh := (wellFormed_alike ["c", "a", "b"]).keyed
  obtain ⟨ms, h, ordered⟩ := findAll_ordered hp hh
  have placed : (plan? (alike ["q", "p"]) (alike ["c", "a", "b"])).map (List.map (·.pattern)) =
      some [⟨"p"⟩, ⟨"q"⟩] := by
    decide +kernel
  have run : (findAll {} (alike ["q", "p"]) (alike ["c", "a", "b"])).map (List.map (·.hosts)) =
      .ok [[⟨"a"⟩, ⟨"b"⟩], [⟨"a"⟩, ⟨"c"⟩], [⟨"b"⟩, ⟨"a"⟩], [⟨"b"⟩, ⟨"c"⟩], [⟨"c"⟩, ⟨"a"⟩], [⟨"c"⟩, ⟨"b"⟩]] := by
    decide +kernel
  obtain ⟨plan, hplan, order⟩ := Option.map_eq_some_iff.mp placed
  rw [h, Except.map, Except.ok.injEq] at run
  rw [hplan] at ordered
  obtain ⟨greedy, pairs⟩ := ordered
  rw [order] at greedy pairs
  exact ⟨hp, hh, (greedy _).mpr rfl, ms, h, pairs, run⟩

end

end GraphGrammar
