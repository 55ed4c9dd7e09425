import GraphGrammar.Proofs.FindAll
import GraphGrammar.Proofs.Renaming
import GraphGrammar.Proofs.SearchView

/-!
# Searches under other names

Identifiers are looked at for their order, to break ties and to list candidates, and labels for whether they are equal;
what they are called makes no difference. With new identifiers in the order of the old ones, and labels of the pattern
that no other label of the host is mistaken for, everything that a search does is the same under the new names: what is
placed next, the links, the candidates in turn, and so what is found and where a budget ends it.
-/

namespace GraphGrammar

variable {pattern host : Graph} {a b : VertexId → VertexId} {c : Label → Label}

def Pending.rename (a b : VertexId → VertexId) (q : Pending) : Pending := ⟨a q.pattern, q.candidates.map b⟩

/-- The placement under new names; links are told by position. -/
def Placement.rename (a b : VertexId → VertexId) (p : Placement) : Placement :=
  { p with pattern := a p.pattern, candidates := p.candidates.map b }

def SearchEvent.rename (a b : VertexId → VertexId) : SearchEvent → SearchEvent
  | .tried => .tried
  | .found m => .found (m.rename a b)

/-- No other label of the host gets the new name of a label of the pattern. An injective change of labels has this
property for all patterns and hosts. -/
def Graph.KeepsApart (pattern host : Graph) (c : Label → Label) : Prop :=
  ∀ v ∈ pattern.vertices, ∀ w ∈ host.vertices, c w.label = c v.label → w.label = v.label

theorem Graph.keepsApart_of_injective (hc : Function.Injective c) : pattern.KeepsApart host c :=
  fun _ _ _ _ h => hc h

/-! ## The plan -/

namespace Graph.KeepsOrder

section

variable {placed : List VertexId} {waiting : List Pending} {q r : Pending}
variable (ha : pattern.KeepsOrder a) (hp : pattern.WellFormed)
include ha hp

section

variable (known : ∀ x ∈ placed, pattern.contains x = true)
include known

theorem linkCount (hq : pattern.contains q.pattern = true) :
    (q.rename a b).linkCount (pattern.rename a c) (placed.map a) = q.linkCount pattern placed := by
  rw [Pending.linkCount, Pending.linkCount, List.countP_map]
  refine List.countP_congr fun x hx => ?_
  rw [Function.comp_apply, Pending.rename, ha.hasEdge_rename hp c hq (known x hx),
    ha.hasEdge_rename hp c (known x hx) hq]

theorem precedes (hq : pattern.contains q.pattern = true) (hr : pattern.contains r.pattern = true) :
    (q.rename a b).precedes (pattern.rename a c) (placed.map a) (r.rename a b) = q.precedes pattern placed r := by
  rw [Pending.precedes, Pending.precedes, ha.linkCount hp known hq, ha.linkCount hp known hr]
  simp only [Pending.rename, List.length_map, ha.compare_eq hq hr]

theorem first? (hwaiting : ∀ q ∈ waiting, pattern.contains q.pattern = true) :
    Pending.first? (pattern.rename a c) (placed.map a) (waiting.map (Pending.rename a b)) =
      (Pending.first? pattern placed waiting).map (Pending.rename a b) := by
  cases waiting with
  | nil => rfl
  | cons p rest =>
    rw [List.map_cons, Pending.first?, Pending.first?, Option.map_some, List.foldl_map]
    refine congrArg some ?_
    induction rest generalizing p with
    | nil => rfl
    | cons q rest ih =>
      obtain ⟨hfirst, hrest⟩ := List.forall_mem_cons.mp hwaiting
      obtain ⟨hq, hrest⟩ := List.forall_mem_cons.mp hrest
      rw [List.foldl_cons, List.foldl_cons, ha.precedes hp known hq hfirst]
      split
      · exact ih q (List.forall_mem_cons.mpr ⟨hq, hrest⟩)
      · exact ih p (List.forall_mem_cons.mpr ⟨hfirst, hrest⟩)

theorem place (hq : pattern.contains q.pattern = true) :
    (q.rename a b).place (pattern.rename a c) (placed.map a) = (q.place pattern placed).rename a b := by
  simp only [Pending.place, Pending.rename, Placement.rename, ha.hasEdge_rename hp c hq hq, Placement.mk.injEq,
    true_and, and_true]
  rw [List.zipIdx_map, List.flatMap_map]
  refine List.flatMap_congr fun e he => ?_
  have he := known e.1 (List.fst_mem_of_mem_zipIdx he)
  simp only [Prod.map_fst, Prod.map_snd, id_eq, ha.hasEdge_rename hp c hq he, ha.hasEdge_rename hp c he hq]

end

theorem placements (count : Nat) (known : ∀ x ∈ placed, pattern.contains x = true)
    (hwaiting : ∀ q ∈ waiting, pattern.contains q.pattern = true) :
    placements (pattern.rename a c) count (placed.map a) (waiting.map (Pending.rename a b)) =
      (GraphGrammar.placements pattern count placed waiting).map (Placement.rename a b) := by
  induction count generalizing placed waiting with
  | zero => rfl
  | succ count ih =>
    rw [GraphGrammar.placements, GraphGrammar.placements, ha.first? hp known hwaiting]
    cases hnext : Pending.first? pattern placed waiting with
    | none => rfl
    | some next =>
      have hn := hwaiting next (Pending.first?_mem hnext)
      -- Those that still wait are told apart from the one that is placed by either names.
      have rest : (waiting.map (Pending.rename a b)).filter (·.pattern ≠ a next.pattern) =
          (waiting.filter (·.pattern ≠ next.pattern)).map (Pending.rename a b) := by
        rw [List.filter_map]
        refine congrArg _ (List.filter_congr fun q hq => ?_)
        rw [Function.comp_apply, decide_eq_decide]
        exact not_congr (ha.eq_iff (hwaiting q hq) hn)
      have known' : ∀ x ∈ placed ++ [next.pattern], pattern.contains x = true :=
        List.forall_mem_append.mpr ⟨known, List.forall_mem_singleton.mpr hn⟩
      have hwaiting' : ∀ q ∈ waiting.filter (·.pattern ≠ next.pattern), pattern.contains q.pattern = true :=
        fun q hq => hwaiting q (List.mem_filter.mp hq).1
      have more := ih known' hwaiting'
      rw [List.map_append, List.map_singleton, ← rest] at more
      simp only [Option.map_some, List.map_cons, ha.place hp known hn]
      exact congrArg _ more

end

variable (ha : pattern.KeepsOrder a) (hp : pattern.WellFormed) (hb : host.KeepsOrder b) (hc : pattern.KeepsApart host c)
include ha hb hc

theorem candidatesOf_rename : candidatesOf (pattern.rename a c) (host.rename b c) =
    (candidatesOf pattern host).map (Pending.rename a b) := by
  rw [candidatesOf, ha.vertices_rename, List.map_map, candidatesOf, List.map_map]
  refine List.map_congr_left fun v hv => ?_
  simp only [Function.comp_apply, hb.withLabel_rename (hc v hv)]
  rfl

include hp

theorem plan?_rename : plan? (pattern.rename a c) (host.rename b c) =
    (plan? pattern host).map (List.map (Placement.rename a b)) := by
  have waiting : ∀ q ∈ candidatesOf pattern host, pattern.contains q.pattern = true := by
    intro q hq
    obtain ⟨l, hl, -⟩ := (mem_candidatesOf hp.keyed).mp hq
    exact Graph.contains_of_label? hl
  have same := ha.placements (b := b) (c := c) hp (candidatesOf pattern host).length (List.forall_mem_nil _) waiting
  have none_left : (fun q : Pending => q.candidates.isEmpty) ∘ Pending.rename a b = fun q => q.candidates.isEmpty :=
    funext fun q => List.isEmpty_map
  rw [plan?_eq, plan?_eq, ha.candidatesOf_rename hb hc, List.any_map, List.length_map, none_left]
  split
  · rfl
  · exact congrArg some same

end Graph.KeepsOrder

/-! ## The search -/

namespace SearchEvent

theorem tries_map_rename (es : List SearchEvent) (quota : Option Nat) :
    tries (es.map (SearchEvent.rename a b)) quota = tries es quota := by
  induction es generalizing quota with
  | nil => rfl
  | cons e es ih =>
    by_cases hq : quota = some 0
    · rw [hq, tries_zero, tries_zero]
    · cases e with
      | tried => rw [List.map_cons, rename, tries_tried hq, tries_tried hq, ih]
      | found m => rw [List.map_cons, rename, tries_found hq, tries_found hq, ih]

theorem filterMap_map_rename (es : List SearchEvent) :
    (es.map (SearchEvent.rename a b)).filterMap mapping? = (es.filterMap mapping?).map (Mapping.rename a b) := by
  rw [List.filterMap_map, List.map_filterMap]
  refine congrArg (List.filterMap · es) (funext fun e => ?_)
  cases e <;> rfl

end SearchEvent

section

variable {placed : Placed} {plan : List Placement} {p : Placement} {z : VertexId}
variable (hb : host.KeepsOrder b) (hh : host.WellFormed)
include hb hh

theorem Graph.KeepsOrder.accepts (known : ∀ e ∈ placed, host.contains e.2 = true) (hz : host.contains z = true) :
    (p.rename a b).accepts (host.rename b c) (placed.map (Prod.map a b)) (b z) = p.accepts host placed z := by
  have unused : (placed.map (Prod.map a b)).any (·.2 = b z) = placed.any (·.2 = z) := by
    rw [List.any_map, Bool.eq_iff_iff, List.any_eq_true, List.any_eq_true]
    refine exists_congr fun e => and_congr_right fun he => ?_
    rw [Function.comp_apply, Prod.map_snd, decide_eq_true_eq, decide_eq_true_eq]
    exact hb.eq_iff (known e he) hz
  have admits : (p.rename a b).admits (host.rename b c) (placed.map (Prod.map a b)) (b z) = p.admits host placed z := by
    rw [Placement.admits, Placement.admits, Placement.rename, hb.hasEdge_rename hh c hz hz, Bool.eq_iff_iff]
    simp only [Bool.and_eq_true, List.all_eq_true, List.getElem?_map]
    refine and_congr_right fun _ => forall₂_congr fun link _ => ?_
    cases he : placed[link.earlier]? with
    | none => rfl
    | some e =>
      have he := known e (List.mem_of_getElem? he)
      simp only [Option.map_some, Prod.map_snd, hb.hasEdge_rename hh c hz he, hb.hasEdge_rename hh c he hz]
  rw [Placement.accepts, Placement.accepts, unused, admits]

theorem Graph.KeepsOrder.events (ha : pattern.KeepsOrder a)
    (keys : (placed.map Prod.fst ++ plan.map (·.pattern)).Nodup)
    (patterns : ∀ x ∈ placed.map Prod.fst ++ plan.map (·.pattern), pattern.contains x = true)
    (known : ∀ e ∈ placed, host.contains e.2 = true)
    (candidates : ∀ p ∈ plan, ∀ z ∈ p.candidates, host.contains z = true) :
    events (host.rename b c) (plan.map (Placement.rename a b)) (placed.map (Prod.map a b)) =
      (GraphGrammar.events host plan placed).map (SearchEvent.rename a b) := by
  induction plan generalizing placed with
  | nil =>
    rw [List.map_nil, List.append_nil] at keys patterns
    rw [List.map_nil, GraphGrammar.events, GraphGrammar.events, Mapping.ofList_rename keys (ha.injOn patterns)]
    rfl
  | cons p rest ih =>
    obtain ⟨hfirst, hrest⟩ := List.forall_mem_cons.mp candidates
    rw [List.map_cons, GraphGrammar.events, GraphGrammar.events, List.map_flatMap, Placement.rename, List.flatMap_map]
    refine List.flatMap_congr fun z hz => ?_
    have hz := hfirst z hz
    have step : (placed ++ [(p.pattern, z)]).map Prod.fst ++ rest.map (·.pattern) =
        placed.map Prod.fst ++ (p :: rest).map (·.pattern) := by simp
    have same := ih (step ▸ keys) (step ▸ patterns)
      (List.forall_mem_append.mpr ⟨known, List.forall_mem_singleton.mpr hz⟩) hrest
    rw [List.map_append, List.map_singleton] at same
    have accept := hb.accepts (a := a) (c := c) (p := p) hh known hz
    rw [Placement.rename] at accept
    rw [accept, List.map_cons]
    split
    · exact congrArg _ same
    · rfl

end

theorem Graph.KeepsOrder.events_of_plan? {plan : List Placement} (ha : pattern.KeepsOrder a) (hp : pattern.Keyed)
    (hb : host.KeepsOrder b) (hh : host.WellFormed) (h : plan? pattern host = some plan) :
    GraphGrammar.events (host.rename b c) (plan.map (Placement.rename a b)) [] =
      (GraphGrammar.events host plan []).map (SearchEvent.rename a b) := by
  have perm := plan?_perm hp h
  have patterns (x : VertexId) (hx : x ∈ plan.map (·.pattern)) : pattern.contains x = true :=
    Graph.mem_ids.mp (perm.mem_iff.mp hx)
  have candidates : ∀ p ∈ plan, ∀ z ∈ p.candidates, host.contains z = true := by
    intro p hmem z hz
    obtain ⟨-, l, -, hl⟩ := sees_of_mem_candidates hp hh.keyed h p hmem z hz
    exact Graph.contains_of_label? hl
  have same : GraphGrammar.events (host.rename b c) (plan.map (Placement.rename a b))
      (([] : Placed).map (Prod.map a b)) = (GraphGrammar.events host plan []).map (SearchEvent.rename a b) :=
    hb.events hh ha (perm.nodup_iff.mpr pattern.nodup_ids) patterns (List.forall_mem_nil _) candidates
  exact same

theorem SearchLimits.wanted_map {limits : SearchLimits} {f : Mapping → Mapping} {ms : List Mapping} :
    limits.wanted (ms.map f) = (limits.wanted ms).map f := by
  rw [wanted, wanted]
  cases limits.maxMatches with
  | none => rfl
  | some quota => exact List.map_take.symm

/-- How a search ends is settled by the candidates that it tries and by what there is to find. -/
theorem SearchLimits.Settles.map_eq {limits : SearchLimits} {f : Mapping → Mapping} {n : Nat} {ms : List Mapping}
    {r r' : Except Error (List Mapping)} (h : limits.Settles n ms r) (h' : limits.Settles n (ms.map f) r') :
    r' = r.map (List.map f) := by
  by_cases hn : limits.Affords n
  · rw [h.found hn, h'.found hn, wanted_map]
    rfl
  · obtain ⟨e, ⟨limit, hl, -, rfl⟩, he⟩ := h.exhausted hn
    obtain ⟨e', ⟨limit', hl', -, rfl⟩, he'⟩ := h'.exhausted hn
    rw [hl, Option.some.injEq] at hl'
    rw [he, he', hl']
    rfl

/-! ## What is found -/

namespace Graph.KeepsOrder

variable (ha : pattern.KeepsOrder a) (hp : pattern.WellFormed) (hb : host.KeepsOrder b) (hh : host.WellFormed)
  (hc : pattern.KeepsApart host c)
include ha hp hb hh hc

theorem searchTries_rename (quota : Option Nat) :
    searchTries (pattern.rename a c) (host.rename b c) quota = searchTries pattern host quota := by
  rw [searchTries, searchTries, ha.isEmpty_rename, ha.plan?_rename hp hb hc]
  cases hplan : plan? pattern host with
  | none => rfl
  | some plan =>
    simp only [Option.map_some, ha.events_of_plan? hp.keyed hb hh hplan, SearchEvent.tries_map_rename]

theorem embeddings_rename : embeddings (pattern.rename a c) (host.rename b c) =
    (embeddings pattern host).map (Mapping.rename a b) := by
  rw [embeddings, embeddings, ha.isEmpty_rename, ha.plan?_rename hp hb hc]
  split
  · rfl
  · cases hplan : plan? pattern host with
    | none => rfl
    | some plan =>
      simp only [Option.map_some, ← filterMap_events, ha.events_of_plan? hp.keyed hb hh hplan,
        SearchEvent.filterMap_map_rename]

theorem findAll_eq (limits : SearchLimits) : findAll limits (pattern.rename a c) (host.rename b c) =
    (findAll limits pattern host).map (List.map (Mapping.rename a b)) := by
  refine (findAll_settles limits).map_eq ?_
  rw [← ha.searchTries_rename hp hb hh hc, ← ha.embeddings_rename hp hb hh hc]
  exact findAll_settles limits

end Graph.KeepsOrder

/-- Names are opaque to the search. Under new identifiers in the order of the old ones, and new labels that keep those
of the pattern apart from the others, any limits let the same mappings be found in the same order, each under the new
names, or the search fails at the same step. A found mapping sends `a x` to `b z` exactly where it sent `x` to `z`. -/
theorem findAll_rename (limits : SearchLimits) (hp : pattern.WellFormed) (hh : host.WellFormed)
    (ha : pattern.KeepsOrder a) (hb : host.KeepsOrder b) (hc : pattern.KeepsApart host c) :
    findAll limits (pattern.rename a c) (host.rename b c) =
        (findAll limits pattern host).map (List.map (Mapping.rename a b)) ∧
      (∀ ms, findAll limits pattern host = .ok ms → ∀ m ∈ ms, ∀ u v,
        (m.rename a b).get? u = some v ↔ ∃ x z, m.get? x = some z ∧ a x = u ∧ b z = v) ∧
      findFirst limits (pattern.rename a c) (host.rename b c) =
        (findFirst limits pattern host).map (Option.map (Mapping.rename a b)) := by
  refine ⟨ha.findAll_eq hp hb hh hc limits, fun ms hms m hm u v => ?_, ?_⟩
  · have embeds := (mem_embeddings hp hh.keyed).mp ((embeddings_of_findAll hms).subset hm)
    exact Mapping.get?_rename fun x y hx hy => ha.injective ((embeds.domain x).mp hx) ((embeds.domain y).mp hy)
  · rw [findFirst, findFirst, ha.findAll_eq hp hb hh hc]
    cases findAll { limits with maxMatches := some 1 } pattern host with
    | error e => rfl
    | ok ms => exact congrArg Except.ok List.head?_map

section

def otherEnds (x : VertexId) : VertexId := if x = ⟨"x"⟩ then ⟨"t"⟩ else ⟨"u"⟩

def lettered (z : VertexId) : VertexId := ⟨"n" ++ z.name⟩

/-- Two labels change places, so that their order changes. -/
def exchanged (l : Label) : Label := if l = ⟨"A"⟩ then ⟨"B"⟩ else if l = ⟨"B"⟩ then ⟨"A"⟩ else l

/-- Both mappings are found under the new names, and a budget of two is used up at the third candidate. -/
theorem findAll_rename_leafPair :
    let pattern := mixedEdge.rename otherEnds exchanged
    let host := leafPair.rename lettered exchanged
    mixedEdge.WellFormed ∧ leafPair.WellFormed ∧ mixedEdge.KeepsOrder otherEnds ∧ leafPair.KeepsOrder lettered ∧
      mixedEdge.KeepsApart leafPair exchanged ∧ pattern.label? ⟨"t"⟩ = some ⟨"B"⟩ ∧
      findAll { stepLimit := some 3 } pattern host =
        .ok [.ofList [(⟨"t"⟩, ⟨"na"⟩), (⟨"u"⟩, ⟨"nb"⟩)], .ofList [(⟨"t"⟩, ⟨"na"⟩), (⟨"u"⟩, ⟨"nc"⟩)]] ∧
      findAll { stepLimit := some 2 } pattern host = .error (.searchBudgetExhausted 3) := by
  intro pattern host
  have hp : mixedEdge.WellFormed := Graph.WellFormed.empty.addEdge _ _
  have hh : leafPair.WellFormed := (Graph.WellFormed.empty.addEdge _ _).addEdge _ _
  have ha : mixedEdge.KeepsOrder otherEnds := by decide +kernel
  have hb : leafPair.KeepsOrder lettered := by decide +kernel
  have twice : Function.Involutive exchanged := by
    intro l
    unfold exchanged
    split_ifs <;> simp_all
  have hc : mixedEdge.KeepsApart leafPair exchanged := Graph.keepsApart_of_injective twice.injective
  obtain ⟨all, -, -⟩ := findAll_rename { stepLimit := some 3 } hp hh ha hb hc
  obtain ⟨cut, -, -⟩ := findAll_rename { stepLimit := some 2 } hp hh ha hb hc
  exact ⟨hp, hh, ha, hb, hc, by decide +kernel, all.trans (by decide +kernel), cut.trans (by decide +kernel)⟩

end

end GraphGrammar
