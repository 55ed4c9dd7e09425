import GraphGrammar.Proofs.Declarations
import GraphGrammar.Proofs.Session

/-!
# Well-formed graphs can be built

The invariant says no more than it has to: every graph whose tables agree is what some session leaves behind, with the
targets of each vertex in the order that it has, and with its counter. So what holds of well-formed graphs is what holds
of the graphs that operations produce, and the other way round.
-/

namespace GraphGrammar
open Std

namespace Graph

variable {g g' : Graph} {x : VertexId} {es : List Edge}

/-! ## Readers tell a graph -/

namespace WellFormed

theorem getElem?_targets (hg : g.WellFormed) (x : VertexId) :
    g.targets[x]? = if g.contains x = true then some (g.successors x) else none := by
  by_cases hx : x ∈ g.targets
  · rw [if_pos ((hg.mem_targets x).mp hx), successors, ExtTreeMap.getElem?_eq_some_getElem hx, Option.getD_some]
  · rw [if_neg fun hc => hx ((hg.mem_targets x).mpr hc), ExtTreeMap.getElem?_eq_none hx]

theorem getElem?_sources (hg : g.WellFormed) (x : VertexId) :
    g.sources[x]? = if g.contains x = true then some (g.sourceSet x) else none := by
  by_cases hx : x ∈ g.sources
  · rw [if_pos ((hg.mem_sources x).mp hx), sourceSet, ExtTreeMap.getElem?_eq_some_getElem hx, Option.getD_some]
  · rw [if_neg fun hc => hx ((hg.mem_sources x).mpr hc), ExtTreeMap.getElem?_eq_none hx]

/-- Graphs with the same labels, the same targets in the same order and the same counter are one. -/
theorem ext_readers (hg : g.WellFormed) (hg' : g'.WellFormed) (label? : ∀ x, g.label? x = g'.label? x)
    (successors : ∀ x, g.successors x = g'.successors x) (nextFresh : g.nextFresh = g'.nextFresh) : g = g' := by
  have contains (x : VertexId) : g.contains x = g'.contains x := by
    rw [contains_eq_isSome, contains_eq_isSome, label?]
  have sourceSet (x : VertexId) : g.sourceSet x = g'.sourceSet x := by
    apply ExtTreeSet.ext_mem
    intro k
    rw [hg.mem_sourceSet, hg'.mem_sourceSet, successors]
  have stored : g.stored = g'.stored := hg.keyed.stored_eq hg'.keyed label?
  have targets : g.targets = g'.targets := by
    apply ExtTreeMap.ext_getElem?
    intro x
    rw [hg.getElem?_targets, hg'.getElem?_targets, contains, successors]
  have sources : g.sources = g'.sources := by
    apply ExtTreeMap.ext_getElem?
    intro x
    rw [hg.getElem?_sources, hg'.getElem?_sources, contains, sourceSet]
  cases g
  cases g'
  congr

end WellFormed

/-! ## Edges along a list -/

theorem successors_foldl_connect (nodup : es.Nodup)
    (known : ∀ e ∈ es, g.contains e.1 = true ∧ g.contains e.2 = true) (new : ∀ e ∈ es, e.2 ∉ g.successors e.1) :
    (es.foldl (fun g e => (g.connect e.1 e.2).1) g).successors x =
      g.successors x ++ (es.filter (·.1 = x)).map Prod.snd := by
  rw [successors_foldl_connect_of_known nodup known, List.filter_eq_self.mpr]
  intro y hy
  obtain ⟨e, he, rfl⟩ := List.mem_map.mp hy
  obtain ⟨hmem, hx⟩ := List.mem_filter.mp he
  obtain rfl := of_decide_eq_true hx
  exact decide_eq_true (new e hmem)

section Rows
variable {rows : List (VertexId × List VertexId)} {ts : List VertexId}

/-- The targets that a listing of rows has for one source. -/
def targetsFrom (rows : List (VertexId × List VertexId)) (x : VertexId) : List VertexId :=
  ((rows.flatMap fun (source, targets) => targets.map fun target => (source, target)).filter (·.1 = x)).map Prod.snd

theorem targetsFrom_append (rows rows' : List (VertexId × List VertexId)) (x : VertexId) :
    targetsFrom (rows ++ rows') x = targetsFrom rows x ++ targetsFrom rows' x := by
  rw [targetsFrom, List.flatMap_append, List.filter_append, List.map_append, targetsFrom, targetsFrom]

theorem targetsFrom_singleton (x : VertexId) (ts : List VertexId) : targetsFrom [(x, ts)] x = ts := by
  simp [targetsFrom, List.filter_map, Function.comp_def]

theorem targetsFrom_eq_nil (h : x ∉ rows.map Prod.fst) : targetsFrom rows x = [] := by
  rw [targetsFrom, List.map_eq_nil_iff, List.filter_eq_nil_iff]
  intro e he hx
  obtain ⟨row, hrow, hmem⟩ := List.mem_flatMap.mp he
  obtain ⟨y, -, rfl⟩ := List.mem_map.mp hmem
  exact h (of_decide_eq_true hx ▸ List.mem_map_of_mem hrow)

theorem targetsFrom_eq (keys : (rows.map Prod.fst).Nodup) (h : (x, ts) ∈ rows) : targetsFrom rows x = ts := by
  obtain ⟨before, after, rfl⟩ := List.append_of_mem h
  rw [List.map_append, List.map_cons, List.nodup_append', List.nodup_cons, List.disjoint_cons_right] at keys
  obtain ⟨-, ⟨later, -⟩, earlier, -⟩ := keys
  rw [List.append_cons, targetsFrom_append, targetsFrom_append, targetsFrom_singleton, targetsFrom_eq_nil later,
    targetsFrom_eq_nil earlier, List.nil_append, List.append_nil]

end Rows

theorem map_snd_edges_from (g : Graph) (x : VertexId) : (g.edges.filter (·.1 = x)).map Prod.snd = g.successors x := by
  change targetsFrom g.targets.toList x = g.successors x
  rw [successors]
  cases h : g.targets[x]? with
  | none =>
    rw [Option.getD_none]
    apply targetsFrom_eq_nil
    rw [ExtTreeMap.map_fst_toList_eq_keys, ExtTreeMap.mem_keys]
    exact fun hx => by simp [ExtTreeMap.getElem?_eq_some_getElem hx] at h
  | some ts =>
    rw [Option.getD_some]
    apply targetsFrom_eq
    · rw [ExtTreeMap.map_fst_toList_eq_keys]
      exact ExtTreeMap.nodup_keys
    · exact ExtTreeMap.mem_toList_iff_getElem?_eq_some.mpr h

/-! ## A session for each graph -/

/-- The calls that build a graph anew: as many names as its counter has gone through, its vertices, its edges. -/
def buildCalls (g : Graph) : List Call :=
  List.replicate g.nextFresh.toNat .fresh ++ g.vertices.map .addVertex ++ g.edges.map fun e => .connect e.1 e.2

theorem foldl_replicate_fresh {n : Nat} (room : n < UInt64.size) :
    (List.replicate n Call.fresh).foldl Call.perform ∅ = { (∅ : Graph) with nextFresh := .ofNat n } := by
  induction n with
  | zero => rfl
  | succ n ih =>
    have hn : (UInt64.ofNat n : Counter).toNat = n := Counter.toNat_ofNat (by omega)
    have hnext : Counter.next (.ofNat n) = .ofNat (n + 1) := by
      apply UInt64.toNat_inj.mp
      rw [Counter.toNat_next_of_lt (by omega), hn, Counter.toNat_ofNat room]
    rw [List.replicate_succ', List.foldl_append, ih (by omega), List.foldl_cons, List.foldl_nil, ← hnext]
    rfl

/-- The vertices of a graph under its counter, without edges. -/
def discrete (g : Graph) : Graph :=
  g.vertices.foldl (fun h v => (h.addVertex v).1) { (∅ : Graph) with nextFresh := g.nextFresh }

theorem WellFormed.discrete (g : Graph) : g.discrete.WellFormed := (empty.withNextFresh _).foldl_addVertex _

theorem labelsAgree_vertices (hg : g.Keyed) : Vertex.LabelsAgree g.vertices := by
  intro v hv w hw heq
  rw [hg.mem_vertices] at hv hw
  rw [heq, hw] at hv
  exact (Option.some.inj hv).symm

theorem firstLabel?_vertices (hg : g.Keyed) (x : VertexId) : Vertex.firstLabel? g.vertices x = g.label? x := by
  ext l
  rw [(labelsAgree_vertices hg).firstLabel?_eq_some, hg.mem_vertices]

theorem label?_discrete (hg : g.Keyed) (x : VertexId) : g.discrete.label? x = g.label? x := by
  have none : ({ (∅ : Graph) with nextFresh := g.nextFresh } : Graph).label? x = none := label?_empty
  rw [discrete, label?_foldl_addVertex, none, Option.none_or, firstLabel?_vertices hg]

theorem contains_discrete (hg : g.Keyed) (x : VertexId) : g.discrete.contains x = g.contains x := by
  rw [contains_eq_isSome, label?_discrete hg, contains_eq_isSome]

theorem successors_discrete (g : Graph) (x : VertexId) : g.discrete.successors x = [] :=
  successors_foldl_addVertex.trans successors_empty

theorem session_buildCalls_eq (g : Graph) :
    session g.buildCalls = g.edges.foldl (fun h e => (h.connect e.1 e.2).1) g.discrete := by
  have edges (h : Graph) : (g.edges.map fun e => Call.connect e.1 e.2).foldl Call.perform h =
      g.edges.foldl (fun h e => (h.connect e.1 e.2).1) h := by
    rw [List.foldl_map]
    rfl
  have vertices (h : Graph) : (g.vertices.map Call.addVertex).foldl Call.perform h =
      g.vertices.foldl (fun h v => (h.addVertex v).1) h := List.foldl_map
  rw [buildCalls, session, List.foldl_append, List.foldl_append, foldl_replicate_fresh (UInt64.toNat_lt_size _),
    UInt64.ofNat_toNat, vertices, edges, discrete]

theorem WellFormed.session_buildCalls (hg : g.WellFormed) : GraphGrammar.session g.buildCalls = g := by
  rw [session_buildCalls_eq]
  apply ext_readers ((discrete g).foldl_connect _) hg
  · intro x
    rw [label?_foldl_connect, label?_discrete hg.keyed]
  · intro x
    have known : ∀ e ∈ g.edges, g.discrete.contains e.1 = true ∧ g.discrete.contains e.2 = true := by
      intro e he
      rw [contains_discrete hg.keyed, contains_discrete hg.keyed]
      exact ⟨hg.contains_source (mem_edges.mp he), hg.contains_target _ _ (mem_edges.mp he)⟩
    rw [successors_foldl_connect (nodup_edges hg.nodup) known fun e _ => by rw [successors_discrete]; simp,
      successors_discrete, List.nil_append, map_snd_edges_from]
  · rw [nextFresh_foldl_connect, Graph.discrete, nextFresh_foldl_addVertex]

/-- The graphs that sessions leave behind are those whose tables agree, with any counter. -/
theorem wellFormed_iff_session : g.WellFormed ↔ ∃ calls, session calls = g :=
  ⟨fun hg => ⟨g.buildCalls, hg.session_buildCalls⟩, fun ⟨calls, h⟩ => h ▸ .session calls⟩

end Graph
end GraphGrammar
