import GraphGrammar.Proofs.Reachability
import GraphGrammar.Proofs.SearchView

/-!
# Building a production again from listings

Graphs can be written down as listings of their vertices and edges, and a production can be built from such listings.
Nothing of the graphs is lost that a production is used for: all three tables come back as they were, the order of
targets included, because the edges of one source are listed in their order and no entry is left over that no listing
shows. Only the counter starts anew, which neither a search nor an application reads off a pattern.
-/

namespace GraphGrammar
open Std

/-! ## Listings of graphs -/

theorem PatternDefinition.Presents.unique {d : PatternDefinition} {g g' : Graph} (h : d.Presents g)
    (h' : d.Presents g') : g = g' := by
  apply h.wellFormed.ext_readers h'.wellFormed
  · intro x
    ext l
    rw [h.label?, h'.label?]
  · intro x
    rw [h.successors, h'.successors]
  · rw [h.nextFresh, h'.nextFresh]

namespace Graph

variable {g : Graph}

def listing (g : Graph) : PatternDefinition := { vertices := g.vertices, edges := g.edges }

theorem declares_listing (hg : g.Keyed) (x : VertexId) : g.listing.Declares x ↔ g.contains x = true := by
  rw [← mem_ids, ← hg.map_id_vertices, List.mem_map]
  rfl

namespace WellFormed

variable (hg : g.WellFormed)
include hg

theorem targets_listing (x : VertexId) : g.listing.targets x = g.successors x := by
  calc g.listing.targets x
      = ((g.edges.filter (·.1 = x)).map Prod.snd).eraseDups := rfl
    _ = (g.successors x).eraseDups := by rw [map_snd_edges_from]
    _ = g.successors x := eraseDups_of_nodup (hg.nodup x)

theorem wellFormed_listing : g.listing.WellFormed where
  labels := labelsAgree_vertices hg.keyed
  ends e he := by
    have hmem : e.2 ∈ g.successors e.1 := mem_edges.mp he
    rw [declares_listing hg.keyed, declares_listing hg.keyed]
    exact ⟨hg.contains_source hmem, hg.contains_target _ _ hmem⟩

theorem presents_listing : g.listing.Presents { g with nextFresh := 0 } where
  wellFormed := hg.withNextFresh 0
  label? x l := (hg.keyed.mem_vertices (v := ⟨x, l⟩)).symm
  successors x := (hg.targets_listing x).symm
  nextFresh := rfl

/-- From its listings a graph is built as it was, with a counter that has not moved. -/
theorem graph_listing : g.listing.graph = { g with nextFresh := 0 } :=
  hg.wellFormed_listing.presents.unique hg.presents_listing

end WellFormed

/-- The graphs have the same tables, and so the same orders of targets. -/
structure SameTables (g g' : Graph) : Prop where
  stored : g.stored = g'.stored
  targets : g.targets = g'.targets
  sources : g.sources = g'.sources

namespace SameTables

variable {g' : Graph} (h : g.SameTables g')
include h

theorem eq_withNextFresh : g = { g' with nextFresh := g.nextFresh } := by
  obtain ⟨stored, targets, sources⟩ := h
  cases g
  congr

theorem sameContent : g.SameContent g' := by
  refine ⟨h.stored, fun x y => ?_⟩
  rw [hasEdge, hasEdge, successors, successors, h.targets]

end SameTables
end Graph

/-! ## Productions that differ in nothing that is used -/

namespace Production

/-- The productions have the same roles and the same occurrences, and they rewrite alike, in one go as in phases. -/
structure ActsAs (p q : Production) : Prop where
  name : p.name = q.name
  preserved : p.preserved = q.preserved
  deleted : p.deleted = q.deleted
  created : p.created = q.created
  relabelled : p.relabelled = q.relabelled
  isIdentity : p.isIdentity = q.isIdentity
  /-- The search ends alike, and what it finds differs in the production that it is found for alone. -/
  occurrencesOf : ∀ (settings : SearchSettings) (host : Graph) (index : Nat), settings.occurrencesOf host p index =
    (settings.occurrencesOf host q index).map (List.map fun o => { o with production := p })
  validate : ∀ (host : Graph) (m : Mapping), p.validate host m = q.validate host m
  apply : ∀ (m : Mapping) (host : Graph), p.apply m host = q.apply m host
  carryOver : ∀ left : Mapping, p.carryOver left = q.carryOver left
  eraseEdges : ∀ (left right : Mapping) (host : Graph), p.eraseEdges left right host = q.eraseEdges left right host
  eraseVertices : ∀ (left : Mapping) (host : Graph), p.eraseVertices left host = q.eraseVertices left host
  addVertices : ∀ (right : Mapping) (host : Graph), p.addVertices right host = q.addVertices right host
  addEdges : ∀ (right : Mapping) (host : Graph), p.addEdges right host = q.addEdges right host

variable {p q : Production}

theorem occurrencesOf_of_sameContent (lhs : p.lhs.SameContent q.lhs) (settings : SearchSettings) (host : Graph)
    (index : Nat) : settings.occurrencesOf host p index =
      (settings.occurrencesOf host q index).map (List.map fun o => { o with production := p }) := by
  rw [SearchSettings.occurrencesOf, SearchSettings.occurrencesOf, lhs.isEmpty, lhs.findAll]
  split
  · rfl
  · cases findAll settings.limits q.lhs host with
    | error e => rfl
    | ok ms => simp [bind, Except.bind, Except.map, pure, Except.pure, Function.comp_def]

/-- The counters of the sides are never looked at. -/
theorem actsAs_of_sameTables (name : p.name = q.name) (lhs : p.lhs.SameTables q.lhs) (rhs : p.rhs.SameTables q.rhs) :
    p.ActsAs q := by
  have occurrencesOf := occurrencesOf_of_sameContent lhs.sameContent
  obtain ⟨pname, plhs, prhs⟩ := p
  obtain ⟨qname, qlhs, qrhs⟩ := q
  obtain rfl : pname = qname := name
  have left : plhs = { qlhs with nextFresh := plhs.nextFresh } := lhs.eq_withNextFresh
  have right : prhs = { qrhs with nextFresh := prhs.nextFresh } := rhs.eq_withNextFresh
  generalize plhs.nextFresh = m at left
  generalize prhs.nextFresh = n at right
  subst left right
  exact ⟨rfl, rfl, rfl, rfl, rfl, rfl, occurrencesOf, fun _ _ => rfl, fun _ _ => rfl, fun _ => rfl, fun _ _ _ => rfl,
    fun _ _ => rfl, fun _ _ => rfl, fun _ _ => rfl⟩

/-- The graphs that two sessions leave behind make a production, and the listings of these graphs make the same one but
for the counters, so the two act alike on every host. -/
theorem ofParts_listings (name : Option String) (calls calls' : List Call) :
    ∃ p, ofParts name ((session calls).vertices, (session calls).edges)
        ((session calls').vertices, (session calls').edges) = .ok p ∧
      p.lhs.SameTables (session calls) ∧ p.rhs.SameTables (session calls') ∧
      p.ActsAs ⟨name, session calls, session calls'⟩ := by
  have hleft := Graph.WellFormed.session calls
  have hright := Graph.WellFormed.session calls'
  generalize session calls = left at hleft
  generalize session calls' = right at hright
  have built : ofParts name (left.listing.vertices, left.listing.edges)
      (right.listing.vertices, right.listing.edges) = .ok ⟨name, left.listing.graph, right.listing.graph⟩ :=
    ofParts_eq_ok.mpr ⟨⟨hleft.wellFormed_listing, hright.wellFormed_listing⟩, rfl⟩
  have lhs : left.listing.graph.SameTables left := by
    rw [hleft.graph_listing]
    exact ⟨rfl, rfl, rfl⟩
  have rhs : right.listing.graph.SameTables right := by
    rw [hright.graph_listing]
    exact ⟨rfl, rfl, rfl⟩
  exact ⟨_, built, lhs, rhs, actsAs_of_sameTables rfl lhs rhs⟩

end Production
end GraphGrammar
