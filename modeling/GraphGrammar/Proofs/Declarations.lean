import GraphGrammar.Production.Definition
import GraphGrammar.Proofs.Failures
import GraphGrammar.Proofs.Phases

/-!
# Patterns from listings

A pattern can be given by any lists of vertices and edges. They make a pattern exactly if no identifier is declared with
two labels and every edge leads between declared vertices, whatever is repeated. The pattern is then told by the lists:
a vertex has its declared label, and its targets stand where they first come up. Of lists that make no pattern the first
fault is reported, vertices before edges and the left side before the right one.
-/

namespace GraphGrammar
open Std

/-! ## Labels in a list -/

namespace Vertex

variable {vs ws : List Vertex} {v : Vertex} {x : VertexId} {l : Label}

/-- The label that the first vertex of this identifier has in a list. -/
def firstLabel? (vs : List Vertex) (x : VertexId) : Option Label := (vs.find? (·.id = x)).map (·.label)

/-- No identifier stands in the list with two labels. -/
def LabelsAgree (vs : List Vertex) : Prop := ∀ v ∈ vs, ∀ w ∈ vs, v.id = w.id → v.label = w.label

instance : Decidable (LabelsAgree vs) :=
  inferInstanceAs (Decidable (∀ v ∈ vs, ∀ w ∈ vs, v.id = w.id → v.label = w.label))

@[simp] theorem firstLabel?_nil : firstLabel? [] x = none := rfl

theorem firstLabel?_cons : firstLabel? (v :: vs) x = if v.id = x then some v.label else firstLabel? vs x := by
  rw [firstLabel?, List.find?_cons]
  by_cases hx : v.id = x <;> simp [hx, firstLabel?]

theorem firstLabel?_append : firstLabel? (vs ++ ws) x = (firstLabel? vs x).or (firstLabel? ws x) := by
  rw [firstLabel?, List.find?_append, Option.map_or]
  rfl

theorem mem_of_firstLabel? (h : firstLabel? vs x = some l) : ⟨x, l⟩ ∈ vs := by
  obtain ⟨v, hv, rfl⟩ := Option.map_eq_some_iff.mp h
  have hx : v.id = x := by simpa using List.find?_some hv
  exact hx ▸ List.mem_of_find?_eq_some hv

theorem exists_firstLabel? (hv : v ∈ vs) : ∃ l, firstLabel? vs v.id = some l := by
  rw [← Option.isSome_iff_exists, firstLabel?, Option.isSome_map, List.find?_isSome]
  exact ⟨v, hv, by simp⟩

theorem firstLabel?_of_front {u : Vertex} (hu : u ∈ vs) : firstLabel? (vs ++ ws) u.id = firstLabel? vs u.id := by
  obtain ⟨l, hl⟩ := exists_firstLabel? hu
  rw [firstLabel?_append, hl, Option.some_or]

/-- Another label than that of a vertex comes first if it does so in front of the vertex. -/
theorem firstLabel?_of_differs (differs : l ≠ v.label) :
    firstLabel? (vs ++ v :: ws) v.id = some l ↔ firstLabel? vs v.id = some l := by
  rw [firstLabel?_append, firstLabel?_cons, if_pos rfl]
  cases firstLabel? vs v.id with
  | none => simpa using differs.symm
  | some l' => rw [Option.some_or]

theorem labelsAgree_iff : LabelsAgree vs ↔ ∀ v ∈ vs, firstLabel? vs v.id = some v.label := by
  refine ⟨?_, ?_⟩
  · intro h v hv
    obtain ⟨l, hl⟩ := exists_firstLabel? hv
    rw [hl, h v hv ⟨v.id, l⟩ (mem_of_firstLabel? hl) rfl]
  · intro h v hv w hw heq
    have hlabel := h v hv
    rw [heq, h w hw] at hlabel
    exact (Option.some.inj hlabel).symm

theorem LabelsAgree.firstLabel?_eq_some (h : LabelsAgree vs) : firstLabel? vs x = some l ↔ ⟨x, l⟩ ∈ vs :=
  ⟨mem_of_firstLabel?, labelsAgree_iff.mp h ⟨x, l⟩⟩

end Vertex

/-! ## Vertices along a list -/

namespace Graph

variable {g g' : Graph} {side : PatternSide} {vs : List Vertex} {es : List Edge} {v : Vertex} {e : Edge} {x : VertexId}
  {fault : ProductionFault}

/-- A vertex keeps the label that it has, or else that of the list which comes first. -/
theorem label?_foldl_addVertex :
    (vs.foldl (fun g v => (g.addVertex v).1) g).label? x = (g.label? x).or (Vertex.firstLabel? vs x) := by
  induction vs generalizing g with
  | nil => simp
  | cons v vs ih =>
    rw [List.foldl_cons, ih, label?_addVertex, Vertex.firstLabel?_cons]
    by_cases hx : v.id = x
    · subst hx
      rw [if_pos rfl]
      cases hl : g.label? v.id with
      | none => rw [if_pos ⟨rfl, label?_eq_none_iff.mp hl⟩, Option.some_or, Option.none_or]
      | some l => rw [if_neg (by simp [contains_of_label? hl]), Option.some_or, Option.some_or]
    · rw [if_neg fun h => hx h.1.symm, if_neg hx]

@[simp] theorem successors_foldl_addVertex :
    (vs.foldl (fun g v => (g.addVertex v).1) g).successors x = g.successors x :=
  foldl_unchanged (·.successors x) (fun _ _ => successors_addVertex) vs g

@[simp] theorem nextFresh_foldl_addVertex :
    (vs.foldl (fun g v => (g.addVertex v).1) g).nextFresh = g.nextFresh :=
  foldl_unchanged (·.nextFresh) (fun _ _ => nextFresh_addVertex) vs g

theorem WellFormed.foldl_addVertex (hg : g.WellFormed) (vs : List Vertex) :
    (vs.foldl (fun g v => (g.addVertex v).1) g).WellFormed :=
  List.foldlRecOn vs _ hg fun _ hg v _ => hg.addVertex v

theorem declare_eq_ok :
    g.declare side v = .ok g' ↔ g' = (g.addVertex v).1 ∧ g'.label? v.id = some v.label := by
  rw [declare]
  cases hl : g.label? v.id with
  | none =>
    have label : (g.addVertex v).1.label? v.id = some v.label := by
      rw [label?_addVertex, if_pos ⟨rfl, label?_eq_none_iff.mp hl⟩]
    dsimp only
    rw [Except.ok.injEq, eq_comm, and_iff_left_of_imp]
    rintro rfl
    exact label
  | some l =>
    have same : (g.addVertex v).1 = g := by rw [addVertex, if_pos (contains_of_label? hl)]
    rw [same]
    dsimp only
    split
    · next h =>
      rw [Except.ok.injEq, eq_comm, and_iff_left_of_imp]
      rintro rfl
      rw [hl, h]
    · next h =>
      refine ⟨fun hne => (by cases hne), ?_⟩
      rintro ⟨rfl, hlabel⟩
      rw [hl, Option.some.injEq] at hlabel
      exact absurd hlabel h

theorem declare_eq_error : g.declare side v = .error fault ↔
    ∃ l, g.label? v.id = some l ∧ l ≠ v.label ∧ fault = .conflictingLabels side v.id l v.label := by
  rw [declare]
  cases g.label? v.id with
  | none => simp
  | some l => by_cases h : l = v.label <;> simp [h, eq_comm]

/-- Declarations are accepted in turn exactly if each vertex has its label in the end. -/
theorem foldlM_declare_eq_ok : vs.foldlM (declare side) g = .ok g' ↔
    g' = vs.foldl (fun g v => (g.addVertex v).1) g ∧ ∀ v ∈ vs, g'.label? v.id = some v.label := by
  induction vs generalizing g with
  | nil =>
    rw [List.foldlM_nil, List.foldl_nil, and_iff_left (List.forall_mem_nil _)]
    exact ⟨fun h => (Except.ok.inj h).symm, fun h => congrArg Except.ok h.symm⟩
  | cons v vs ih =>
    have added : ∃ l, (g.addVertex v).1.label? v.id = some l :=
      contains_iff_label?.mp (contains_addVertex.mpr (.inr rfl))
    -- What a vertex is added with, it keeps to the end.
    have kept : (vs.foldl (fun g v => (g.addVertex v).1) (g.addVertex v).1).label? v.id =
        (g.addVertex v).1.label? v.id := by
      obtain ⟨l, hl⟩ := added
      rw [label?_foldl_addVertex, hl, Option.some_or]
    rw [List.foldlM_cons, bind_eq_ok, List.foldl_cons, List.forall_mem_cons]
    simp only [declare_eq_ok, ih]
    refine ⟨?_, ?_⟩
    · rintro ⟨g₁, ⟨rfl, hlabel⟩, rfl, others⟩
      exact ⟨rfl, kept.trans hlabel, others⟩
    · rintro ⟨rfl, hlabel, others⟩
      exact ⟨_, ⟨rfl, kept.symm.trans hlabel⟩, rfl, others⟩

def ofVertices (vs : List Vertex) : Graph := vs.foldl (fun g v => (g.addVertex v).1) ∅

theorem label?_ofVertices : (ofVertices vs).label? x = Vertex.firstLabel? vs x := by
  rw [ofVertices, label?_foldl_addVertex, label?_empty, Option.none_or]

theorem foldlM_declare_empty :
    vs.foldlM (declare side) ∅ = .ok g ↔ Vertex.LabelsAgree vs ∧ g = ofVertices vs := by
  rw [foldlM_declare_eq_ok, Vertex.labelsAgree_iff, and_comm]
  refine and_congr_left fun h => ?_
  subst h
  simp only [← label?_ofVertices]
  rfl

/-! ## Edges along a list -/

theorem draw_eq_ok : g.draw side e = .ok g' ↔
    (g.contains e.1 = true ∧ g.contains e.2 = true) ∧ g' = (g.connect e.1 e.2).1 := by
  rw [draw, connect_fst]
  by_cases known : g.contains e.1 = true ∧ g.contains e.2 = true
  · rw [connect_eq_ok known.1 known.2, if_pos known, and_iff_right known]
    dsimp only
    rw [Except.ok.injEq, eq_comm]
  · obtain ⟨fault, hfault⟩ := connect_eq_error known
    rw [hfault]
    exact ⟨fun h => (by cases h), fun h => absurd h.1 known⟩

theorem draw_eq_error : g.draw side e = .error fault ↔
    ¬ (g.contains e.1 = true ∧ g.contains e.2 = true) ∧ fault = .danglingEdge side e.1 e.2 := by
  rw [draw]
  by_cases known : g.contains e.1 = true ∧ g.contains e.2 = true
  · rw [connect_eq_ok known.1 known.2]
    exact ⟨fun h => (by cases h), fun h => absurd known h.1⟩
  · obtain ⟨cause, hcause⟩ := connect_eq_error known
    rw [hcause, and_iff_right known]
    dsimp only
    rw [Except.error.injEq, eq_comm]

theorem foldlM_draw_eq_ok : es.foldlM (draw side) g = .ok g' ↔
    (∀ e ∈ es, g.contains e.1 = true ∧ g.contains e.2 = true) ∧
      g' = es.foldl (fun g e => (g.connect e.1 e.2).1) g := by
  induction es generalizing g with
  | nil =>
    rw [List.foldlM_nil, List.foldl_nil, and_iff_right (List.forall_mem_nil _)]
    exact ⟨fun h => (Except.ok.inj h).symm, fun h => congrArg Except.ok h.symm⟩
  | cons e es ih =>
    rw [List.foldlM_cons, bind_eq_ok, List.foldl_cons, List.forall_mem_cons]
    simp only [draw_eq_ok, ih]
    refine ⟨?_, ?_⟩
    · rintro ⟨g₁, ⟨known, rfl⟩, others, rfl⟩
      simp only [contains_connect] at others
      exact ⟨⟨known, others⟩, rfl⟩
    · rintro ⟨⟨known, others⟩, rfl⟩
      refine ⟨_, ⟨known, rfl⟩, ?_, rfl⟩
      simpa only [contains_connect] using others

end Graph

/-! ## What listings make -/

namespace PatternDefinition

variable {d : PatternDefinition} {side : PatternSide} {g : Graph} {x : VertexId} {fault : ProductionFault}

def Declares (d : PatternDefinition) (x : VertexId) : Prop := ∃ v ∈ d.vertices, v.id = x

instance : Decidable (d.Declares x) := inferInstanceAs (Decidable (∃ v ∈ d.vertices, v.id = x))

/-- The lists make a pattern. -/
structure WellFormed (d : PatternDefinition) : Prop where
  /-- No identifier is declared with two labels. -/
  labels : Vertex.LabelsAgree d.vertices
  /-- Every edge leads from a declared vertex to a declared one. -/
  ends : ∀ e ∈ d.edges, d.Declares e.1 ∧ d.Declares e.2

theorem wellFormed_iff :
    d.WellFormed ↔ Vertex.LabelsAgree d.vertices ∧ ∀ e ∈ d.edges, d.Declares e.1 ∧ d.Declares e.2 :=
  ⟨fun h => ⟨h.labels, h.ends⟩, fun h => ⟨h.1, h.2⟩⟩

instance : Decidable d.WellFormed := decidable_of_iff _ wellFormed_iff.symm

/-- The targets of the listed edges of one source, each where it first comes up. -/
def targets (d : PatternDefinition) (x : VertexId) : List VertexId :=
  ((d.edges.filter (·.1 = x)).map Prod.snd).eraseDups

/-- The graph has what the lists declare and nothing else. -/
structure Presents (d : PatternDefinition) (g : Graph) : Prop where
  wellFormed : g.WellFormed
  /-- The vertices are the declared ones with their labels. -/
  label? : ∀ x l, g.label? x = some l ↔ ⟨x, l⟩ ∈ d.vertices
  successors : ∀ x, g.successors x = d.targets x
  /-- No name has been drawn. -/
  nextFresh : g.nextFresh = 0

/-- The fault that comes before all others in the lists of one side. -/
inductive FirstFault (d : PatternDefinition) (side : PatternSide) : ProductionFault → Prop
  /-- The first vertex whose label is not that of the first declaration of its identifier. -/
  | conflictingLabels {before after : List Vertex} {v : Vertex} {existing : Label}
    (split : d.vertices = before ++ v :: after)
    (agree : ∀ u ∈ before, Vertex.firstLabel? d.vertices u.id = some u.label)
    (first : Vertex.firstLabel? d.vertices v.id = some existing) (differs : existing ≠ v.label) :
    FirstFault d side (.conflictingLabels side v.id existing v.label)
  /-- The first edge with an end that is not declared, where there is no fault among the vertices. -/
  | danglingEdge {before after : List Edge} {e : Edge} (labels : Vertex.LabelsAgree d.vertices)
    (split : d.edges = before ++ e :: after) (declared : ∀ f ∈ before, d.Declares f.1 ∧ d.Declares f.2)
    (undeclared : ¬ (d.Declares e.1 ∧ d.Declares e.2)) :
    FirstFault d side (.danglingEdge side e.1 e.2)

/-- The declared vertices with the edges between them. -/
def graph (d : PatternDefinition) : Graph :=
  d.edges.foldl (fun g e => (g.connect e.1 e.2).1) (.ofVertices d.vertices)

theorem contains_ofVertices : (Graph.ofVertices d.vertices).contains x = true ↔ d.Declares x := by
  rw [Graph.contains_iff_label?, Graph.label?_ofVertices]
  refine ⟨?_, ?_⟩
  · rintro ⟨l, hl⟩
    exact ⟨⟨x, l⟩, Vertex.mem_of_firstLabel? hl, rfl⟩
  · rintro ⟨v, hv, rfl⟩
    exact Vertex.exists_firstLabel? hv

theorem foldlM_draw_eq_graph : d.edges.foldlM (Graph.draw side) (.ofVertices d.vertices) = .ok g ↔
    (∀ e ∈ d.edges, d.Declares e.1 ∧ d.Declares e.2) ∧ g = d.graph := by
  rw [Graph.foldlM_draw_eq_ok, graph]
  simp only [contains_ofVertices]

theorem ofParts_eq_ok : Graph.ofParts side d.vertices d.edges = .ok g ↔ d.WellFormed ∧ g = d.graph := by
  rw [Graph.ofParts, bind_eq_ok]
  simp only [Graph.foldlM_declare_empty]
  refine ⟨?_, ?_⟩
  · rintro ⟨_, ⟨labels, rfl⟩, h⟩
    obtain ⟨ends, rfl⟩ := foldlM_draw_eq_graph.mp h
    exact ⟨⟨labels, ends⟩, rfl⟩
  · rintro ⟨h, rfl⟩
    exact ⟨_, ⟨h.labels, rfl⟩, foldlM_draw_eq_graph.mpr ⟨h.ends, rfl⟩⟩

/-- What the lists make is told by them. -/
theorem WellFormed.presents (h : d.WellFormed) : d.Presents d.graph where
  wellFormed := (Graph.WellFormed.empty.foldl_addVertex _).foldl_connect _
  label? x l := by rw [graph, Graph.label?_foldl_connect, Graph.label?_ofVertices, h.labels.firstLabel?_eq_some]
  successors x := by
    have known : ∀ e ∈ d.edges, (Graph.ofVertices d.vertices).contains e.1 = true ∧
        (Graph.ofVertices d.vertices).contains e.2 = true := by
      simpa only [contains_ofVertices] using h.ends
    have none : (Graph.ofVertices d.vertices).successors x = [] :=
      Graph.successors_foldl_addVertex.trans Graph.successors_empty
    rw [graph, Graph.successors_foldl_connect_firsts known, none, targets]
    simp
  nextFresh := Graph.nextFresh_foldl_connect.trans Graph.nextFresh_foldl_addVertex

/-! ## The first fault of a side -/

theorem foldlM_declare_eq_error : d.vertices.foldlM (Graph.declare side) ∅ = .error fault ↔
    ∃ before v after existing, d.vertices = before ++ v :: after ∧
      (∀ u ∈ before, Vertex.firstLabel? d.vertices u.id = some u.label) ∧
      Vertex.firstLabel? d.vertices v.id = some existing ∧ existing ≠ v.label ∧
      fault = .conflictingLabels side v.id existing v.label := by
  rw [foldlM_eq_error]
  simp only [Graph.foldlM_declare_empty, Graph.declare_eq_error, Vertex.labelsAgree_iff]
  refine ⟨?_, ?_⟩
  · rintro ⟨before, v, after, _, split, ⟨agree, rfl⟩, existing, first, differs, rfl⟩
    rw [Graph.label?_ofVertices] at first
    rw [split]
    refine ⟨before, v, after, existing, rfl, fun u hu => ?_, ?_, differs, rfl⟩
    · rw [Vertex.firstLabel?_of_front hu, agree u hu]
    · rwa [Vertex.firstLabel?_of_differs differs]
  · rintro ⟨before, v, after, existing, split, agree, first, differs, rfl⟩
    rw [split] at agree first
    refine ⟨before, v, after, _, split, ⟨fun u hu => ?_, rfl⟩, existing, ?_, differs, rfl⟩
    · rw [← Vertex.firstLabel?_of_front hu, agree u hu]
    · rwa [Graph.label?_ofVertices, ← Vertex.firstLabel?_of_differs differs]

theorem foldlM_draw_eq_error : d.edges.foldlM (Graph.draw side) (.ofVertices d.vertices) = .error fault ↔
    ∃ before e after, d.edges = before ++ e :: after ∧ (∀ f ∈ before, d.Declares f.1 ∧ d.Declares f.2) ∧
      ¬ (d.Declares e.1 ∧ d.Declares e.2) ∧ fault = .danglingEdge side e.1 e.2 := by
  rw [foldlM_eq_error]
  simp only [Graph.foldlM_draw_eq_ok, Graph.draw_eq_error]
  refine ⟨?_, ?_⟩
  · rintro ⟨before, e, after, _, split, ⟨declared, rfl⟩, undeclared, rfl⟩
    simp only [Graph.contains_foldl_connect, contains_ofVertices] at declared undeclared
    exact ⟨before, e, after, split, declared, undeclared, rfl⟩
  · rintro ⟨before, e, after, split, declared, undeclared, rfl⟩
    refine ⟨before, e, after, _, split, ⟨?_, rfl⟩, ?_, rfl⟩
    · simpa only [contains_ofVertices] using declared
    · simpa only [Graph.contains_foldl_connect, contains_ofVertices] using undeclared

theorem ofParts_eq_error : Graph.ofParts side d.vertices d.edges = .error fault ↔ d.FirstFault side fault := by
  rw [Graph.ofParts, bind_eq_error, foldlM_declare_eq_error]
  simp only [Graph.foldlM_declare_empty]
  refine ⟨?_, ?_⟩
  · rintro (⟨before, v, after, existing, split, agree, first, differs, rfl⟩ | ⟨_, ⟨labels, rfl⟩, h⟩)
    · exact .conflictingLabels split agree first differs
    · obtain ⟨before, e, after, split, declared, undeclared, rfl⟩ := foldlM_draw_eq_error.mp h
      exact .danglingEdge labels split declared undeclared
  · intro h
    cases h with
    | conflictingLabels split agree first differs => exact .inl ⟨_, _, _, _, split, agree, first, differs, rfl⟩
    | danglingEdge labels split declared undeclared =>
      exact .inr ⟨_, ⟨labels, rfl⟩, foldlM_draw_eq_error.mpr ⟨_, _, _, split, declared, undeclared, rfl⟩⟩

end PatternDefinition

/-! ## Both sides -/

namespace Production

variable {p : Production} {name : Option String} {lhs rhs : PatternDefinition} {fault : ProductionFault}

theorem ofParts_eq_ok : ofParts name (lhs.vertices, lhs.edges) (rhs.vertices, rhs.edges) = .ok p ↔
    (lhs.WellFormed ∧ rhs.WellFormed) ∧ p = ⟨name, lhs.graph, rhs.graph⟩ := by
  rw [ofParts, bind_eq_ok]
  simp only [bind_eq_ok, PatternDefinition.ofParts_eq_ok]
  refine ⟨?_, ?_⟩
  · rintro ⟨_, ⟨left, rfl⟩, _, ⟨right, rfl⟩, h⟩
    exact ⟨⟨left, right⟩, (Except.ok.inj h).symm⟩
  · rintro ⟨⟨left, right⟩, rfl⟩
    exact ⟨_, ⟨left, rfl⟩, _, ⟨right, rfl⟩, rfl⟩

theorem ofParts_eq_error : ofParts name (lhs.vertices, lhs.edges) (rhs.vertices, rhs.edges) = .error fault ↔
    lhs.FirstFault .lhs fault ∨ (lhs.WellFormed ∧ rhs.FirstFault .rhs fault) := by
  rw [ofParts, bind_eq_error]
  simp only [bind_eq_error, PatternDefinition.ofParts_eq_ok, PatternDefinition.ofParts_eq_error]
  refine or_congr_right ⟨?_, ?_⟩
  · rintro ⟨_, ⟨left, rfl⟩, right | ⟨_, -, h⟩⟩
    · exact ⟨left, right⟩
    · cases h
  · rintro ⟨left, right⟩
    exact ⟨_, ⟨left, rfl⟩, .inl right⟩

/-- Lists make a production exactly if both sides are well formed, and then each side has what its lists declare. Of
other lists the first fault is reported: one of the left side if there is one, else one of the right side. -/
theorem ofParts_first_fault (name : Option String) (lhs rhs : PatternDefinition) :
    ((∃ p, ofParts name (lhs.vertices, lhs.edges) (rhs.vertices, rhs.edges) = .ok p) ↔
        lhs.WellFormed ∧ rhs.WellFormed) ∧
      (∀ p, ofParts name (lhs.vertices, lhs.edges) (rhs.vertices, rhs.edges) = .ok p →
        p.name = name ∧ lhs.Presents p.lhs ∧ rhs.Presents p.rhs) ∧
      ∀ fault, ofParts name (lhs.vertices, lhs.edges) (rhs.vertices, rhs.edges) = .error fault ↔
        lhs.FirstFault .lhs fault ∨ (lhs.WellFormed ∧ rhs.FirstFault .rhs fault) := by
  refine ⟨?_, fun p h => ?_, fun fault => ofParts_eq_error⟩
  · simp only [ofParts_eq_ok, exists_and_left, exists_eq, and_true]
  · obtain ⟨⟨left, right⟩, rfl⟩ := ofParts_eq_ok.mp h
    exact ⟨rfl, left.presents, right.presents⟩

/-- A vertex and an edge that are listed again change nothing, and targets need not come up in order. -/
example :
    let d : PatternDefinition :=
      { vertices := [⟨⟨"b"⟩, ⟨"B"⟩⟩, ⟨⟨"a"⟩, ⟨"A"⟩⟩, ⟨⟨"b"⟩, ⟨"B"⟩⟩]
        edges := [(⟨"a"⟩, ⟨"b"⟩), (⟨"b"⟩, ⟨"b"⟩), (⟨"a"⟩, ⟨"a"⟩), (⟨"a"⟩, ⟨"b"⟩)] }
    d.WellFormed ∧ d.targets ⟨"a"⟩ = [⟨"b"⟩, ⟨"a"⟩] := by
  decide +kernel

/-- Two labels on the left side are reported, and neither the edge next to them nor the other side. -/
example :
    ofParts none ([⟨⟨"a"⟩, ⟨"A"⟩⟩, ⟨⟨"b"⟩, ⟨"B"⟩⟩, ⟨⟨"a"⟩, ⟨"B"⟩⟩], [(⟨"a"⟩, ⟨"z"⟩)]) ([], [(⟨"c"⟩, ⟨"c"⟩)]) =
      .error (.conflictingLabels .lhs ⟨"a"⟩ ⟨"A"⟩ ⟨"B"⟩) := by
  decide +kernel

end Production
end GraphGrammar
