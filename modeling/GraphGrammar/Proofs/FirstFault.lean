import GraphGrammar.Proofs.Collisions
import GraphGrammar.Proofs.Session

/-!
# The first fault of a mapping

A mapping can have many faults at once. `FirstFault` tells which of them is reported, by properties of the mapping, the
left side and the graph: all faults of one kind come before those of the next, and within a kind the least vertex or the
first edge comes first. `Production.validate` accepts the embeddings and reports this fault of every other mapping, and
an application that is refused changes nothing.
-/

namespace GraphGrammar

/-- An identifier is mapped that the left side does not have. -/
def Production.MapsUnknown (p : Production) (m : Mapping) (x : VertexId) : Prop :=
  m.contains x = true ∧ p.lhs.contains x = false

/-- What is wrong with the image of a vertex of the left side. -/
inductive Production.VertexFault (p : Production) (g : Graph) (m : Mapping) (x : VertexId) : MappingFault → Prop
  | missing (known : p.lhs.contains x = true) (unmapped : m.get? x = none) :
    VertexFault p g m x (.missingVertex x)
  | unknownHost {z : VertexId} (known : p.lhs.contains x = true) (image : m.get? x = some z)
    (absent : g.contains z = false) : VertexFault p g m x (.unknownHostVertex x z)
  | label {z : VertexId} {expected found : Label} (known : p.lhs.label? x = some expected) (image : m.get? x = some z)
    (host : g.label? z = some found) (differs : found ≠ expected) :
    VertexFault p g m x (.labelMismatch x z expected found)

/-- Both ends of an edge of the left side are mapped, and from one image to the other there is no edge. -/
def Production.MissesEdge (p : Production) (g : Graph) (m : Mapping) (e : Edge) : Prop :=
  p.lhs.hasEdge e.1 e.2 = true ∧ ∃ u v, m.get? e.1 = some u ∧ m.get? e.2 = some v ∧ g.hasEdge u v = false

/-- The fault that comes before all others. -/
inductive FirstFault (p : Production) (g : Graph) (m : Mapping) : MappingFault → Prop
  /-- The least identifier that is mapped and is no vertex of the left side. -/
  | unknownPatternVertex {x : VertexId} (least : VertexId.IsLeast (p.MapsUnknown m) x) :
    FirstFault p g m (.unknownPatternVertex x)
  /-- The least vertex whose image a lesser one has, too, with that lesser one. -/
  | notInjective {x y z : VertexId} (keys : ∀ x, ¬ p.MapsUnknown m x) (least : VertexId.IsLeast m.Collides y)
    (before : x < y) (first : m.get? x = some z) (second : m.get? y = some z) :
    FirstFault p g m (.notInjective z x y)
  /-- The least vertex of the left side whose image is missing or wrong. -/
  | vertex {x : VertexId} {fault : MappingFault} (keys : ∀ x, ¬ p.MapsUnknown m x) (injective : m.Injective)
    (wrong : p.VertexFault g m x fault) (least : ∀ y, y < x → ∀ fault, ¬ p.VertexFault g m y fault) :
    FirstFault p g m fault
  /-- The first edge of the left side whose image is not there. -/
  | missingEdge {x y : VertexId} (keys : ∀ x, ¬ p.MapsUnknown m x) (injective : m.Injective)
    (vertices : ∀ x fault, ¬ p.VertexFault g m x fault) (misses : p.MissesEdge g m (x, y))
    (first : ∀ e, p.lhs.EdgeBefore e (x, y) → ¬ p.MissesEdge g m e) :
    FirstFault p g m (.missingEdge x y)

namespace Production

variable {p : Production} {g : Graph} {m : Mapping} {v : Vertex} {x y : VertexId} {fault : MappingFault}

/-! ## Keys and collisions -/

theorem keyFault?_eq_none_iff : p.keyFault? m = none ↔ ∀ x, ¬ p.MapsUnknown m x := by
  rw [keyFault?_eq_none]
  refine forall_congr' fun x => ?_
  rw [MapsUnknown, not_and, Bool.not_eq_false]

theorem keyFault?_eq_some : p.keyFault? m = some fault ↔
    ∃ x, VertexId.IsLeast (p.MapsUnknown m) x ∧ fault = .unknownPatternVertex x := by
  have unknown (x z : VertexId) (hz : (x, z) ∈ m.toList) : p.MapsUnknown m x ↔ p.lhs.contains x = false := by
    rw [MapsUnknown, Mapping.contains_iff_get?, and_iff_right ⟨z, Mapping.mem_toList.mp hz⟩]
  rw [keyFault?, List.find?_eq_findSome?_guard, Option.map_eq_some_iff]
  simp only [findSome?_eq_some_of_ordered (fun _ _ => VertexId.lt_asymm) m.toList_ordered, Option.guard_eq_some_iff,
    Option.guard_eq_none_iff, Bool.not_eq_true', Bool.not_eq_false']
  refine ⟨?_, ?_⟩
  · intro h
    obtain ⟨pair, ⟨⟨x, z⟩, hz, ⟨rfl, hx⟩, hleast⟩, rfl⟩ := h
    refine ⟨x, ⟨(unknown x z hz).mpr hx, fun y hlt hy => ?_⟩, rfl⟩
    obtain ⟨w, hw⟩ := Mapping.contains_iff_get?.mp hy.1
    have hknown := hleast (y, w) (Mapping.mem_toList.mpr hw) hlt
    rw [hy.2] at hknown
    cases hknown
  · intro h
    obtain ⟨x, ⟨hx, hleast⟩, rfl⟩ := h
    obtain ⟨z, hz⟩ := Mapping.contains_iff_get?.mp hx.1
    refine ⟨(x, z), ⟨(x, z), Mapping.mem_toList.mpr hz, ⟨rfl, hx.2⟩, fun pair hmem hlt => ?_⟩, rfl⟩
    obtain ⟨y, w⟩ := pair
    have hnot := hleast y hlt
    rw [unknown y w hmem, Bool.not_eq_false] at hnot
    exact hnot

theorem collisionFault?_eq_some : collisionFault? m = some fault ↔
    ∃ x y z, VertexId.IsLeast m.Collides y ∧ x < y ∧ m.get? x = some z ∧ m.get? y = some z ∧
      fault = .notInjective z x y := by
  rw [collisionFault?, Option.map_eq_some_iff]
  simp only [Mapping.collision?_eq_some]
  refine ⟨?_, ?_⟩
  · intro h
    obtain ⟨c, ⟨least, before, first, second⟩, rfl⟩ := h
    exact ⟨c.first, c.second, c.host, least, before, first, second, rfl⟩
  · intro h
    obtain ⟨x, y, z, least, before, first, second, rfl⟩ := h
    exact ⟨⟨z, x, y⟩, ⟨least, before, first, second⟩, rfl⟩

/-! ## Vertices -/

theorem vertexFault?_eq_some (hv : p.lhs.label? v.id = some v.label) :
    vertexFault? g m v = some fault ↔ p.VertexFault g m v.id fault := by
  have known := Graph.contains_of_label? hv
  rw [vertexFault?]
  refine ⟨?_, ?_⟩
  · intro h
    split at h
    · cases h
      exact .missing known ‹_›
    · split at h
      · cases h
        exact .unknownHost known ‹_› (Graph.label?_eq_none_iff.mp ‹_›)
      · split at h
        · cases h
        · cases h
          exact .label hv ‹_› ‹_› ‹_›
  · intro h
    cases h with
    | missing _ unmapped => rw [unmapped]
    | unknownHost _ image absent =>
      rw [image]
      dsimp only
      rw [Graph.label?_eq_none_iff.mpr absent]
    | label hx image host differs =>
      rw [hv, Option.some.injEq] at hx
      subst hx
      rw [image]
      dsimp only
      rw [host]
      exact if_neg differs

theorem vertexFault?_eq_none_iff (hv : p.lhs.label? v.id = some v.label) :
    vertexFault? g m v = none ↔ ∀ fault, ¬ p.VertexFault g m v.id fault := by
  rw [Option.eq_none_iff_forall_ne_some]
  exact forall_congr' fun fault => not_congr (vertexFault?_eq_some hv)

theorem VertexFault.exists_label (h : p.VertexFault g m x fault) : ∃ l, p.lhs.label? x = some l := by
  cases h with
  | missing known _ => exact Graph.contains_iff_label?.mp known
  | unknownHost known _ _ => exact Graph.contains_iff_label?.mp known
  | label known _ _ _ => exact ⟨_, known⟩

theorem vertexFaults_eq_none (hp : p.lhs.Keyed) :
    p.lhs.vertices.findSome? (vertexFault? g m) = none ↔ ∀ x fault, ¬ p.VertexFault g m x fault := by
  rw [List.findSome?_eq_none_iff]
  refine ⟨?_, ?_⟩
  · intro h x fault hfault
    obtain ⟨l, hl⟩ := hfault.exists_label
    have hnone := h ⟨x, l⟩ (hp.mem_vertices.mpr hl)
    exact (vertexFault?_eq_none_iff hl).mp hnone fault hfault
  · intro h v hv
    exact (vertexFault?_eq_none_iff (hp.mem_vertices.mp hv)).mpr (h v.id)

theorem vertexFaults_eq_some (hp : p.lhs.Keyed) : p.lhs.vertices.findSome? (vertexFault? g m) = some fault ↔
    ∃ x, p.VertexFault g m x fault ∧ ∀ y, y < x → ∀ fault, ¬ p.VertexFault g m y fault := by
  rw [findSome?_eq_some_of_ordered (fun _ _ => VertexId.lt_asymm) (Graph.vertices_ordered hp)]
  refine ⟨?_, ?_⟩
  · intro h
    obtain ⟨v, hv, hfault, hleast⟩ := h
    refine ⟨v.id, (vertexFault?_eq_some (hp.mem_vertices.mp hv)).mp hfault, fun y hlt fault' hfault' => ?_⟩
    obtain ⟨l, hl⟩ := hfault'.exists_label
    have hnone := hleast ⟨y, l⟩ (hp.mem_vertices.mpr hl) hlt
    exact (vertexFault?_eq_none_iff hl).mp hnone fault' hfault'
  · intro h
    obtain ⟨x, hfault, hleast⟩ := h
    obtain ⟨l, hl⟩ := hfault.exists_label
    refine ⟨⟨x, l⟩, hp.mem_vertices.mpr hl, (vertexFault?_eq_some (v := ⟨x, l⟩) hl).mpr hfault, ?_⟩
    intro w hw hlt
    exact (vertexFault?_eq_none_iff (hp.mem_vertices.mp hw)).mpr (hleast w.id hlt)

theorem exists_image_of_faultless (h : ∀ x fault, ¬ p.VertexFault g m x fault) (hx : p.lhs.contains x = true) :
    ∃ z, m.get? x = some z := by
  cases hz : m.get? x with
  | some z => exact ⟨z, rfl⟩
  | none => exact absurd (.missing hx hz) (h x _)

/-! ## Edges -/

section

variable (hp : p.lhs.WellFormed) (mapped : ∀ x fault, ¬ p.VertexFault g m x fault)
include hp mapped

/-- Once the vertices are all right, an edge is at fault only where its image is not there. -/
theorem edgeFault?_eq_some (he : p.lhs.hasEdge x y = true) :
    edgeFault? g m (x, y) = some fault ↔ p.MissesEdge g m (x, y) ∧ fault = .missingEdge x y := by
  rw [Graph.hasEdge_iff] at he
  obtain ⟨u, hu⟩ := exists_image_of_faultless mapped (hp.contains_source he)
  obtain ⟨v, hv⟩ := exists_image_of_faultless mapped (hp.contains_target x y he)
  have misses : p.MissesEdge g m (x, y) ↔ g.hasEdge u v = false := by
    simp [MissesEdge, he, hu, hv]
  rw [misses, edgeFault?, Mapping.edgeImage?_eq_some.mpr ⟨hu, hv⟩, Option.any_some]
  dsimp only
  split
  · next h =>
    rw [h]
    simp
  · next h =>
    rw [Bool.not_eq_true] at h
    rw [h]
    simp [@eq_comm _ fault]

theorem edgeFault?_eq_none_iff (he : p.lhs.hasEdge x y = true) :
    edgeFault? g m (x, y) = none ↔ ¬ p.MissesEdge g m (x, y) := by
  rw [Option.eq_none_iff_forall_ne_some]
  simp only [ne_eq, edgeFault?_eq_some hp mapped he, not_and]
  exact ⟨fun h hmisses => h _ hmisses rfl, fun h fault hmisses => absurd hmisses h⟩

theorem edgeFaults_eq_some : p.lhs.edges.findSome? (edgeFault? g m) = some fault ↔
    ∃ x y, p.MissesEdge g m (x, y) ∧ (∀ e, p.lhs.EdgeBefore e (x, y) → ¬ p.MissesEdge g m e) ∧
      fault = .missingEdge x y := by
  have known (e : Edge) : e ∈ p.lhs.edges ↔ p.lhs.hasEdge e.1 e.2 = true := by
    rw [Graph.mem_edges, Graph.hasEdge_iff]
  rw [findSome?_eq_some_of_ordered (fun _ _ => Graph.EdgeBefore.asymm) (Graph.edges_ordered hp.nodup)]
  refine ⟨?_, ?_⟩
  · intro h
    obtain ⟨⟨x, y⟩, he, hfault, hfirst⟩ := h
    obtain ⟨hmisses, rfl⟩ := (edgeFault?_eq_some hp mapped ((known _).mp he)).mp hfault
    refine ⟨x, y, hmisses, fun e hbefore hmisses' => ?_, rfl⟩
    have hnone := hfirst e ((known e).mpr hmisses'.1) hbefore
    exact (edgeFault?_eq_none_iff hp mapped hmisses'.1).mp hnone hmisses'
  · intro h
    obtain ⟨x, y, hmisses, hfirst, rfl⟩ := h
    refine ⟨(x, y), (known _).mpr hmisses.1, (edgeFault?_eq_some hp mapped hmisses.1).mpr ⟨hmisses, rfl⟩, ?_⟩
    intro e he hbefore
    exact (edgeFault?_eq_none_iff hp mapped ((known e).mp he)).mpr (hfirst e hbefore)

end

/-! ## All faults -/

/-- Faults of one kind are looked for when there are none of the kinds before. -/
theorem fault?_eq_some : p.fault? g m = some fault ↔
    p.keyFault? m = some fault ∨ p.keyFault? m = none ∧ (collisionFault? m = some fault ∨
      collisionFault? m = none ∧ (p.lhs.vertices.findSome? (vertexFault? g m) = some fault ∨
        p.lhs.vertices.findSome? (vertexFault? g m) = none ∧
          p.lhs.edges.findSome? (edgeFault? g m) = some fault)) := by
  simp only [fault?, Option.orElse_eq_orElse, Option.orElse_eq_or, Option.or_eq_some_iff]

theorem fault?_eq_some_iff (hp : p.lhs.WellFormed) : p.fault? g m = some fault ↔ FirstFault p g m fault := by
  rw [fault?_eq_some, keyFault?_eq_none_iff, collisionFault?_eq_none, vertexFaults_eq_none hp.keyed]
  refine ⟨?_, ?_⟩
  · intro h
    rcases h with hkey | ⟨keys, hcollision | ⟨injective, hvertex | ⟨vertices, hedge⟩⟩⟩
    · obtain ⟨x, least, rfl⟩ := keyFault?_eq_some.mp hkey
      exact .unknownPatternVertex least
    · obtain ⟨x, y, z, least, before, first, second, rfl⟩ := collisionFault?_eq_some.mp hcollision
      exact .notInjective keys least before first second
    · obtain ⟨x, wrong, least⟩ := (vertexFaults_eq_some hp.keyed).mp hvertex
      exact .vertex keys injective wrong least
    · obtain ⟨x, y, misses, first, rfl⟩ := (edgeFaults_eq_some hp vertices).mp hedge
      exact .missingEdge keys injective vertices misses first
  · intro h
    cases h with
    | unknownPatternVertex least => exact .inl (keyFault?_eq_some.mpr ⟨_, least, rfl⟩)
    | notInjective keys least before first second =>
      exact .inr ⟨keys, .inl (collisionFault?_eq_some.mpr ⟨_, _, _, least, before, first, second, rfl⟩)⟩
    | vertex keys injective wrong least =>
      exact .inr ⟨keys, .inr ⟨injective, .inl ((vertexFaults_eq_some hp.keyed).mpr ⟨_, wrong, least⟩)⟩⟩
    | missingEdge keys injective vertices misses first =>
      exact .inr ⟨keys, .inr ⟨injective, .inr ⟨vertices,
        (edgeFaults_eq_some hp vertices).mpr ⟨_, _, misses, first, rfl⟩⟩⟩⟩

theorem validate_eq_error {e : Error} :
    p.validate g m = .error e ↔ ∃ fault, e = .invalidMapping fault ∧ p.fault? g m = some fault := by
  rw [validate]
  cases p.fault? g m <;> simp [eq_comm]

/-- A mapping is accepted exactly when it embeds the left side, and of any other mapping the first fault is reported. An
application is refused exactly when the mapping is, for the same fault, and then the graph is left as it was. -/
theorem validate_first_fault (hp : p.lhs.WellFormed) (g : Graph) (m : Mapping) :
    (p.validate g m = .ok () ↔ IsEmbedding p.lhs g m) ∧
      (∀ e, p.validate g m = .error e ↔ ∃ fault, e = .invalidMapping fault ∧ FirstFault p g m fault) ∧
      (∀ g' e, p.apply m g = some (g', .error e) ↔ g' = g ∧ p.validate g m = .error e) ∧
      ∀ g' e, p.apply m g = some (g', .error e) → (Call.apply p m).perform g = g := by
  refine ⟨validate_iff hp.keyed, fun e => ?_, fun g' e => apply_eq_error, fun g' e h => ?_⟩
  · simp only [validate_eq_error, fault?_eq_some_iff hp]
  · rw [Call.perform, h, Option.elim_some]
    exact (apply_eq_error.mp h).1

section

/-- Maps both ends of the edge to one vertex of the ring: one of the labels is wrong, too, and there is no loop. -/
def collapsed : Mapping := .ofList [(⟨"x"⟩, ⟨"v1"⟩), (⟨"y"⟩, ⟨"v1"⟩)]

/-- Of a collision, a wrong label and a missing edge the collision is reported. -/
theorem validate_first_fault_collapsed :
    let fault : MappingFault := .notInjective ⟨"v1"⟩ ⟨"x"⟩ ⟨"y"⟩
    replaceSource.lhs.WellFormed ∧
      replaceSource.validate ring collapsed = .error (.invalidMapping fault) ∧
      FirstFault replaceSource ring collapsed fault ∧
      replaceSource.VertexFault ring collapsed ⟨"x"⟩ (.labelMismatch ⟨"x"⟩ ⟨"v1"⟩ ⟨"A"⟩ ⟨"B"⟩) ∧
      replaceSource.MissesEdge ring collapsed (⟨"x"⟩, ⟨"y"⟩) ∧
      (Call.apply replaceSource collapsed).perform ring = ring := by
  intro fault
  have hp : replaceSource.lhs.WellFormed := Graph.WellFormed.empty.addEdge _ _
  have run : replaceSource.validate ring collapsed = .error (.invalidMapping fault) := by decide +kernel
  obtain ⟨-, faults, refusal, unchanged⟩ := validate_first_fault hp ring collapsed
  obtain ⟨fault', heq, first⟩ := (faults _).mp run
  obtain rfl : fault = fault' := Error.invalidMapping.inj heq
  have label : replaceSource.VertexFault ring collapsed ⟨"x"⟩ (.labelMismatch ⟨"x"⟩ ⟨"v1"⟩ ⟨"A"⟩ ⟨"B"⟩) :=
    .label (by decide +kernel) (by decide +kernel) (by decide +kernel) (by decide)
  have edge : replaceSource.MissesEdge ring collapsed (⟨"x"⟩, ⟨"y"⟩) :=
    ⟨by decide +kernel, ⟨"v1"⟩, ⟨"v1"⟩, by decide +kernel, by decide +kernel, by decide +kernel⟩
  exact ⟨hp, run, first, label, edge, unchanged _ _ ((refusal _ _).mpr ⟨rfl, run⟩)⟩

end

end Production
end GraphGrammar
