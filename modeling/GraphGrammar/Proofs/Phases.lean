import GraphGrammar.Application
import GraphGrammar.Proofs.FreshNames
import GraphGrammar.Proofs.Mappings
import GraphGrammar.Proofs.WellFormed

/-!
# The phases of an application

Each phase that changes the graph carries out one operation along a list: the edges that get lost, the images of
the deleted vertices, the created vertices, the images of the right edges. So each phase is told by the readers
through one induction over that list. None of this asks what the mappings are.
-/

namespace GraphGrammar
open Std

theorem eraseDups_of_nodup {α : Type} [BEq α] [LawfulBEq α] {l : List α} (nodup : l.Nodup) : l.eraseDups = l := by
  induction l with
  | nil => rfl
  | cons a l ih =>
    obtain ⟨fresh, nodup⟩ := List.nodup_cons.mp nodup
    have others : l.filter (fun b => !b == a) = l := by
      apply List.filter_eq_self.mpr
      intro b hb
      simpa using fun heq : b = a => fresh (heq ▸ hb)
    rw [List.eraseDups_cons, others, ih nodup]

namespace Graph

variable {g : Graph} {x y : VertexId}

/-! ## One operation along a list -/

/-- What one operation leaves as it is, it leaves so along a list. -/
theorem foldl_unchanged {α β : Type} {step : Graph → α → Graph} (read : Graph → β)
    (h : ∀ g a, read (step g a) = read g) (l : List α) (g : Graph) : read (l.foldl step g) = read g := by
  induction l generalizing g with
  | nil => rfl
  | cons a l ih => rw [List.foldl_cons, ih, h]

section EraseEdges
variable {es : List Edge}

theorem vertex?_foldl_eraseEdge : (es.foldl (fun g e => (g.eraseEdge e.1 e.2).1) g).vertex? x = g.vertex? x := by
  apply foldl_unchanged (vertex? · x)
  intro g e
  exact vertex?_eraseEdge

theorem label?_foldl_eraseEdge : (es.foldl (fun g e => (g.eraseEdge e.1 e.2).1) g).label? x = g.label? x :=
  congrArg (Option.map _) vertex?_foldl_eraseEdge

theorem nextFresh_foldl_eraseEdge : (es.foldl (fun g e => (g.eraseEdge e.1 e.2).1) g).nextFresh = g.nextFresh := by
  apply foldl_unchanged nextFresh
  intro g e
  exact nextFresh_eraseEdge

theorem vertexCount_foldl_eraseEdge :
    (es.foldl (fun g e => (g.eraseEdge e.1 e.2).1) g).vertexCount = g.vertexCount := by
  apply foldl_unchanged vertexCount
  intro g e
  exact vertexCount_eraseEdge

theorem WellFormed.foldl_eraseEdge (hg : g.WellFormed) (es : List Edge) :
    (es.foldl (fun g e => (g.eraseEdge e.1 e.2).1) g).WellFormed :=
  List.foldlRecOn es _ hg fun _ hg e _ => hg.eraseEdge e.1 e.2

theorem WellFormed.successors_foldl_eraseEdge (hg : g.WellFormed) :
    (es.foldl (fun g e => (g.eraseEdge e.1 e.2).1) g).successors x =
      (g.successors x).filter fun y => (x, y) ∉ es := by
  induction es generalizing g with
  | nil => simp
  | cons e es ih =>
    obtain ⟨a, b⟩ := e
    rw [List.foldl_cons, ih (hg.eraseEdge a b), successors_eraseEdge]
    split
    · next hx =>
      -- A target is listed once, so erasing it once erases it for good.
      subst hx
      rw [(hg.nodup x).erase_eq_filter, List.filter_filter]
      refine List.filter_congr fun y _ => ?_
      simp [Bool.and_comm, bne, Bool.beq_eq_decide_eq, not_or]
    · next hx =>
      refine List.filter_congr fun y _ => ?_
      simp [hx]

end EraseEdges

section EraseVertices
variable {xs : List VertexId}

theorem vertex?_foldl_eraseVertex :
    (xs.foldl (fun g x => (g.eraseVertex x).1) g).vertex? x = if x ∈ xs then none else g.vertex? x := by
  induction xs generalizing g with
  | nil => simp
  | cons a xs ih =>
    rw [List.foldl_cons, ih, vertex?_eraseVertex]
    by_cases hx : x = a <;> by_cases hxs : x ∈ xs <;> simp [hx, hxs]

theorem label?_foldl_eraseVertex :
    (xs.foldl (fun g x => (g.eraseVertex x).1) g).label? x = if x ∈ xs then none else g.label? x := by
  rw [label?, vertex?_foldl_eraseVertex, label?]
  split <;> rfl

theorem nextFresh_foldl_eraseVertex :
    (xs.foldl (fun g x => (g.eraseVertex x).1) g).nextFresh = g.nextFresh := by
  apply foldl_unchanged nextFresh
  intro g a
  exact nextFresh_eraseVertex

theorem WellFormed.foldl_eraseVertex (hg : g.WellFormed) (xs : List VertexId) :
    (xs.foldl (fun g x => (g.eraseVertex x).1) g).WellFormed :=
  List.foldlRecOn xs _ hg fun _ hg a _ => hg.eraseVertex a

theorem WellFormed.successors_foldl_eraseVertex (hg : g.WellFormed) :
    (xs.foldl (fun g x => (g.eraseVertex x).1) g).successors x =
      if x ∈ xs then [] else (g.successors x).filter (· ∉ xs) := by
  induction xs generalizing g with
  | nil => simp
  | cons a xs ih =>
    rw [List.foldl_cons, ih (hg.eraseVertex a), hg.successors_eraseVertex]
    by_cases hxs : x ∈ xs
    · simp [hxs]
    · by_cases hx : x = a
      · simp [hx]
      · simp only [hx, hxs, List.mem_cons, or_self, if_false, List.filter_filter]
        refine List.filter_congr fun y _ => ?_
        simp [Bool.and_comm]

end EraseVertices

section AddEdges
variable {es : List Edge}

theorem vertex?_connect {a b : VertexId} : (g.connect a b).1.vertex? x = g.vertex? x := by
  rw [connect_fst]
  split
  · exact vertex?_link
  · rfl

theorem label?_connect {a b : VertexId} : (g.connect a b).1.label? x = g.label? x :=
  congrArg (Option.map _) vertex?_connect

theorem contains_connect {a b : VertexId} : (g.connect a b).1.contains x = g.contains x := by
  rw [contains_eq_isSome, label?_connect, contains_eq_isSome]

theorem nextFresh_connect {a b : VertexId} : (g.connect a b).1.nextFresh = g.nextFresh := by
  rw [connect_fst]
  split
  · exact nextFresh_link
  · rfl

theorem vertexCount_connect {a b : VertexId} : (g.connect a b).1.vertexCount = g.vertexCount := by
  rw [connect_fst]
  split
  · exact vertexCount_link
  · rfl

theorem mem_successors_connect {a b : VertexId} :
    y ∈ (g.connect a b).1.successors x ↔
      y ∈ g.successors x ∨ (x = a ∧ y = b) ∧ g.contains a = true ∧ g.contains b = true := by
  rw [connect_fst]
  split
  · next h => rw [mem_successors_link]; simp [h]
  · next h => simp [h]

theorem vertex?_foldl_connect : (es.foldl (fun g e => (g.connect e.1 e.2).1) g).vertex? x = g.vertex? x := by
  apply foldl_unchanged (vertex? · x)
  intro g e
  exact vertex?_connect

theorem label?_foldl_connect : (es.foldl (fun g e => (g.connect e.1 e.2).1) g).label? x = g.label? x :=
  congrArg (Option.map _) vertex?_foldl_connect

theorem contains_foldl_connect : (es.foldl (fun g e => (g.connect e.1 e.2).1) g).contains x = g.contains x := by
  rw [contains_eq_isSome, label?_foldl_connect, contains_eq_isSome]

theorem nextFresh_foldl_connect : (es.foldl (fun g e => (g.connect e.1 e.2).1) g).nextFresh = g.nextFresh := by
  apply foldl_unchanged nextFresh
  intro g e
  exact nextFresh_connect

theorem vertexCount_foldl_connect :
    (es.foldl (fun g e => (g.connect e.1 e.2).1) g).vertexCount = g.vertexCount := by
  apply foldl_unchanged vertexCount
  intro g e
  exact vertexCount_connect

theorem WellFormed.foldl_connect (hg : g.WellFormed) (es : List Edge) :
    (es.foldl (fun g e => (g.connect e.1 e.2).1) g).WellFormed :=
  List.foldlRecOn es _ hg fun _ hg e _ => hg.connect e.1 e.2

theorem mem_successors_foldl_connect :
    y ∈ (es.foldl (fun g e => (g.connect e.1 e.2).1) g).successors x ↔
      y ∈ g.successors x ∨ (x, y) ∈ es ∧ g.contains x = true ∧ g.contains y = true := by
  induction es generalizing g with
  | nil => simp
  | cons e es ih =>
    obtain ⟨a, b⟩ := e
    rw [List.foldl_cons, ih, mem_successors_connect]
    simp only [contains_connect, List.mem_cons, Prod.mk.injEq]
    grind

/-- The edges add their targets in turn, apart from those that are there already: each where it first comes up. -/
theorem successors_foldl_connect_firsts (known : ∀ e ∈ es, g.contains e.1 = true ∧ g.contains e.2 = true) :
    (es.foldl (fun g e => (g.connect e.1 e.2).1) g).successors x =
      g.successors x ++ (((es.filter (·.1 = x)).map Prod.snd).filter (· ∉ g.successors x)).eraseDups := by
  induction es generalizing g with
  | nil => simp
  | cons e es ih =>
    rw [List.forall_mem_cons] at known
    have known' : ∀ e' ∈ es, (g.connect e.1 e.2).1.contains e'.1 = true ∧
        (g.connect e.1 e.2).1.contains e'.2 = true := by
      simpa only [contains_connect] using known.2
    rw [List.foldl_cons, ih known', connect_fst, if_pos known.1, successors_link]
    by_cases hx : e.1 = x
    · subst hx
      rw [List.filter_cons_of_pos (by simp), List.map_cons]
      by_cases old : e.2 ∈ g.successors e.1
      · rw [if_neg fun h => h.2 old, List.filter_cons_of_neg (by simpa using old)]
      · rw [if_pos ⟨rfl, old⟩, List.filter_cons_of_pos (by simpa using old), List.eraseDups_cons, List.filter_filter,
          List.append_assoc, List.singleton_append]
        -- Behind its first place a target is passed over because it is there by then.
        congr 3
        refine List.filter_congr fun y _ => ?_
        simp [Bool.and_comm, Bool.beq_eq_decide_eq]
    · rw [if_neg fun h => hx h.1.symm, List.filter_cons_of_neg (by simpa using hx)]

/-- Edges that are listed once each add their targets in turn, apart from those that are there already. -/
theorem successors_foldl_connect_of_known (nodup : es.Nodup)
    (known : ∀ e ∈ es, g.contains e.1 = true ∧ g.contains e.2 = true) :
    (es.foldl (fun g e => (g.connect e.1 e.2).1) g).successors x =
      g.successors x ++ ((es.filter (·.1 = x)).map Prod.snd).filter (· ∉ g.successors x) := by
  have targets : ((es.filter (·.1 = x)).map Prod.snd).Nodup := by
    refine (nodup.filter _).map_on fun e he e' he' heq => ?_
    have hx : e.1 = x := of_decide_eq_true (List.mem_filter.mp he).2
    have hx' : e'.1 = x := of_decide_eq_true (List.mem_filter.mp he').2
    exact Prod.ext (hx.trans hx'.symm) heq
  rw [successors_foldl_connect_firsts known, eraseDups_of_nodup (targets.filter _)]

end AddEdges
end Graph

namespace Production

variable {p : Production} {left right : Mapping} {g : Graph} {x : VertexId}

/-! ## Carrying over -/

theorem get?_carryOver : (p.carryOver left).get? x = if p.rhs.contains x then left.get? x else none := by
  have keys : ((p.rhs.ids.filterMap fun id => (left.get? id).map (id, ·)).map Prod.fst).Nodup := by
    rw [List.map_filterMap]
    refine p.rhs.nodup_ids.filterMap fun a a' b hb hb' => ?_
    simp only [Option.map_map, Option.mem_def, Option.map_eq_some_iff, Function.comp_apply] at hb hb'
    obtain ⟨-, -, rfl⟩ := hb
    obtain ⟨-, -, rfl⟩ := hb'
    rfl
  apply Option.ext
  intro z
  rw [carryOver, Mapping.get?_ofList keys]
  cases hx : p.rhs.contains x <;> simp [hx]

/-! ## Phases as one operation along a list -/

/-- The images of left edges that no right edge falls on, by left edge. -/
def lostEdges (p : Production) (left right : Mapping) : List Edge :=
  (p.lhs.edges.filterMap left.edgeImage?).filter fun e => !p.keeps right e

theorem eraseEdges_fst :
    (p.eraseEdges left right g).1 =
      (p.lostEdges left right).foldl (fun g e => (g.eraseEdge e.1 e.2).1) g := by
  rw [eraseEdges, lostEdges, List.foldl_filter, List.foldl_filterMap]
  refine (List.foldl_hom Prod.fst fun s e => ?_).symm
  dsimp only
  cases left.edgeImage? e with
  | none => rfl
  | some image => cases h : p.keeps right image <;> simp [h]

theorem eraseVertices_fst :
    (p.eraseVertices left g).1 = (p.deleted.filterMap left.get?).foldl (fun g x => (g.eraseVertex x).1) g := by
  rw [eraseVertices, List.foldl_filterMap]
  refine (List.foldl_hom Prod.fst fun s id => ?_).symm
  dsimp only
  cases left.get? id <;> rfl

theorem addEdges_fst :
    (p.addEdges right g).1 =
      (p.rhs.edges.filterMap right.edgeImage?).foldl (fun g e => (g.connect e.1 e.2).1) g := by
  rw [addEdges, List.foldl_filterMap]
  refine (List.foldl_hom Prod.fst fun s e => ?_).symm
  dsimp only
  cases right.edgeImage? e with
  | none => rfl
  | some image =>
    dsimp only
    rcases s.1.connect image.1 image.2 with ⟨_, e | added⟩ <;> rfl

end Production

namespace Graph.WellFormed

variable {g : Graph} {p : Production} {left right : Mapping}

/-! ## The invariant -/

theorem eraseEdges (hg : g.WellFormed) : (p.eraseEdges left right g).1.WellFormed := by
  rw [Production.eraseEdges_fst]
  exact hg.foldl_eraseEdge _

theorem eraseVertices (hg : g.WellFormed) : (p.eraseVertices left g).1.WellFormed := by
  rw [Production.eraseVertices_fst]
  exact hg.foldl_eraseVertex _

theorem addEdges (hg : g.WellFormed) : (p.addEdges right g).1.WellFormed := by
  rw [Production.addEdges_fst]
  exact hg.foldl_connect _

end Graph.WellFormed
end GraphGrammar
