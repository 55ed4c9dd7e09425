import GraphGrammar.Proofs.Rounds
import GraphGrammar.Proofs.Session

/-!
# Fresh identifiers over the life of a graph

A fresh identifier is drawn on a graph; in between, anything may be done to it. Each kind of call is told by the graphs
on which it draws, in turn. `CounterPath` says that these draws are all that moves the counter, so every number that is
drawn is behind those drawn before, whatever became of the vertices in the meantime.

What is assumed: wherever a draw is made, counter and vertices leave room for it below the largest word
(`Graph.HasRoom`).
-/

namespace GraphGrammar

namespace Graph

def HasRoom (g : Graph) : Prop := g.nextFresh.toNat + g.vertexCount < UInt64.size - 1

instance {g : Graph} : Decidable g.HasRoom := inferInstanceAs (Decidable (_ < _))

/-- Drawing a fresh identifier on the graph gives the one of number `n`. -/
structure Draws (g : Graph) (n : Counter) : Prop where
  /-- The number is not below the counter. -/
  le : g.nextFresh.toNat ≤ n.toNat
  /-- Its identifier is no vertex. -/
  free : g.contains ⟨"v" ++ toString n.toNat⟩ = false
  /-- Each number in between is passed over for a vertex. -/
  least : ∀ j : Counter, g.nextFresh.toNat ≤ j.toNat → j.toNat < n.toNat →
    g.contains ⟨"v" ++ toString j.toNat⟩ = true
  /-- The search tries one number a round, so it takes the numbers passed over and one more round. -/
  search : ∀ rounds, g.searchFresh rounds g.nextFresh =
    if n.toNat - g.nextFresh.toNat + 1 ≤ rounds then some (⟨"v" ++ toString n.toNat⟩, n + 1) else none
  /-- These are at most one more than there are vertices. -/
  rounds_le : n.toNat - g.nextFresh.toNat + 1 ≤ g.vertexCount + 1
  /-- The counter goes just behind the number, which is not the largest word. -/
  succ : (n + 1).toNat = n.toNat + 1
  /-- The identifier is returned, and nothing changes but the counter. -/
  fresh : g.fresh = some ({ g with nextFresh := n + 1 }, ⟨"v" ++ toString n.toNat⟩)

variable {g g' g'' k : Graph} {ks ks' : List Graph}

theorem HasRoom.exists_draws (room : g.HasRoom) : ∃ n, g.Draws n := by
  obtain ⟨n, hle, hfew, hnext, free, taken, hfresh⟩ := fresh_eq room (Nat.le_refl _) (filledFrom_nextFresh g)
  have hlt : n.toNat < UInt64.size - 1 := by
    have hroom : g.nextFresh.toNat + g.vertexCount < UInt64.size - 1 := room
    omega
  have hadd := Counter.next_eq_add_one hlt
  rw [hadd] at hnext hfresh
  refine ⟨n, hle, free, taken, fun rounds => ?_, by omega, hnext, hfresh⟩
  split
  · rw [searchFresh_eq_some hle (by omega) free taken, hadd]
    rfl
  · exact searchFresh_eq_none (by omega) taken

theorem Draws.eq_of_fresh {n : Counter} {x : VertexId} (h : g.Draws n) (hfresh : g.fresh = some (g', x)) :
    x = .numbered n ∧ g'.nextFresh = n + 1 := by
  rw [h.fresh] at hfresh
  cases hfresh
  exact ⟨rfl, rfl⟩

/-! ## Draws in a row -/

/-- The identifiers that are drawn on the graphs, in turn. -/
def drawnNames (ks : List Graph) : List VertexId := ks.filterMap fun k => k.fresh.map (·.2)

theorem drawnNames_cons {x : VertexId} (h : k.fresh = some (g', x)) : drawnNames (k :: ks) = x :: drawnNames ks := by
  rw [drawnNames, List.filterMap_cons, h]
  rfl

theorem drawnNames_append : drawnNames (ks ++ ks') = drawnNames ks ++ drawnNames ks' := List.filterMap_append

theorem mem_drawnNames {x : VertexId} : x ∈ drawnNames ks ↔ ∃ k ∈ ks, ∃ k', k.fresh = some (k', x) := by
  simp [drawnNames]

/-- From the first graph to the last the counter is moved by a draw on each of the listed graphs, in turn, and by
nothing else. -/
inductive CounterPath : Graph → List Graph → Graph → Prop where
  | nil {g g' : Graph} (same : g'.nextFresh = g.nextFresh) : CounterPath g [] g'
  | cons {g k k' g' : Graph} {x : VertexId} {ks : List Graph} (same : k.nextFresh = g.nextFresh)
      (drawn : k.fresh = some (k', x)) (rest : CounterPath k' ks g') : CounterPath g (k :: ks) g'

namespace CounterPath

theorem of_same (same : g'.nextFresh = g.nextFresh) (h : CounterPath g' ks g'') : CounterPath g ks g'' := by
  cases h with
  | nil same' => exact .nil (same'.trans same)
  | cons same' drawn rest => exact .cons (same'.trans same) drawn rest

theorem append (h : CounterPath g ks g') (h' : CounterPath g' ks' g'') : CounterPath g (ks ++ ks') g'' := by
  induction h with
  | nil same => exact h'.of_same same
  | cons same drawn _ ih => exact .cons same drawn (ih h')

theorem then_same (h : CounterPath g ks g') (same : g''.nextFresh = g'.nextFresh) : CounterPath g ks g'' := by
  rw [← List.append_nil ks]
  exact h.append (.nil same)

theorem exists_number (h : CounterPath g ks g') (room : ∀ k ∈ ks, k.HasRoom) :
    ∀ k ∈ ks, ∃ n, k.Draws n ∧ g.nextFresh.toNat ≤ n.toNat := by
  induction h with
  | nil => simp
  | cons same drawn _ ih =>
    obtain ⟨hroom, hrooms⟩ := List.forall_mem_cons.mp room
    obtain ⟨n, hn⟩ := hroom.exists_draws
    have hle := hn.le
    rw [same] at hle
    intro k hk
    rcases List.mem_cons.mp hk with rfl | hk
    · exact ⟨n, hn, hle⟩
    · obtain ⟨j, hj, hnj⟩ := ih hrooms k hk
      rw [(hn.eq_of_fresh drawn).2, hn.succ] at hnj
      exact ⟨j, hj, by omega⟩

/-- No identifier is drawn twice. -/
theorem nodup_names (h : CounterPath g ks g') (room : ∀ k ∈ ks, k.HasRoom) : (drawnNames ks).Nodup := by
  induction h with
  | nil => exact List.nodup_nil
  | cons same drawn rest ih =>
    obtain ⟨hroom, hrooms⟩ := List.forall_mem_cons.mp room
    obtain ⟨n, hn⟩ := hroom.exists_draws
    obtain ⟨rfl, hnext⟩ := hn.eq_of_fresh drawn
    rw [drawnNames_cons drawn, List.nodup_cons]
    refine ⟨?_, ih hrooms⟩
    -- The later draws have numbers behind the one of the first.
    intro hmem
    obtain ⟨k, hk, k', hfresh⟩ := mem_drawnNames.mp hmem
    obtain ⟨j, hj, hnj⟩ := rest.exists_number hrooms k hk
    rw [← VertexId.numbered_injective (hj.eq_of_fresh hfresh).1, hnext, hn.succ] at hnj
    omega

end CounterPath
end Graph

open GraphGrammar.Graph (CounterPath)

/-! ## The draws of a call -/

/-- The graphs on which fresh identifiers are drawn while vertices are added, one for each vertex. -/
def allocationDraws : List Vertex → Graph × Nat × Mapping → List Graph
  | [], _ => []
  | v :: vs, s => s.1 :: (allocate s v).elim [] (allocationDraws vs)

/-- The draws of an application, which come when the erasing phases are over. -/
def Production.commitDraws (p : Production) (left : Mapping) (g : Graph) : List Graph :=
  allocationDraws p.created (p.rest left g, 0, p.carryOver left)

/-- The draws of an application that may be refused. -/
def Production.applyDraws (p : Production) (left : Mapping) (g : Graph) : List Graph :=
  match p.validate g left with
  | .ok _ => p.commitDraws left g
  | .error _ => []

namespace Derivation

variable {σ : Type} (settings : SearchSettings) (ps : List Production) (strategy : Strategy σ)

def roundDraws (s : State σ) : List Graph :=
  match chosen? settings ps strategy s with
  | some o => o.production.applyDraws o.mapping s.graph
  | none => []

def runDraws : (rounds : Nat) → State σ → List Graph
  | 0, _ => []
  | rounds + 1, s =>
    roundDraws settings ps strategy s ++
      match round settings ps strategy s with
      | (_, some _) => []
      | (s, none) => runDraws rounds s

end Derivation

/-- The draws of a call, none of them where no vertex is added under a fresh identifier. -/
def Call.draws (g : Graph) : Call → List Graph
  | .fresh => [g]
  | .addVertices p right => allocationDraws p.created (g, 0, right)
  | .apply p left => p.applyDraws left g
  | .derive settings ps strategy memory rounds =>
    Derivation.runDraws settings ps strategy rounds { graph := g, memory := memory }
  | .addVertex _ | .addEdge _ _ | .connect _ _ | .eraseEdge _ _ | .eraseVertex _ | .eraseEdges _ _ _ |
    .eraseVertices _ _ | .addEdges _ _ => []

/-- The draws of calls that are made on a graph one after another. -/
def drawsFrom (g : Graph) : List Call → List Graph
  | [] => []
  | call :: calls => call.draws g ++ drawsFrom (call.perform g) calls

/-! ## The draws are all that moves the counter -/

variable {g : Graph} {p : Production} {left right : Mapping}

theorem counterPath_allocate (vs : List Vertex) (s : Graph × Nat × Mapping)
    (room : ∀ k ∈ allocationDraws vs s, k.HasRoom) :
    ∃ s', vs.foldlM allocate s = some s' ∧ CounterPath s.1 (allocationDraws vs s) s'.1 := by
  induction vs generalizing s with
  | nil => exact ⟨s, rfl, .nil rfl⟩
  | cons v vs ih =>
    obtain ⟨hroom, hrooms⟩ := List.forall_mem_cons.mp room
    obtain ⟨n, hn⟩ := hroom.exists_draws
    have hstep := allocate_eq_some (v := v).mpr ⟨_, _, hn.fresh, rfl⟩
    rw [hstep, Option.elim_some] at hrooms
    obtain ⟨s', hrun, path⟩ := ih _ hrooms
    refine ⟨s', ?_, ?_⟩
    · rw [List.foldlM_cons, hstep, Option.bind_eq_bind, Option.bind_some, hrun]
    · rw [allocationDraws, hstep, Option.elim_some]
      exact .cons rfl hn.fresh (path.of_same Graph.nextFresh_addVertex)

namespace Production

theorem counterPath_eraseEdges : CounterPath g [] (p.eraseEdges left right g).1 := by
  refine .nil ?_
  rw [eraseEdges_fst, Graph.nextFresh_foldl_eraseEdge]

theorem counterPath_eraseVertices : CounterPath g [] (p.eraseVertices left g).1 := by
  refine .nil ?_
  rw [eraseVertices_fst, Graph.nextFresh_foldl_eraseVertex]

theorem counterPath_addVertices (room : ∀ k ∈ allocationDraws p.created (g, 0, right), k.HasRoom) :
    ∃ r, p.addVertices right g = some r ∧ CounterPath g (allocationDraws p.created (g, 0, right)) r.1 := by
  rw [addVertices_eq]
  exact counterPath_allocate p.created (g, 0, right) room

theorem nextFresh_addEdges : (p.addEdges right g).1.nextFresh = g.nextFresh := by
  rw [addEdges_fst, Graph.nextFresh_foldl_connect]

theorem counterPath_commit (room : ∀ k ∈ p.commitDraws left g, k.HasRoom) :
    ∃ g' s, p.commit left g = some (g', s) ∧ CounterPath g (p.commitDraws left g) g' := by
  obtain ⟨⟨g₃, n, r⟩, hrun, added⟩ := counterPath_addVertices (g := p.rest left g) room
  exact ⟨_, _, commit_eq_some.mpr ⟨g₃, n, r, hrun, rfl, rfl⟩,
    (added.of_same nextFresh_rest).then_same nextFresh_addEdges⟩

/-- With room for its draws an application ends, and they are all that moves the counter, also when it is refused. -/
theorem counterPath_apply (room : ∀ k ∈ p.applyDraws left g, k.HasRoom) :
    ∃ r, p.apply left g = some r ∧ CounterPath g (p.applyDraws left g) r.1 := by
  cases hv : p.validate g left with
  | error e =>
    rw [applyDraws, hv]
    exact ⟨_, apply_of_refused hv, .nil rfl⟩
  | ok =>
    rw [applyDraws, hv] at room ⊢
    obtain ⟨g', s, hcommit, path⟩ := counterPath_commit room
    exact ⟨_, apply_eq_ok.mpr ⟨hv, hcommit⟩, path⟩

end Production

namespace Derivation

variable {σ : Type} {settings : SearchSettings} {ps : List Production} {strategy : Strategy σ}

theorem counterPath_round (s : State σ) (room : ∀ k ∈ roundDraws settings ps strategy s, k.HasRoom) :
    CounterPath s.graph (roundDraws settings ps strategy s) (round settings ps strategy s).1.graph := by
  cases hc : chosen? settings ps strategy s with
  | none =>
    obtain ⟨memory, ending, -, hround⟩ := round_of_not_chosen hc
    rw [roundDraws, hc, hround]
    exact .nil rfl
  | some o =>
    obtain ⟨memory, hround⟩ := round_of_chosen hc
    rw [roundDraws, hc] at room ⊢
    obtain ⟨⟨g', e | summary⟩, happly, path⟩ := Production.counterPath_apply room <;>
      rw [hround, State.step, happly] <;> exact path

/-- The draws of a run are those of its first round and, if that does not end it, those of the others. -/
theorem counterPath_run (rounds : Nat) (s : State σ) (room : ∀ k ∈ runDraws settings ps strategy rounds s, k.HasRoom) :
    CounterPath s.graph (runDraws settings ps strategy rounds s) (run settings ps strategy rounds s).1.graph := by
  induction rounds generalizing s with
  | zero => exact .nil rfl
  | succ rounds ih =>
    rw [runDraws] at room ⊢
    rw [run]
    obtain ⟨first, others⟩ := List.forall_mem_append.mp room
    have hround := counterPath_round s first
    rcases h : round settings ps strategy s with ⟨t, _ | ending⟩
    · rw [h] at hround others
      exact hround.append (ih t others)
    · rw [h] at hround
      rw [List.append_nil]
      exact hround

end Derivation

theorem Call.counterPath (call : Call) (room : ∀ k ∈ call.draws g, k.HasRoom) :
    CounterPath g (call.draws g) (call.perform g) := by
  cases call with
  | addVertex v => exact .nil Graph.nextFresh_addVertex
  | addEdge source target =>
    refine .nil ?_
    rw [perform, Graph.addEdge, Graph.nextFresh_link, Graph.nextFresh_addVertex, Graph.nextFresh_addVertex]
  | connect source target => exact .nil Graph.nextFresh_connect
  | eraseEdge source target => exact .nil Graph.nextFresh_eraseEdge
  | eraseVertex id => exact .nil Graph.nextFresh_eraseVertex
  | fresh =>
    obtain ⟨n, hn⟩ := (room g List.mem_cons_self).exists_draws
    rw [perform, hn.fresh, Option.elim_some]
    exact .cons rfl hn.fresh (.nil rfl)
  | eraseEdges => exact Production.counterPath_eraseEdges
  | eraseVertices => exact Production.counterPath_eraseVertices
  | addVertices =>
    obtain ⟨r, hrun, path⟩ := Production.counterPath_addVertices room
    rw [perform, hrun, Option.elim_some]
    exact path
  | addEdges => exact .nil Production.nextFresh_addEdges
  | apply p left =>
    obtain ⟨r, happly, path⟩ := Production.counterPath_apply room
    rw [perform, happly, Option.elim_some]
    exact path
  | derive settings ps strategy memory rounds =>
    exact Derivation.counterPath_run rounds { graph := g, memory := memory } room

theorem counterPath_calls (calls : List Call) (room : ∀ k ∈ drawsFrom g calls, k.HasRoom) :
    CounterPath g (drawsFrom g calls) (calls.foldl Call.perform g) := by
  induction calls generalizing g with
  | nil => exact .nil rfl
  | cons call calls ih =>
    obtain ⟨first, others⟩ := List.forall_mem_append.mp room
    exact (call.counterPath first).append (ih others)

/-- Over a session in which every draw has room, the draws are all that moves the counter. Each of them gives the
identifier of the least number from the counter on that names no vertex, after at most one more round than there are
vertices, and changes nothing but the counter. No identifier is drawn twice, whatever is done in between. -/
theorem session_draws (calls : List Call) (room : ∀ k ∈ drawsFrom ∅ calls, k.HasRoom) :
    CounterPath ∅ (drawsFrom ∅ calls) (session calls) ∧ (∀ k ∈ drawsFrom ∅ calls, ∃ n, k.Draws n) ∧
      (Graph.drawnNames (drawsFrom ∅ calls)).Nodup :=
  ⟨counterPath_calls calls room, fun k hk => (room k hk).exists_draws,
    (counterPath_calls calls room).nodup_names room⟩

section

/-- Puts a vertex of the same label in the place of another one. -/
def renewal : Production where
  lhs := (Graph.empty.addVertex ⟨⟨"old"⟩, ⟨"A"⟩⟩).1
  rhs := (Graph.empty.addVertex ⟨⟨"new"⟩, ⟨"A"⟩⟩).1

/-- Vertices with names like fresh ones are added and erased by hand, and two identifiers are drawn and not used. -/
def mixedCalls : List Call :=
  [.addVertex ⟨⟨"v0"⟩, ⟨"A"⟩⟩, .fresh, .fresh, .eraseVertex ⟨"v0"⟩, .addVertex ⟨⟨"v3"⟩, ⟨"A"⟩⟩,
    .apply renewal (.ofList [(⟨"old"⟩, ⟨"v3"⟩)]), .eraseVertex ⟨"v3"⟩, .fresh]

/-- A name that is taken is passed over, one that was given by hand is drawn when its vertex is erased, and none that
was drawn comes again. -/
theorem session_draws_mixed :
    (∀ k ∈ drawsFrom ∅ mixedCalls, k.HasRoom) ∧
      CounterPath ∅ (drawsFrom ∅ mixedCalls) (session mixedCalls) ∧
      (∀ k ∈ drawsFrom ∅ mixedCalls, ∃ n, k.Draws n) ∧ (Graph.drawnNames (drawsFrom ∅ mixedCalls)).Nodup ∧
      (Graph.drawnNames (drawsFrom ∅ mixedCalls)).map (·.name) = ["v1", "v2", "v3", "v4"] := by
  have room : ∀ k ∈ drawsFrom ∅ mixedCalls, k.HasRoom := by decide +kernel
  obtain ⟨path, draws, nodup⟩ := session_draws mixedCalls room
  exact ⟨room, path, draws, nodup, by decide +kernel⟩

end

end GraphGrammar
