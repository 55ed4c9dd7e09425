import GraphGrammar.Matching.Search

/-!
# A search as a list of events

What a search does, candidate after candidate, does not depend on its limits: they only tell where it is cut
short. `events` lists what the search does in turn, and `explore` is one fold over that list, so that laws about
limits need no look at the recursion. `embeddings` lists what is found when nothing is cut off.
-/

namespace GraphGrammar

/-- One thing that a search does. -/
inductive SearchEvent where
  /-- A candidate is tried. -/
  | tried
  /-- All vertices are placed. -/
  | found (m : Mapping)

def SearchEvent.mapping? : SearchEvent → Option Mapping
  | .tried => none
  | .found m => some m

/-- Counts the event, if the limits let it happen. -/
def Progress.advance (limits : SearchLimits) (p : Progress) : SearchEvent → Except Cut Progress
  | .tried => p.tick limits
  | .found m => p.record limits m

/-- What the search does behind the vertices that are placed. -/
def events (host : Graph) : List Placement → Placed → List SearchEvent
  | [], placed => [.found (.ofList placed)]
  | p :: rest, placed =>
    p.candidates.flatMap fun candidate =>
      .tried :: if p.accepts host placed candidate then events host rest (placed ++ [(p.pattern, candidate)]) else []

/-- All ways to place the vertices of the plan behind those that are placed, in order. -/
def completions (host : Graph) : List Placement → Placed → List Placed
  | [], placed => [placed]
  | p :: rest, placed =>
    p.candidates.flatMap fun candidate =>
      if p.accepts host placed candidate then completions host rest (placed ++ [(p.pattern, candidate)]) else []

/-- The embeddings of the pattern in the host, in the order in which they are found. -/
def embeddings (pattern host : Graph) : List Mapping :=
  if pattern.isEmpty then [∅]
  else
    match plan? pattern host with
    | none => []
    | some plan => (completions host plan []).map .ofList

variable {host : Graph} {limits : SearchLimits} {plan : List Placement} {placed : Placed} {progress : Progress}

private theorem foldlM_flatMap {α β σ ε : Type} {f : α → List β} {step : σ → β → Except ε σ} {l : List α} {s : σ} :
    (l.flatMap f).foldlM step s = l.foldlM (fun s a => (f a).foldlM step s) s := by
  induction l generalizing s with
  | nil => rfl
  | cons a l ih =>
    rw [List.flatMap_cons, List.foldlM_append, List.foldlM_cons]
    exact congrArg _ (funext fun s => ih)

theorem explore_eq_foldlM : explore host limits plan placed progress =
    (events host plan placed).foldlM (Progress.advance limits) progress := by
  induction plan generalizing placed progress with
  | nil => simp [explore, events, Progress.advance]
  | cons p rest ih =>
    rw [explore, events, foldlM_flatMap]
    congr 1
    funext progress candidate
    rw [List.foldlM_cons]
    refine congrArg _ (funext fun progress' => ?_)
    split
    · exact ih
    · rfl

theorem filterMap_events :
    (events host plan placed).filterMap SearchEvent.mapping? = (completions host plan placed).map .ofList := by
  induction plan generalizing placed with
  | nil => rfl
  | cons p rest ih =>
    rw [events, completions, List.filterMap_flatMap, List.map_flatMap]
    refine congrArg (List.flatMap · p.candidates) (funext fun candidate => ?_)
    rw [List.filterMap_cons_none rfl]
    split
    · exact ih
    · rfl

end GraphGrammar
