import Mathlib.Data.List.Forall2
import GraphGrammar.Proofs.SearchEvents

/-!
# Searches under limits

The limits of a search only tell where its list of events is cut short. `SearchEvent.tries` counts the candidates
that come up to the point where the quota is reached. If the budget covers them the search returns what is wanted
of all embeddings, and otherwise it fails with the first candidate beyond the budget (`findAll_settles`). That a
search with more budget or less quota succeeds as well is then a matter of comparing two counts.
-/

namespace GraphGrammar

namespace SearchLimits

/-- The first part of the occurrences, as many as the quota asks for. -/
def wanted (limits : SearchLimits) (ms : List Mapping) : List Mapping :=
  match limits.maxMatches with
  | none => ms
  | some quota => ms.take quota.toNat

/-- The budget covers a number of candidates. The largest budget covers any number, since the counter stops
there. -/
def Affords (limits : SearchLimits) (tries : Nat) : Prop :=
  ∀ limit, limits.stepLimit = some limit → limit.toNat < UInt64.size - 1 → tries ≤ limit.toNat

/-- One quota asks for no more than another; without a quota all is asked for. -/
def AtMost {α : Type} [LE α] (quota' quota : Option α) : Prop :=
  ∀ k, quota = some k → ∃ k', quota' = some k' ∧ k' ≤ k

/-- The first limits leave at least the budget of the second ones and ask for no more mappings. -/
structure Easier (limits' limits : SearchLimits) : Prop where
  stepLimit : AtMost limits.stepLimit limits'.stepLimit
  maxMatches : AtMost limits'.maxMatches limits.maxMatches

/-- The error of a search whose budget is used up: it counts the first candidate beyond the budget. -/
def Overrun (limits : SearchLimits) (e : Error) : Prop :=
  ∃ limit, limits.stepLimit = some limit ∧ limit.toNat < UInt64.size - 1 ∧ e = .searchBudgetExhausted (limit + 1)

/-- A search that has to try `tries` candidates to find what is wanted of `all` ends as the budget tells. -/
structure Settles (limits : SearchLimits) (tries : Nat) (all : List Mapping) (r : Except Error (List Mapping)) :
    Prop where
  found : limits.Affords tries → r = .ok (limits.wanted all)
  exhausted : ¬ limits.Affords tries → ∃ e, limits.Overrun e ∧ r = .error e

variable {limits limits' : SearchLimits} {m n : Nat} {all : List Mapping} {r : Except Error (List Mapping)}

theorem wanted_of_length_le (h : ∀ quota, limits.maxMatches = some quota → all.length ≤ quota.toNat) :
    limits.wanted all = all := by
  rw [wanted]
  split
  · rfl
  · next quota hk => exact List.take_of_length_le (h quota hk)

theorem wanted_prefix (limits : SearchLimits) (all : List Mapping) : limits.wanted all <+: all := by
  rw [wanted]
  split
  · exact List.prefix_rfl
  · exact List.take_prefix _ _

theorem Affords.mono (h : limits.Affords n) (le : m ≤ n) : limits.Affords m :=
  fun limit hl hlt => Nat.le_trans le (h limit hl hlt)

theorem affords_zero : limits.Affords 0 := fun _ _ _ => Nat.zero_le _

theorem Easier.affords (easier : limits'.Easier limits) (h : limits.Affords n) : limits'.Affords n := by
  intro limit' hl' hlt'
  obtain ⟨limit, hl, hle⟩ := easier.stepLimit limit' hl'
  rw [UInt64.le_iff_toNat_le] at hle
  have hn := h limit hl (by omega)
  omega

theorem Settles.of_wanted {ms : List Mapping} (h : limits.wanted all = ms) : limits.Settles 0 all (.ok ms) :=
  ⟨fun _ => by rw [h], fun hn => absurd affords_zero hn⟩

theorem Settles.affords_of_ok {ms : List Mapping} (h : limits.Settles n all r) (hr : r = .ok ms) :
    limits.Affords n := by
  refine Classical.byContradiction fun hn => ?_
  obtain ⟨e, -, he⟩ := h.exhausted hn
  rw [hr] at he
  cases he

theorem Settles.cases (h : limits.Settles n all r) :
    r = .ok (limits.wanted all) ∨ ∃ e, limits.Overrun e ∧ r = .error e := by
  by_cases hn : limits.Affords n
  · exact .inl (h.found hn)
  · exact .inr (h.exhausted hn)

end SearchLimits

variable {limits limits' : SearchLimits} {pattern host : Graph} {p : Progress} {es : List SearchEvent}
  {quota quota' : Option Nat} {m : Mapping} {n : Nat}

open SearchLimits

/-! ## Counting candidates -/

/-- The candidates that are tried until the quota is reached; all of them without a quota. -/
def SearchEvent.tries : List SearchEvent → Option Nat → Nat
  | [], _ => 0
  | _ :: _, some 0 => 0
  | .tried :: es, quota => tries es quota + 1
  | .found _ :: es, quota => tries es (quota.map (· - 1))

namespace SearchEvent

@[simp] theorem tries_zero (es : List SearchEvent) : tries es (some 0) = 0 := by
  cases es <;> rfl

theorem tries_tried (h : quota ≠ some 0) : tries (.tried :: es) quota = tries es quota + 1 := by
  rw [tries]
  exact h

theorem tries_found (h : quota ≠ some 0) :
    tries (.found m :: es) quota = tries es (quota.map (· - 1)) := by
  rw [tries]
  exact h

theorem tries_mono (h : AtMost quota' quota) : tries es quota' ≤ tries es quota := by
  induction es generalizing quota quota' with
  | nil => exact Nat.le_refl _
  | cons e es ih =>
    by_cases h' : quota' = some 0
    · rw [h', tries_zero]
      exact Nat.zero_le _
    · have hq : quota ≠ some 0 := by
        intro hq
        obtain ⟨k', hk', hle⟩ := h 0 hq
        rw [hk', Nat.le_zero.mp hle] at h'
        exact h' rfl
      cases e with
      | tried =>
        rw [tries_tried h', tries_tried hq]
        exact Nat.succ_le_succ (ih h)
      | found m =>
        rw [tries_found h', tries_found hq]
        refine ih fun k hk => ?_
        obtain ⟨j, rfl, rfl⟩ := Option.map_eq_some_iff.mp hk
        obtain ⟨j', rfl, hle⟩ := h j rfl
        exact ⟨j' - 1, rfl, Nat.sub_le_sub_right hle 1⟩

end SearchEvent

/-! ## One event -/

namespace Progress

def left (limits : SearchLimits) (p : Progress) : Option Nat :=
  limits.maxMatches.map (·.toNat - p.found.size)

/-- Counting one more candidate than are counted keeps the counter exact, as far as the budget looks at it. -/
theorem affords_next (h : limits.Affords (p.steps.toNat + 1)) :
    limits.Affords (p.steps.next.toNat + n) ↔ limits.Affords (p.steps.toNat + 1 + n) := by
  have exact (limit : UInt64) (hl : limits.stepLimit = some limit) (hlt : limit.toNat < UInt64.size - 1) :
      p.steps.next.toNat = p.steps.toNat + 1 := by
    have hle := h limit hl hlt
    exact Counter.toNat_next_of_lt (by omega)
  refine forall₃_congr fun limit hl hlt => ?_
  rw [exact limit hl hlt]

theorem tick_of_affords (h : limits.Affords (p.steps.toNat + 1)) :
    p.tick limits = .ok { p with steps := p.steps.next } := by
  have within : limits.stepLimit.any (· < p.steps.next) = false := by
    cases hl : limits.stepLimit with
    | none => rfl
    | some limit =>
      have hnext := p.steps.toNat_next
      rw [Option.any_some, decide_eq_false_iff_not, UInt64.lt_iff_toNat_lt]
      by_cases hlt : limit.toNat < UInt64.size - 1
      · have hle := h limit hl hlt
        omega
      · omega
  simp [tick, within]

theorem tick_of_not_affords (hp : limits.Affords p.steps.toNat) (h : ¬ limits.Affords (p.steps.toNat + 1)) :
    ∃ limit, limits.stepLimit = some limit ∧ limit.toNat < UInt64.size - 1 ∧
      p.tick limits = .error (.budgetExhausted (limit + 1)) := by
  simp only [Affords, not_forall] at h
  obtain ⟨limit, hl, hlt, hgt⟩ := h
  have hle := hp limit hl hlt
  -- The budget is used up to the last candidate, so the counter stands at the limit.
  have heq : p.steps = limit := UInt64.toNat_inj.mp (by omega)
  have hnext := Counter.next_eq_add_one hlt
  refine ⟨limit, hl, hlt, ?_⟩
  have beyond : limit < Counter.next limit := by
    rw [UInt64.lt_iff_toNat_lt, Counter.toNat_next_of_lt hlt]
    omega
  simp [tick, hl, heq, ← hnext, beyond]

/-- The mapping is found and more are wanted, or it is the last one that is wanted. -/
theorem record_cases (hq : p.left limits ≠ some 0) :
    (p.left limits = some 1 ∧ p.record limits m = .error (.quotaReached (p.found.push m)) ∧
      ∀ ms, limits.wanted (p.found.toList ++ m :: ms) = (p.found.push m).toList) ∨
    (p.left limits ≠ some 1 ∧ p.record limits m = .ok { p with found := p.found.push m }) := by
  rw [left] at hq ⊢
  cases hk : limits.maxMatches with
  | none => exact .inr ⟨nofun, by simp [record, hk]⟩
  | some quota =>
    have hlt : p.found.size < quota.toNat := by
      simp only [hk, Option.map_some, ne_eq, Option.some.injEq] at hq
      omega
    by_cases hlast : quota.toNat = p.found.size + 1
    · refine .inl ⟨by simp; omega, by simp [record, hk, hlast], fun ms => ?_⟩
      have htake : p.found.toList.take (p.found.size + 1) = p.found.toList :=
        List.take_of_length_le (by simp)
      simp [wanted, hk, hlast, List.take_append, htake]
    · refine .inr ⟨by simp; omega, ?_⟩
      have hmore : ¬ quota.toNat ≤ p.found.size + 1 := by omega
      simp [record, hk, hmore]

theorem left_push : left limits { p with found := p.found.push m } = (p.left limits).map (· - 1) := by
  simp [left, Function.comp_def, Nat.sub_sub]

theorem wanted_found (hq : p.left limits ≠ some 0) : limits.wanted p.found.toList = p.found.toList := by
  refine wanted_of_length_le fun quota hk => ?_
  simp only [left, hk, Option.map_some, ne_eq, Option.some.injEq] at hq
  rw [Array.length_toList]
  omega

end Progress

/-! ## All events -/

/-- What a search returns when its exploration ends. -/
def outcome : Except Cut Progress → Except Error (List Mapping)
  | .ok progress => .ok progress.found.toList
  | .error (.quotaReached found) => .ok found.toList
  | .error (.budgetExhausted steps) => .error (.searchBudgetExhausted steps)

section
variable {ms : List Mapping} {next : Progress → Except Cut Progress}

/-- One candidate is tried, and what comes next is settled from there. -/
theorem tick_settles {all : List Mapping} (hp : limits.Affords p.steps.toNat)
    (rest : limits.Affords p.steps.next.toNat →
      limits.Settles (p.steps.next.toNat + n) all (outcome (next { p with steps := p.steps.next }))) :
    limits.Settles (p.steps.toNat + 1 + n) all (outcome (p.tick limits >>= next)) := by
  by_cases h : limits.Affords (p.steps.toNat + 1)
  · rw [Progress.tick_of_affords h]
    have counted := Progress.affords_next (n := n) h
    have settled := rest ((Progress.affords_next (n := 0) h).mpr h)
    exact ⟨fun hn => settled.found (counted.mpr hn), fun hn => settled.exhausted fun hn' => hn (counted.mp hn')⟩
  · -- The candidate is one too many, and so are all of them together.
    obtain ⟨limit, hl, hlt, htick⟩ := Progress.tick_of_not_affords hp h
    rw [htick]
    exact ⟨fun hn => absurd (hn.mono (Nat.le_add_right _ _)) h, fun _ => ⟨_, ⟨limit, hl, hlt, rfl⟩, rfl⟩⟩

/-- One mapping is found. If it is not the last one that is wanted, what comes next is settled from there. -/
theorem record_settles (hp : limits.Affords p.steps.toNat) (hq : p.left limits ≠ some 0)
    (last : p.left limits = some 1 → n = 0)
    (rest : p.left limits ≠ some 1 →
      limits.Settles (p.steps.toNat + n) ((p.found.push m).toList ++ ms)
        (outcome (next { p with found := p.found.push m }))) :
    limits.Settles (p.steps.toNat + n) (p.found.toList ++ m :: ms) (outcome (p.record limits m >>= next)) := by
  rcases Progress.record_cases (m := m) hq with ⟨hleft, hrecord, hwanted⟩ | ⟨hleft, hrecord⟩
  · rw [hrecord, last hleft]
    refine ⟨fun _ => ?_, fun h => absurd hp h⟩
    rw [hwanted]
    rfl
  · rw [hrecord]
    have settled := rest hleft
    rw [Array.toList_push, List.append_assoc] at settled
    exact settled

end

/-- Going through the rest of the events ends as the budget tells, counted from the candidates tried so far. -/
theorem outcome_settles (es : List SearchEvent) (hp : limits.Affords p.steps.toNat) (hq : p.left limits ≠ some 0) :
    limits.Settles (p.steps.toNat + SearchEvent.tries es (p.left limits))
      (p.found.toList ++ es.filterMap SearchEvent.mapping?)
      (outcome (es.foldlM (Progress.advance limits) p)) := by
  induction es generalizing p with
  | nil =>
    refine ⟨fun _ => ?_, fun h => absurd hp h⟩
    rw [List.filterMap_nil, List.append_nil, Progress.wanted_found hq]
    rfl
  | cons e es ih =>
    rw [List.foldlM_cons]
    cases e with
    | tried =>
      rw [SearchEvent.tries_tried hq, List.filterMap_cons_none rfl,
        show p.steps.toNat + (SearchEvent.tries es (p.left limits) + 1) =
          p.steps.toNat + 1 + SearchEvent.tries es (p.left limits) by omega]
      exact tick_settles hp fun hp' => ih (p := { p with steps := p.steps.next }) hp' hq
    | found m =>
      have hmap : (SearchEvent.found m :: es).filterMap SearchEvent.mapping? =
          m :: es.filterMap SearchEvent.mapping? := rfl
      rw [SearchEvent.tries_found hq, hmap]
      refine record_settles hp hq (fun hleft => ?_) fun hleft => ?_
      · -- Nothing is tried behind the last mapping that is wanted.
        rw [hleft]
        exact SearchEvent.tries_zero es
      · rw [← Progress.left_push (m := m)]
        refine ih (p := { p with found := p.found.push m }) hp ?_
        rw [Progress.left_push]
        intro h0
        obtain ⟨k, hk, hk0⟩ := Option.map_eq_some_iff.mp h0
        rw [hk, ne_eq, Option.some.injEq] at hq hleft
        omega

/-! ## The whole search -/

/-- The candidates that a search for so many embeddings tries; all embeddings without a quota. -/
def searchTries (pattern host : Graph) (quota : Option Nat) : Nat :=
  if pattern.isEmpty then 0
  else
    match plan? pattern host with
    | none => 0
    | some plan => SearchEvent.tries (events host plan []) quota

theorem searchTries_mono (h : AtMost quota' quota) :
    searchTries pattern host quota' ≤ searchTries pattern host quota := by
  rw [searchTries, searchTries]
  split
  · exact Nat.le_refl _
  · split
    · exact Nat.le_refl _
    · exact SearchEvent.tries_mono h

theorem searchTries_zero : searchTries pattern host (some 0) = 0 := by
  rw [searchTries]
  split
  · rfl
  · split
    · rfl
    · exact SearchEvent.tries_zero _

/-- A search returns what is wanted of all embeddings if its budget covers the candidates that this takes, and
fails with the first candidate beyond the budget if it does not. -/
theorem findAll_settles (limits : SearchLimits) :
    limits.Settles (searchTries pattern host (limits.maxMatches.map (·.toNat))) (embeddings pattern host)
      (findAll limits pattern host) := by
  rw [findAll]
  by_cases hzero : limits.maxMatches = some 0
  · rw [if_pos hzero, hzero, Option.map_some, UInt64.toNat_zero, searchTries_zero]
    exact .of_wanted (by simp [wanted, hzero])
  · have hall : Progress.left limits {} = limits.maxMatches.map (·.toNat) := by simp [Progress.left]
    have hq : Progress.left limits {} ≠ some 0 := by
      rw [hall]
      intro h0
      obtain ⟨quota, hk, hk0⟩ := Option.map_eq_some_iff.mp h0
      exact hzero (hk.trans (congrArg some (UInt64.toNat_inj.mp hk0)))
    rw [if_neg hzero, searchTries, embeddings]
    split
    · refine .of_wanted (wanted_of_length_le fun quota hk => ?_)
      rw [hall, hk, Option.map_some, ne_eq, Option.some.injEq] at hq
      exact Nat.pos_of_ne_zero hq
    · cases plan? pattern host with
      | none => exact .of_wanted (wanted_of_length_le fun _ _ => Nat.zero_le _)
      | some plan =>
        have h := outcome_settles (events host plan []) (p := {}) affords_zero hq
        rw [filterMap_events, hall] at h
        simp only [explore_eq_foldlM]
        generalize (events host plan []).foldlM (Progress.advance limits) {} = r at h ⊢
        rcases r with cut | progress
        · cases cut <;> simpa [outcome] using h
        · simpa [outcome] using h

theorem findAll_eq_embeddings : findAll {} pattern host = .ok (embeddings pattern host) :=
  (findAll_settles {}).found nofun

theorem embeddings_of_findAll {ms : List Mapping} (h : findAll limits pattern host = .ok ms) :
    ms <+: embeddings pattern host := by
  have settled : limits.Settles _ (embeddings pattern host) (findAll limits pattern host) := findAll_settles limits
  rw [settled.found (settled.affords_of_ok h), Except.ok.injEq] at h
  subst h
  exact limits.wanted_prefix _

theorem error_of_findAll {e : Error} (h : findAll limits pattern host = .error e) :
    ∃ steps, e = .searchBudgetExhausted steps := by
  rcases (findAll_settles limits).cases with hok | ⟨_, ⟨limit, -, -, rfl⟩, herr⟩
  · rw [h] at hok
    cases hok
  · rw [h, Except.error.injEq] at herr
    exact ⟨limit + 1, herr⟩

theorem findAll_of_easier {ms : List Mapping} (easier : limits'.Easier limits)
    (h : findAll limits pattern host = .ok ms) :
    findAll limits' pattern host = .ok (limits'.wanted (embeddings pattern host)) := by
  have covered := (findAll_settles limits).affords_of_ok h
  have fewer : AtMost (limits'.maxMatches.map (·.toNat)) (limits.maxMatches.map (·.toNat)) := by
    intro k hk
    obtain ⟨quota, hq, rfl⟩ := Option.map_eq_some_iff.mp hk
    obtain ⟨quota', hq', hle⟩ := easier.maxMatches quota hq
    exact ⟨quota'.toNat, by rw [hq', Option.map_some], UInt64.le_iff_toNat_le.mp hle⟩
  exact (findAll_settles limits').found ((easier.affords covered).mono (searchTries_mono fewer))

theorem findFirst_cases (limits : SearchLimits) :
    findFirst limits pattern host = .ok (embeddings pattern host).head? ∨
      ∃ e, limits.Overrun e ∧ findFirst limits pattern host = .error e := by
  rw [findFirst]
  rcases (findAll_settles { limits with maxMatches := some 1 }).cases with h | ⟨e, he, h⟩
  · rw [h]
    cases embeddings pattern host with
    | nil => exact .inl rfl
    | cons m ms => exact .inl rfl
  · exact .inr ⟨e, he, by rw [h]; rfl⟩

/-- Limits do not change what a search finds. Under any limits it returns the first part of all embeddings, as many
as are wanted, or fails with the count just beyond its budget; so without a budget, or with the largest one, it
never fails. If it succeeds, it succeeds with more budget and with less quota. The first embedding is the head of
them all. -/
theorem findAll_limits (pattern host : Graph) :
    ∃ all, findAll {} pattern host = .ok all ∧
      (∀ limits : SearchLimits, findAll limits pattern host = .ok (limits.wanted all) ∨
        ∃ e, limits.Overrun e ∧ findAll limits pattern host = .error e) ∧
      (∀ limits limits' : SearchLimits, limits'.Easier limits → ∀ ms, findAll limits pattern host = .ok ms →
        findAll limits' pattern host = .ok (limits'.wanted all)) ∧
      ∀ limits : SearchLimits, findFirst limits pattern host = .ok all.head? ∨
        ∃ e, limits.Overrun e ∧ findFirst limits pattern host = .error e := by
  refine ⟨embeddings pattern host, findAll_eq_embeddings, ?_, ?_, ?_⟩
  · intro limits
    exact (findAll_settles limits).cases
  · intro limits limits' easier ms h
    exact findAll_of_easier easier h
  · intro limits
    exact findFirst_cases limits

section

def loopedPair : Graph :=
  let a : Vertex := ⟨⟨"a"⟩, ⟨"A"⟩⟩
  let b : Vertex := ⟨⟨"b"⟩, ⟨"A"⟩⟩
  (((Graph.empty.addEdge a b).1.addEdge b a).1.addEdge b b).1

def plainEdge : Graph := (Graph.empty.addEdge ⟨⟨"x"⟩, ⟨"A"⟩⟩ ⟨⟨"y"⟩, ⟨"A"⟩⟩).1

/-- Five candidates lead to the second embedding and three to the first, so that a budget of three is too small for
all of them. -/
theorem findAll_limits_plainEdge :
    let limits : SearchLimits := ⟨some 5, some 2⟩
    let limits' : SearchLimits := ⟨some 6, some 1⟩
    let m : Mapping := .ofList [(⟨"x"⟩, ⟨"a"⟩), (⟨"y"⟩, ⟨"b"⟩)]
    let m' : Mapping := .ofList [(⟨"x"⟩, ⟨"b"⟩), (⟨"y"⟩, ⟨"a"⟩)]
    limits'.Easier limits ∧ findAll limits plainEdge loopedPair = .ok [m, m'] ∧
      findAll limits' plainEdge loopedPair = .ok [m] ∧
      findAll ⟨some 3, none⟩ plainEdge loopedPair = .error (.searchBudgetExhausted 4) ∧
      findFirst ⟨some 3, none⟩ plainEdge loopedPair = .ok (some m) := by
  intro limits limits' m m'
  have easier : limits'.Easier limits := by
    refine ⟨fun k hk => ?_, fun k hk => ?_⟩
    · cases hk
      exact ⟨5, rfl, by decide⟩
    · cases hk
      exact ⟨1, rfl, by decide⟩
  have two : findAll limits plainEdge loopedPair = .ok [m, m'] := by decide +kernel
  obtain ⟨all, hall, -, hmono, -⟩ := findAll_limits plainEdge loopedPair
  have run : findAll {} plainEdge loopedPair = .ok [m, m'] := by decide +kernel
  rw [run, Except.ok.injEq] at hall
  subst hall
  refine ⟨easier, two, hmono limits limits' easier _ two, ?_, ?_⟩
  · decide +kernel
  · decide +kernel

end

end GraphGrammar
