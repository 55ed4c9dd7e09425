import GraphGrammar.Proofs.Occurrences
import GraphGrammar.Proofs.Rounds

/-!
# Searching for no more than is applied

A derivation that always applies the first occurrence on offer need not have the others found. With less quota and more
budget each production still offers its first occurrence, or none as before, so the first one of all is the same, and it
leads to the same graph. Hence the runs go the same way, round by round, as long as the full search does not fail. Where
it does, the quick one may still go on.
-/

namespace GraphGrammar

/-! ## The first of what is found -/

namespace SearchLimits

variable {limits : SearchLimits}

/-- Any quota leaves the first embedding, apart from the one that asks for none. -/
theorem head?_wanted (nonzero : limits.maxMatches ≠ some 0) (all : List Mapping) :
    (limits.wanted all).head? = all.head? := by
  rw [wanted]
  split
  · rfl
  · next quota hk =>
    have hpos : quota.toNat ≠ 0 := fun h => nonzero (hk.trans (congrArg _ (UInt64.toNat_inj.mp h)))
    rw [List.head?_take, if_neg hpos]

theorem Easier.refl (limits : SearchLimits) : limits.Easier limits where
  stepLimit k hk := ⟨k, hk, UInt64.le_refl k⟩
  maxMatches k hk := ⟨k, hk, UInt64.le_refl k⟩

end SearchLimits

theorem head?_flatten_congr {α : Type} {xs ys : List (List α)}
    (h : List.Forall₂ (fun x y => x.head? = y.head?) xs ys) : xs.flatten.head? = ys.flatten.head? := by
  induction h with
  | nil => rfl
  | cons hd _ ih => rw [List.flatten_cons, List.flatten_cons, List.head?_append, List.head?_append, hd, ih]

namespace SearchSettings

/-- The first settings leave at least the budget of the second ones and want no more occurrences of a production, but at
least one. They skip the same productions. -/
structure Quicker (settings' settings : SearchSettings) : Prop where
  limits : settings'.limits.Easier settings.limits
  nonzero : settings'.maxMatches ≠ some 0
  skipEmptyPatterns : settings'.skipEmptyPatterns = settings.skipEmptyPatterns

variable {settings settings' : SearchSettings} {host : Graph} {p : Production} {ps : List Production} {index : Nat}
  {offer : List Occurrence}

theorem quicker_of_quota {k : UInt64} (all : settings.maxMatches = none) (positive : 0 < k) :
    Quicker { settings with maxMatches := some k } settings where
  limits := by
    refine ⟨fun limit hl => ⟨limit, hl, UInt64.le_refl limit⟩, fun quota hq => ?_⟩
    have hnone : settings.maxMatches = some quota := hq
    rw [all] at hnone
    cases hnone
  nonzero h := by
    obtain rfl := Option.some.inj h
    exact absurd positive (by decide)
  skipEmptyPatterns := rfl

namespace Quicker

variable (quicker : settings'.Quicker settings)
include quicker

theorem maxMatches_ne_zero : settings.maxMatches ≠ some 0 := by
  intro hzero
  obtain ⟨k, hk, hle⟩ := quicker.limits.maxMatches 0 hzero
  have hk0 : k = 0 := by
    rw [UInt64.le_iff_toNat_le] at hle
    exact UInt64.toNat_inj.mp (Nat.le_zero.mp hle)
  exact quicker.nonzero (hk.trans (congrArg _ hk0))

theorem head?_occurrencesOf (h : settings.occurrencesOf host p index = .ok offer) :
    ∃ offer', settings'.occurrencesOf host p index = .ok offer' ∧ offer.head? = offer'.head? := by
  rw [occurrencesOf] at h ⊢
  rw [quicker.skipEmptyPatterns]
  split at h
  · next hskip =>
    cases h
    exact ⟨[], by rw [if_pos hskip]; rfl, rfl⟩
  · next hskip =>
    obtain ⟨ms, hms, h⟩ := bind_eq_ok.mp h
    cases h
    have hms' := findAll_of_easier quicker.limits hms
    have hall := findAll_of_easier (.refl _) hms
    rw [hms, Except.ok.injEq] at hall
    refine ⟨_, by rw [if_neg hskip, hms']; rfl, ?_⟩
    rw [List.head?_map, List.head?_map, hall, SearchLimits.head?_wanted quicker.maxMatches_ne_zero,
      SearchLimits.head?_wanted quicker.nonzero]

/-- Where all occurrences are found, the first of them is found in less time, too. -/
theorem head?_occurrences (h : settings.occurrences host ps = .ok offer) :
    ∃ offer', settings'.occurrences host ps = .ok offer' ∧ offer.head? = offer'.head? := by
  obtain ⟨offers, hoffers, h⟩ := bind_eq_ok.mp h
  cases h
  obtain ⟨offers', hoffers', heads⟩ := exists_mapM_of_ok hoffers fun _ _ _ ho => quicker.head?_occurrencesOf ho
  refine ⟨offers'.flatten, ?_, head?_flatten_congr heads⟩
  rw [occurrences, hoffers']
  rfl

end Quicker
end SearchSettings

/-! ## Runs -/

namespace Derivation

theorem Outcome.ending_ne_failed {o : Outcome} {report : Report} (h : o.report? = some report) (e : Error) :
    o.ending ≠ .failed e := by
  rw [(report?_eq_some h).1]
  exact nofun

variable {settings settings' : SearchSettings} {ps : List Production} {cap : UInt64} {s : State Unit} {rounds : Nat}

section
variable (quicker : settings'.Quicker settings)
include quicker

/-- A round that does not fail goes the same way when less is searched for. -/
theorem round_of_quicker (h : ∀ e, (round settings ps (.firstMatch cap) s).2 ≠ some (.failed e)) :
    round settings' ps (.firstMatch cap) s = round settings ps (.firstMatch cap) s := by
  rcases hc : (Strategy.firstMatch cap).continues s.steps.size s.graph s.memory with ⟨_ | _, asked⟩
  · rw [round_of_halt hc, round_of_halt hc]
  cases ho : settings.occurrences s.graph ps with
  | error e => exact absurd (congrArg Prod.snd (round_of_failure hc ho)) (h e)
  | ok offer =>
    obtain ⟨offer', ho', head⟩ := quicker.head?_occurrences ho
    by_cases hnil : offer = []
    · subst hnil
      have hnil' : offer' = [] := List.head?_eq_none_iff.mp head.symm
      subst hnil'
      rw [round_of_exhaustion hc ho, round_of_exhaustion hc ho']
    · have hne' : offer' ≠ [] := by
        rwa [ne_eq, ← List.head?_eq_none_iff, ← head, List.head?_eq_none_iff]
      have first (offer : List Occurrence) : (some 0).bind (offer[·]?) = offer.head? := List.head?_eq_getElem?.symm
      rw [round_of_offer hc ho hnil rfl, round_of_offer hc ho' hne' rfl, first, first, head]

theorem run_of_quicker (h : ∀ e, (run settings ps (.firstMatch cap) rounds s).2 ≠ .failed e) :
    run settings' ps (.firstMatch cap) rounds s = run settings ps (.firstMatch cap) rounds s := by
  induction rounds generalizing s with
  | zero => rfl
  | succ rounds ih =>
    rw [run] at h ⊢
    have same : round settings' ps (.firstMatch cap) s = round settings ps (.firstMatch cap) s := by
      refine round_of_quicker quicker fun e he => h e ?_
      rw [← Prod.eta (round settings ps (.firstMatch cap) s), he]
    rw [same, run]
    rcases hround : round settings ps (.firstMatch cap) s with ⟨t, _ | ending⟩
    · rw [hround] at h
      exact ih h
    · rfl

theorem runCapped_of_quicker {g : Graph} {report : Report}
    (h : (runCapped settings ps cap (.firstMatch cap) () g).1.report? = some report) :
    runCapped settings' ps cap (.firstMatch cap) () g = runCapped settings ps cap (.firstMatch cap) () g := by
  have finished (e : Error) : (run settings ps (.firstMatch cap) (cap.toNat + 1) ⟨g, (), #[]⟩).2 ≠ .failed e :=
    Outcome.ending_ne_failed h e
  rw [runCapped, run_of_quicker quicker finished, runCapped]

end

/-- What the derivation by first occurrences reports when all occurrences are found, it reports also when the search for
each production ends with the first few, and it leaves the same graph. -/
theorem firstMatch_of_quota {k : UInt64} {g : Graph} {report : Report} (all : settings.maxMatches = none)
    (positive : 0 < k) (h : (runCapped settings ps cap (.firstMatch cap) () g).1.report? = some report) :
    (runCapped { settings with maxMatches := some k } ps cap (.firstMatch cap) () g).1.report? = some report ∧
      (runCapped { settings with maxMatches := some k } ps cap (.firstMatch cap) () g).1.graph =
        (runCapped settings ps cap (.firstMatch cap) () g).1.graph := by
  rw [runCapped_of_quicker (SearchSettings.quicker_of_quota all positive) h]
  exact ⟨h, rfl⟩

section

def dropVertex : Production where
  lhs := (Graph.empty.addVertex ⟨⟨"x"⟩, ⟨"B"⟩⟩).1
  rhs := ∅

/-- The budget covers the search for both edges and no candidate more. One production is skipped, and one occurs
nowhere. -/
theorem firstMatch_of_quota_dropEdge :
    let settings : SearchSettings := { stepLimit := some 6, skipEmptyPatterns := true }
    let quick : SearchSettings := { settings with maxMatches := some 1 }
    let ps := [SearchSettings.sowEdge, dropVertex, SearchSettings.dropEdge]
    settings.maxMatches = none ∧ (0 : UInt64) < 1 ∧ ∃ report,
      (runCapped settings ps 5 (.firstMatch 5) () loopedPair).1.report? = some report ∧
      (runCapped quick ps 5 (.firstMatch 5) () loopedPair).1.report? = some report ∧
      (runCapped quick ps 5 (.firstMatch 5) () loopedPair).1.graph =
        (runCapped settings ps 5 (.firstMatch 5) () loopedPair).1.graph ∧
      report.steps.map (·.index) = [2, 2] ∧ report.stop = .exhausted := by
  intro settings quick ps
  have full : ((runCapped settings ps 5 (.firstMatch 5) () loopedPair).1.report?.map fun report =>
      (report.steps.map (·.index), report.stop)) = some ([2, 2], .exhausted) := by
    decide +kernel
  obtain ⟨report, h, content⟩ := Option.map_eq_some_iff.mp full
  obtain ⟨steps, stop⟩ := Prod.mk.injEq .. ▸ content
  obtain ⟨same, graph⟩ := firstMatch_of_quota rfl (by decide : (0 : UInt64) < 1) h
  exact ⟨rfl, by decide, report, h, same, graph, steps, stop⟩

end
end Derivation
end GraphGrammar
