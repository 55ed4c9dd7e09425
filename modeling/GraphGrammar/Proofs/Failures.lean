import Mathlib.Data.List.Forall2

/-!
# Computations that can fail

How a computation succeeds or fails that is made of others, one after another or along a list.
-/

namespace GraphGrammar

variable {α β ε : Type} {e : ε} {l : List α} {r : List β}

theorem bind_eq_ok {x : Except ε α} {f : α → Except ε β} {b : β} :
    (x >>= f) = .ok b ↔ ∃ a, x = .ok a ∧ f a = .ok b := by
  cases x <;> simp [bind, Except.bind]

theorem bind_eq_error {x : Except ε α} {f : α → Except ε β} :
    (x >>= f) = .error e ↔ x = .error e ∨ ∃ a, x = .ok a ∧ f a = .error e := by
  cases x <;> simp [bind, Except.bind]

theorem mapM_eq_ok {f : α → Except ε β} : l.mapM f = .ok r ↔ List.Forall₂ (fun a b => f a = .ok b) l r := by
  refine ⟨fun h => ?_, fun h => ?_⟩
  · induction l generalizing r with
    | nil =>
      cases h
      exact .nil
    | cons a l ih =>
      rw [List.mapM_cons, bind_eq_ok] at h
      obtain ⟨b, hb, h⟩ := h
      obtain ⟨bs, hbs, h⟩ := bind_eq_ok.mp h
      cases h
      exact .cons hb (ih hbs)
  · induction h with
    | nil => rfl
    | cons hd _ ih =>
      rw [List.mapM_cons, hd, ih]
      rfl

/-- A computation along a list fails as it does at the first entry at which it fails. -/
theorem mapM_eq_error {f : α → Except ε β} : l.mapM f = .error e ↔
    ∃ before a after bs, l = before ++ a :: after ∧ before.mapM f = .ok bs ∧ f a = .error e := by
  induction l with
  | nil =>
    refine ⟨fun h => (by cases h), ?_⟩
    intro h
    obtain ⟨before, a, after, -, split, -⟩ := h
    simp at split
  | cons a l ih =>
    rw [List.mapM_cons, bind_eq_error]
    refine ⟨?_, ?_⟩
    · intro h
      rcases h with h | ⟨b, hb, h⟩
      · exact ⟨[], a, l, [], rfl, rfl, h⟩
      · rcases bind_eq_error.mp h with h | ⟨bs, -, h⟩
        · obtain ⟨before, c, after, bs, rfl, hbs, hfail⟩ := ih.mp h
          refine ⟨a :: before, c, after, b :: bs, rfl, ?_, hfail⟩
          rw [List.mapM_cons, hb, hbs]
          rfl
        · cases h
    · intro h
      obtain ⟨before, c, after, bs, split, hbs, hfail⟩ := h
      cases before with
      | nil =>
        obtain ⟨rfl, rfl⟩ := List.cons.inj split
        exact .inl hfail
      | cons _ before =>
        obtain ⟨rfl, rfl⟩ := List.cons.inj split
        rw [List.mapM_cons, bind_eq_ok] at hbs
        obtain ⟨b, hb, hbs⟩ := hbs
        obtain ⟨bs', hbs', -⟩ := bind_eq_ok.mp hbs
        exact .inr ⟨b, hb, bind_eq_error.mpr (.inl (ih.mpr ⟨before, c, after, bs', rfl, hbs', hfail⟩))⟩

theorem exists_error_of_mapM {f : α → Except ε β} (h : l.mapM f = .error e) : ∃ a ∈ l, f a = .error e := by
  obtain ⟨before, a, after, -, rfl, -, hfail⟩ := mapM_eq_error.mp h
  exact ⟨a, List.mem_append_right before List.mem_cons_self, hfail⟩

/-- Where a computation succeeds at each entry as far as another one does, it succeeds along a list as far as that. -/
theorem exists_mapM_of_ok {γ : Type} {R : β → γ → Prop} {f : α → Except ε β} {f' : α → Except ε γ}
    (h : l.mapM f = .ok r) (step : ∀ a ∈ l, ∀ b, f a = .ok b → ∃ c, f' a = .ok c ∧ R b c) :
    ∃ r', l.mapM f' = .ok r' ∧ List.Forall₂ R r r' := by
  induction l generalizing r with
  | nil =>
    cases h
    exact ⟨[], rfl, .nil⟩
  | cons a l ih =>
    rw [List.mapM_cons, bind_eq_ok] at h
    obtain ⟨b, hb, h⟩ := h
    obtain ⟨bs, hbs, h⟩ := bind_eq_ok.mp h
    cases h
    obtain ⟨c, hc, hbc⟩ := step a List.mem_cons_self b hb
    obtain ⟨cs, hcs, related⟩ := ih hbs fun a ha => step a (List.mem_cons_of_mem _ ha)
    refine ⟨c :: cs, ?_, .cons hbc related⟩
    rw [List.mapM_cons, hc, hcs]
    rfl

/-- When steps along a list fail, one of them fails, and those in front of it succeed. -/
theorem foldlM_eq_error {f : β → α → Except ε β} {b : β} : l.foldlM f b = .error e ↔
    ∃ before a after c, l = before ++ a :: after ∧ before.foldlM f b = .ok c ∧ f c a = .error e := by
  induction l generalizing b with
  | nil =>
    refine ⟨fun h => (by cases h), ?_⟩
    intro h
    obtain ⟨before, a, after, -, split, -⟩ := h
    simp at split
  | cons a l ih =>
    rw [List.foldlM_cons, bind_eq_error]
    refine ⟨?_, ?_⟩
    · intro h
      rcases h with h | ⟨c, hc, h⟩
      · exact ⟨[], a, l, b, rfl, rfl, h⟩
      · obtain ⟨before, a', after, d, rfl, hd, hfail⟩ := ih.mp h
        exact ⟨a :: before, a', after, d, rfl, bind_eq_ok.mpr ⟨c, hc, hd⟩, hfail⟩
    · intro h
      obtain ⟨before, a', after, d, split, hd, hfail⟩ := h
      cases before with
      | nil =>
        obtain ⟨rfl, rfl⟩ := List.cons.inj split
        cases hd
        exact .inl hfail
      | cons _ before =>
        obtain ⟨rfl, rfl⟩ := List.cons.inj split
        obtain ⟨c, hc, hd⟩ := bind_eq_ok.mp hd
        exact .inr ⟨c, hc, ih.mpr ⟨before, a', after, d, rfl, hd, hfail⟩⟩

/-- What each step keeps that gets through, a computation along a list keeps. -/
theorem foldlM_induction {σ α : Type} {step : σ → α → Option σ} {l : List α} {s s' : σ} (motive : σ → Prop)
    (h : l.foldlM step s = some s') (hs : motive s)
    (hstep : ∀ s, motive s → ∀ a ∈ l, ∀ s', step s a = some s' → motive s') : motive s' := by
  induction l generalizing s with
  | nil =>
    cases h
    exact hs
  | cons a l ih =>
    rw [List.foldlM_cons] at h
    obtain ⟨s₁, first, rest⟩ := Option.bind_eq_some_iff.mp h
    exact ih rest (hstep s hs a List.mem_cons_self s₁ first) fun s hs b hb => hstep s hs b (List.mem_cons_of_mem a hb)

theorem exists_of_mem_forall₂ {R : α → β → Prop} {b : β} (h : List.Forall₂ R l r) (hb : b ∈ r) :
    ∃ a ∈ l, R a b := by
  induction h with
  | nil => cases hb
  | cons hd _ ih =>
    rcases List.mem_cons.mp hb with rfl | hb
    · exact ⟨_, List.mem_cons_self, hd⟩
    · obtain ⟨a, ha, hab⟩ := ih hb
      exact ⟨a, List.mem_cons_of_mem _ ha, hab⟩

theorem exists_forall₂_iff {R : α → β → Prop} : (∃ r, List.Forall₂ R l r) ↔ ∀ a ∈ l, ∃ b, R a b := by
  induction l with
  | nil => exact ⟨fun _ => List.forall_mem_nil _, fun _ => ⟨[], .nil⟩⟩
  | cons a l ih =>
    rw [List.forall_mem_cons, ← ih]
    refine ⟨?_, ?_⟩
    · intro h
      obtain ⟨r, hr⟩ := h
      cases hr with
      | cons hd tl => exact ⟨⟨_, hd⟩, _, tl⟩
    · intro h
      obtain ⟨⟨b, hb⟩, r, hr⟩ := h
      exact ⟨b :: r, .cons hb hr⟩

/-- Relations between entries carry over to the entries that go with them. -/
theorem pairwise_of_forall₂ {R : α → β → Prop} {S : α → α → Prop} {T : β → β → Prop} (h : List.Forall₂ R l r)
    (hl : l.Pairwise S) (step : ∀ a a' b b', R a b → R a' b' → S a a' → T b b') : r.Pairwise T := by
  induction h with
  | nil => exact .nil
  | cons hd tl ih =>
    rw [List.pairwise_cons] at hl
    refine List.pairwise_cons.mpr ⟨fun b' hb' => ?_, ih hl.2⟩
    obtain ⟨a', ha', hab'⟩ := exists_of_mem_forall₂ tl hb'
    exact step _ a' _ b' hd hab' (hl.1 a' ha')

/-! ## Computations that go alike -/

/-- Both computations fail with one error, or both succeed with results that are related. -/
inductive Alike (R : α → β → Prop) : Except ε α → Except ε β → Prop where
  | ok {a : α} {b : β} (h : R a b) : Alike R (.ok a) (.ok b)
  | error (e : ε) : Alike R (.error e) (.error e)

theorem Alike.eq_cases {R : α → β → Prop} {x : Except ε α} {y : Except ε β} (h : Alike R x y) :
    (∃ e, x = .error e ∧ y = .error e) ∨ ∃ a b, x = .ok a ∧ y = .ok b ∧ R a b := by
  cases h with
  | ok hab => exact .inr ⟨_, _, rfl, rfl, hab⟩
  | error e => exact .inl ⟨e, rfl, rfl⟩

theorem Alike.bind {α' β' : Type} {R : α → β → Prop} {S : α' → β' → Prop} {x : Except ε α} {y : Except ε β}
    {f : α → Except ε α'} {f' : β → Except ε β'} (h : Alike R x y) (hf : ∀ a b, R a b → Alike S (f a) (f' b)) :
    Alike S (x >>= f) (y >>= f') := by
  cases h with
  | ok hab => exact hf _ _ hab
  | error e => exact .error e

/-- Computations that go alike at each entry of two lists go alike along the lists. -/
theorem Alike.mapM {α' β' : Type} {R : α' → β' → Prop} {f : α → Except ε α'} {f' : β → Except ε β'}
    (h : List.Forall₂ (fun a b => Alike R (f a) (f' b)) l r) : Alike (List.Forall₂ R) (l.mapM f) (r.mapM f') := by
  induction h with
  | nil => exact .ok .nil
  | cons hd _ ih =>
    rw [List.mapM_cons, List.mapM_cons]
    exact hd.bind fun a b hab => ih.bind fun as bs habs => .ok (.cons hab habs)

theorem rel_bind {α α' β β' : Type} {R : α → α' → Prop} {S : β → β' → Prop} {x : Option α} {x' : Option α'}
    {f : α → Option β} {f' : α' → Option β'} (h : Option.Rel R x x')
    (hf : ∀ a a', R a a' → Option.Rel S (f a) (f' a')) : Option.Rel S (x.bind f) (x'.bind f') := by
  cases h with
  | none => exact .none
  | some haa' => exact hf _ _ haa'

theorem foldlM_rel {σ σ' α : Type} {R : σ → σ' → Prop} {step : σ → α → Option σ} {step' : σ' → α → Option σ'}
    {l : List α}
    {s : σ} {s' : σ'} (hs : R s s') (related : ∀ s s', R s s' → ∀ a, Option.Rel R (step s a) (step' s' a)) :
    Option.Rel R (l.foldlM step s) (l.foldlM step' s') := by
  induction l generalizing s s' with
  | nil => exact .some hs
  | cons a l ih => exact rel_bind (related s s' hs a) fun t t' ht => ih ht

end GraphGrammar
