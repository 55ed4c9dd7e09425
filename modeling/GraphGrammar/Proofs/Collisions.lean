import GraphGrammar.Proofs.Mappings
import GraphGrammar.Proofs.Ordering

/-!
# The first collision

The search for a collision goes through the pairs of a mapping in order and keeps the images that it has met. It stops
at the least vertex whose image a lesser one has too, and that lesser vertex is the only one, since no image has come
twice before. `IsFirstCollision` says this without the search: it finds this collision in every mapping that is not
injective.
-/

namespace GraphGrammar.Mapping
open Std

variable {m : Mapping} {x x' y z : VertexId} {before pairs : List (VertexId × VertexId)} {c : Collision}

/-- A lesser vertex has the image of this one, too. -/
def Collides (m : Mapping) (y : VertexId) : Prop := ∃ x z, x < y ∧ m.get? x = some z ∧ m.get? y = some z

/-- The pairs met before have different images, and the search has kept them. Then it stops at the first pair that
brings an image again. -/
theorem collisionAmong_eq_some {seen : ExtTreeMap VertexId VertexId} (nodup : (before.map Prod.snd).Nodup)
    (kept : ∀ x z, seen[z]? = some x ↔ (x, z) ∈ before) :
    collisionAmong seen pairs = some c ↔
      ∃ front back, pairs = front ++ (c.second, c.host) :: back ∧ (c.first, c.host) ∈ before ++ front ∧
        ((before ++ front).map Prod.snd).Nodup := by
  induction pairs generalizing seen before with
  | nil => simp [collisionAmong]
  | cons pair pairs ih =>
    obtain ⟨y, z⟩ := pair
    rw [collisionAmong]
    cases hs : seen[z]? with
    | some x =>
      have hx := (kept x z).mp hs
      refine ⟨?_, ?_⟩
      · intro h
        cases h
        exact ⟨[], pairs, rfl, by simpa using hx, by simpa using nodup⟩
      · intro h
        obtain ⟨front, back, split, hfirst, hn⟩ := h
        cases front with
        | nil =>
          obtain ⟨hpair, -⟩ := List.cons.inj split
          obtain ⟨rfl, rfl⟩ := Prod.mk.inj hpair
          rw [List.append_nil, ← kept, hs, Option.some.injEq] at hfirst
          rw [hfirst]
        | cons pair front =>
          -- This pair brings an image again, so it is not among those with different images.
          obtain ⟨rfl, -⟩ := List.cons.inj split
          rw [List.map_append, List.nodup_append] at hn
          exact absurd rfl (hn.2.2 z (List.mem_map_of_mem hx) z List.mem_cons_self)
    | none =>
      have fresh : z ∉ before.map Prod.snd := by
        intro hz
        obtain ⟨⟨x, _⟩, hx, rfl⟩ := List.mem_map.mp hz
        rw [← kept, hs] at hx
        cases hx
      have nodup' : ((before ++ [(y, z)]).map Prod.snd).Nodup := by
        rw [List.map_append, List.map_singleton, List.nodup_append_comm]
        exact List.nodup_cons.mpr ⟨fresh, nodup⟩
      have kept' (x w : VertexId) : (seen.insert z y)[w]? = some x ↔ (x, w) ∈ before ++ [(y, z)] := by
        rw [ExtTreeMap.getElem?_insert, List.mem_append, List.mem_singleton, Prod.mk.injEq, ← kept]
        by_cases hw : z = w
        · subst hw
          simp [hs, eq_comm]
        · simp [hw, Ne.symm hw]
      rw [ih nodup' kept']
      refine ⟨?_, ?_⟩
      · intro h
        obtain ⟨front, back, rfl, h⟩ := h
        exact ⟨(y, z) :: front, back, rfl, by simpa using h⟩
      · intro h
        obtain ⟨front, back, split, hfirst, hn⟩ := h
        cases front with
        | nil =>
          obtain ⟨hpair, -⟩ := List.cons.inj split
          obtain ⟨rfl, rfl⟩ := Prod.mk.inj hpair
          rw [List.append_nil, ← kept, hs] at hfirst
          cases hfirst
        | cons pair front =>
          obtain ⟨rfl, rfl⟩ := List.cons.inj split
          exact ⟨front, back, rfl, by simpa using hfirst, by simpa using hn⟩

/-- Of two vertices with one image the greater one collides, so below a vertex before which none does an image has only
one vertex. -/
theorem eq_of_not_collides_before (hleast : ∀ w, w < y → ¬ m.Collides w) (hlt : x < y) (hlt' : x' < y)
    (hx : m.get? x = some z) (hx' : m.get? x' = some z) : x = x' := by
  rcases VertexId.lt_trichotomy x x' with hxx | heq | hxx
  · exact absurd ⟨x, z, hxx, hx, hx'⟩ (hleast x' hlt')
  · exact heq
  · exact absurd ⟨x', z, hxx, hx', hx⟩ (hleast x hlt)

/-- The pairs in front of a vertex have different images exactly when no vertex before it collides. -/
theorem nodup_front_iff {front back : List (VertexId × VertexId)} (split : m.toList = front ++ (y, z) :: back) :
    (front.map Prod.snd).Nodup ↔ ∀ w, w < y → ¬ m.Collides w := by
  have hfront (x w : VertexId) : (x, w) ∈ front ↔ m.get? x = some w ∧ x < y := by
    rw [mem_front_iff (fun _ _ => VertexId.lt_asymm) m.toList_ordered split, mem_toList]
  refine ⟨?_, ?_⟩
  · intro hn w hw hcollides
    obtain ⟨x, u, hlt, hx, hu⟩ := hcollides
    have hpair := List.inj_on_of_nodup_map hn ((hfront x u).mpr ⟨hx, VertexId.lt_trans hlt hw⟩)
      ((hfront w u).mpr ⟨hu, hw⟩) rfl
    exact VertexId.ne_of_lt hlt (congrArg Prod.fst hpair)
  · intro h
    have keys : front.Nodup := by
      have hn := m.nodup_keys.of_map
      rw [split] at hn
      exact (List.nodup_append.mp hn).1
    refine List.Nodup.map_on ?_ keys
    intro e he e' he' heq
    obtain ⟨x, u⟩ := e
    obtain ⟨x', u'⟩ := e'
    obtain rfl : u = u' := heq
    obtain ⟨hx, hlt⟩ := (hfront x u).mp he
    obtain ⟨hx', hlt'⟩ := (hfront x' u).mp he'
    rw [eq_of_not_collides_before h hlt hlt' hx hx']

/-- The collision that is found is that of the least vertex whose image a lesser one has. -/
theorem collision?_eq_some : m.collision? = some c ↔
    VertexId.IsLeast m.Collides c.second ∧ c.first < c.second ∧ m.get? c.first = some c.host ∧
      m.get? c.second = some c.host := by
  have scan := @collisionAmong_eq_some [] m.toList c ∅ List.nodup_nil (by simp)
  rw [collision?, scan]
  simp only [List.nil_append]
  refine ⟨?_, ?_⟩
  · intro h
    obtain ⟨front, back, split, hfirst, hn⟩ := h
    rw [mem_front_iff (fun _ _ => VertexId.lt_asymm) m.toList_ordered split, mem_toList] at hfirst
    obtain ⟨hfirst, hlt⟩ := hfirst
    have hsecond : m.get? c.second = some c.host := by
      rw [← mem_toList, split]
      exact List.mem_append_right front List.mem_cons_self
    exact ⟨⟨⟨c.first, c.host, hlt, hfirst, hsecond⟩, (nodup_front_iff split).mp hn⟩, hlt, hfirst, hsecond⟩
  · intro h
    obtain ⟨⟨-, hleast⟩, hlt, hfirst, hsecond⟩ := h
    obtain ⟨front, back, split⟩ := List.append_of_mem (mem_toList.mpr hsecond)
    refine ⟨front, back, split, ?_, (nodup_front_iff split).mpr hleast⟩
    rw [mem_front_iff (fun _ _ => VertexId.lt_asymm) m.toList_ordered split, mem_toList]
    exact ⟨hfirst, hlt⟩

/-! ## The search against its result -/

/-- The collision to be found: its second vertex is the least whose image a lesser one has, the host is that image, and
its first vertex is the only lesser one with it. -/
structure IsFirstCollision (m : Mapping) (c : Collision) : Prop where
  least : VertexId.IsLeast m.Collides c.second
  image : m.get? c.second = some c.host
  first : ∀ x, x < c.second ∧ m.get? x = some c.host ↔ x = c.first

theorem isInjective_iff : m.isInjective = true ↔ m.Injective := by
  rw [isInjective, Option.isNone_iff_eq_none, collision?_eq_none]

theorem exists_collision?_iff : (∃ c, m.collision? = some c) ↔ ¬ m.Injective := by
  rw [← collision?_eq_none, ← ne_eq, Option.ne_none_iff_exists']

theorem isFirstCollision_of_collision? (h : m.collision? = some c) : m.IsFirstCollision c := by
  obtain ⟨least, hlt, hfirst, hsecond⟩ := collision?_eq_some.mp h
  refine ⟨least, hsecond, fun x => ⟨?_, ?_⟩⟩
  · intro hx
    exact eq_of_not_collides_before least.2 hx.1 hlt hx.2 hfirst
  · rintro rfl
    exact ⟨hlt, hfirst⟩

theorem IsFirstCollision.collision?_eq_some (h : m.IsFirstCollision c) : m.collision? = some c := by
  obtain ⟨hlt, hfirst⟩ := (h.first c.first).mpr rfl
  exact Mapping.collision?_eq_some.mpr ⟨h.least, hlt, hfirst, h.image⟩

/-- No collision is found exactly in the injective mappings. In every other mapping one is found, and it is the
first. -/
theorem collision?_exact (m : Mapping) :
    (m.collision? = none ↔ m.Injective) ∧ (m.isInjective = true ↔ m.Injective) ∧
      ((∃ c, m.collision? = some c) ↔ ¬ m.Injective) ∧
      ∀ c, m.collision? = some c ↔ m.IsFirstCollision c := by
  refine ⟨collision?_eq_none, isInjective_iff, exists_collision?_iff, fun c => ⟨?_, ?_⟩⟩
  · exact isFirstCollision_of_collision?
  · exact IsFirstCollision.collision?_eq_some

/-- `p` and `s` have one image, too, but `r` is less than `s`. -/
example : (ofList [(⟨"p"⟩, ⟨"u"⟩), (⟨"q"⟩, ⟨"v"⟩), (⟨"r"⟩, ⟨"v"⟩), (⟨"s"⟩, ⟨"u"⟩)]).collision? =
    some ⟨⟨"v"⟩, ⟨"q"⟩, ⟨"r"⟩⟩ := by
  decide +kernel

end GraphGrammar.Mapping
