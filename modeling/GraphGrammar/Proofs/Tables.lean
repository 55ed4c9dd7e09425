import Std.Data.ExtTreeMap

/-!
# Ordered tables

What the ordered trees of the standard library leave open and the laws of graphs need: a table after one entry
after another is modified, and the values of a table by its entries.
-/

namespace GraphGrammar.Tables
open Std

variable {κ ν : Type} [Ord κ] [TransOrd κ] {table : ExtTreeMap κ ν}

theorem values_eq_map_snd : table.values = table.toList.map Prod.snd := by
  obtain ⟨⟨t⟩⟩ := table
  induction t using Quotient.ind with | _ t =>
  show DTreeMap.Internal.Impl.values t.inner = (DTreeMap.Internal.Impl.Const.toList t.inner).map Prod.snd
  rw [DTreeMap.Internal.Impl.values_eq_map_snd, DTreeMap.Internal.Impl.Const.toList_eq_toListModel_map]
  simp

theorem mem_insert_of_mem [LawfulEqOrd κ] {a x : κ} {v : ν} (h : a ∈ table) :
    x ∈ table.insert a v ↔ x ∈ table := by
  rw [ExtTreeMap.mem_insert, or_iff_right_iff_imp, Std.compare_eq_iff_eq]
  intro heq
  exact heq ▸ h

theorem mem_foldl_modify {f : ν → ν} {keys : List κ} {x : κ} :
    x ∈ keys.foldl (fun table key => table.modify key f) table ↔ x ∈ table := by
  induction keys generalizing table with
  | nil => rfl
  | cons key keys ih => rw [List.foldl_cons, ih, ExtTreeMap.mem_modify]

/-- A key that occurs more than once is modified more than once, so `f` has to leave alone what it has changed. -/
theorem getElem?_foldl_modify [LawfulEqOrd κ] [DecidableEq κ] {f : ν → ν} (idem : ∀ b, f (f b) = f b)
    {keys : List κ} {x : κ} :
    (keys.foldl (fun table key => table.modify key f) table)[x]? =
      if x ∈ keys then table[x]?.map f else table[x]? := by
  induction keys generalizing table with
  | nil => simp
  | cons key keys ih =>
    rw [List.foldl_cons, ih, ExtTreeMap.getElem?_modify]
    by_cases hx : key = x
    · subst hx
      by_cases hk : key ∈ keys <;> simp [hk, Function.comp_def, idem]
    · by_cases hk : x ∈ keys <;> simp [hk, hx, Ne.symm hx]

/-- A table without one entry, and with all others changed alike. -/
theorem eq_map_erase [LawfulEqOrd κ] [DecidableEq κ] {table' : ExtTreeMap κ ν} {f : ν → ν} {a : κ}
    (erased : table'[a]? = none) (others : ∀ x, x ≠ a → table'[x]? = table[x]?.map f) :
    table' = (table.erase a).map fun _ => f := by
  apply ExtTreeMap.ext_getElem?
  intro x
  rw [ExtTreeMap.getElem?_map, ExtTreeMap.getElem?_erase]
  by_cases hx : x = a
  · subst hx
    rw [erased, if_pos ReflCmp.compare_self, Option.map_none]
  · have hne : ¬ compare a x = .eq := by simpa using Ne.symm hx
    rw [others x hx, if_neg hne]

end GraphGrammar.Tables
