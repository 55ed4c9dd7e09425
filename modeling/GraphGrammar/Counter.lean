/-!
# Counters

A counter is a 64-bit word that only grows: it stops at the largest word instead of wrapping.
-/

namespace GraphGrammar

/-- A word that counts upwards and stays at the largest word. -/
abbrev Counter := UInt64

/-- One more, or the same at the largest word. -/
def Counter.next (n : Counter) : Counter := if n + 1 = 0 then n else n + 1

theorem Counter.toNat_next (n : Counter) : n.next.toNat = min (n.toNat + 1) (UInt64.size - 1) := by
  have hn := n.toNat_lt
  have hs : UInt64.size = 18446744073709551616 := rfl
  have h1 : (n + 1).toNat = (n.toNat + 1) % 2 ^ 64 := by simp [UInt64.toNat_add]
  unfold Counter.next
  split
  · next h =>
    have h0 : (n + 1).toNat = 0 := by rw [h]; rfl
    omega
  · next h =>
    have h0 : (n + 1).toNat ≠ 0 := fun e => h (UInt64.toNat_inj.mp (by simpa using e))
    omega

theorem Counter.toNat_next_of_lt {n : Counter} (h : n.toNat < UInt64.size - 1) : n.next.toNat = n.toNat + 1 := by
  rw [Counter.toNat_next]
  omega

theorem Counter.next_eq_add_one {n : Counter} (h : n.toNat < UInt64.size - 1) : n.next = n + 1 := by
  apply UInt64.toNat_inj.mp
  have hs : UInt64.size = 18446744073709551616 := rfl
  have hadd : (n + 1).toNat = (n.toNat + 1) % 2 ^ 64 := by simp [UInt64.toNat_add]
  rw [Counter.toNat_next_of_lt h]
  omega

end GraphGrammar
