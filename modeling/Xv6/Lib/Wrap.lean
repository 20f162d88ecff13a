import Mathlib.Algebra.Order.Group.Nat

/-!
Free-running 32-bit counters.

A producer/consumer pair that counts bytes with unsigned 32-bit counters never resets
them; the counters wrap past `2^32` and the code compares them only through modular
equalities and differences. `counter n` is the value a counter shows after `n`
increments. As long as the true totals differ by less than `2^32`, the wrapped
difference, the wrapped equalities and the residue modulo any divisor of `2^32` are those
of the true totals, which is what lets a proof about the counters argue about unbounded
natural numbers instead.
-/

namespace Wrap

/-- The value of a 32-bit counter after `n` increments from zero. -/
def counter (n : Nat) : UInt32 := UInt32.ofNat n

theorem counter_toNat (n : Nat) : (counter n).toNat = n % 2 ^ 32 := UInt32.toNat_ofNat'

theorem counter_zero : counter 0 = 0 := rfl

theorem counter_succ (n : Nat) : counter n + 1 = counter (n + 1) := by
  apply UInt32.toNat_inj.mp
  rw [UInt32.toNat_add, counter_toNat, counter_toNat]
  simp only [UInt32.reduceToNat]
  omega

/-- The wrapped difference of two counters is the difference of their totals. -/
theorem counter_sub_toNat {m n : Nat} (h : n ≤ m) (hlt : m - n < 2 ^ 32) :
    (counter m - counter n).toNat = m - n := by
  rw [UInt32.toNat_sub, counter_toNat, counter_toNat]
  omega

/-- A wrapped equality `counter m = counter n + c` holds exactly when the totals differ
by `c`. -/
theorem counter_eq_add_iff {m n c : Nat} (h : n ≤ m) (hlt : m - n < 2 ^ 32) (hc : c < 2 ^ 32) :
    counter m = counter n + counter c ↔ m - n = c := by
  rw [← UInt32.toNat_inj, UInt32.toNat_add, counter_toNat, counter_toNat, counter_toNat]
  omega

theorem counter_pred (n : Nat) : counter (n + 1) - 1 = counter n := by
  rw [← counter_succ, UInt32.add_sub_cancel]

theorem counter_eq_iff {m n : Nat} (h : n ≤ m) (hlt : m - n < 2 ^ 32) :
    counter m = counter n ↔ m = n := by
  rw [← UInt32.toNat_inj, counter_toNat, counter_toNat]
  omega

/-- Reduced modulo a divisor of `2^32`, a counter shows the residue of its total. -/
theorem counter_mod_toNat (m : Nat) {k : Nat} (hk : k ∣ 2 ^ 32) (hk' : k < 2 ^ 32) :
    (counter m % counter k).toNat = m % k := by
  rw [UInt32.toNat_mod, counter_toNat, counter_toNat, Nat.mod_eq_of_lt hk',
    Nat.mod_mod_of_dvd _ hk]

/-- Two totals less than `k` apart leave different residues modulo a divisor `k` of
`2^32`: the slots of a ring of `k` entries indexed by the counters do not collide. -/
theorem counter_mod_ne {j m k : Nat} (hk : k ∣ 2 ^ 32) (hk' : k < 2 ^ 32) (hjm : j < m)
    (hm : m < j + k) : counter j % counter k ≠ counter m % counter k := by
  intro h
  have hmod : j % k = m % k := by
    rw [← counter_mod_toNat j hk hk', ← counter_mod_toNat m hk hk', h]
  have hdvd : k ∣ m - j := Nat.dvd_of_mod_eq_zero (Nat.sub_mod_eq_zero_of_mod_eq hmod.symm)
  have := Nat.eq_zero_of_dvd_of_lt hdvd (by omega)
  omega

end Wrap
