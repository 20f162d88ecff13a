import Mathlib.Logic.Function.Basic
import Mathlib.Algebra.Group.Nat.Defs

/-!
Copying a window of a memory addressed by 32-bit pointers.

A pointer is a `UInt32`, so `p + UInt32.ofNat i` wraps past `2^32`. A window `[p, p + n)`
that does not wrap (`p.toNat + n ≤ 2^32`) has `n` distinct addresses, the `i`-th at
`p.toNat + i`. `Copied m m₀ dst src lo hi` is what a copy loop has done once it has moved the
entries `[lo, hi)` of the window at `src` in `m₀` to the window at `dst`: those entries of `m`
are the source's, and every other address keeps its entry of `m₀`. A loop that copies upwards
grows `hi` one entry at a time (`Copied.up`), one that copies downwards lowers `lo`
(`Copied.down`); each step needs only that the entry it reads has not been overwritten yet.
-/

namespace Copy

/-- The `i`-th address of a window that does not wrap. -/
theorem toNat_add_ofNat {p : UInt32} {i : Nat} (h : p.toNat + i < 2 ^ 32) :
    (p + UInt32.ofNat i).toNat = p.toNat + i := by
  rw [UInt32.toNat_add, UInt32.toNat_ofNat']
  omega

/-- Two offsets into a window that does not wrap are two addresses. -/
theorem add_ofNat_ne {p : UInt32} {i j : Nat} (hi : p.toNat + i < 2 ^ 32)
    (hj : p.toNat + j < 2 ^ 32) (hne : i ≠ j) : p + UInt32.ofNat i ≠ p + UInt32.ofNat j := by
  intro h
  have := congrArg UInt32.toNat h
  rw [toNat_add_ofNat hi, toNat_add_ofNat hj] at this
  omega

/-- Offsets into two windows that do not wrap meet only where the numbers do. -/
theorem add_ofNat_ne_add_ofNat {p q : UInt32} {i j : Nat} (hi : p.toNat + i < 2 ^ 32)
    (hj : q.toNat + j < 2 ^ 32) (hne : p.toNat + i ≠ q.toNat + j) :
    p + UInt32.ofNat i ≠ q + UInt32.ofNat j := by
  intro h
  have := congrArg UInt32.toNat h
  rw [toNat_add_ofNat hi, toNat_add_ofNat hj] at this
  exact hne this

/-- An address outside a window that does not wrap is none of its addresses. -/
theorem ne_add_ofNat_of_not_mem {p a : UInt32} {n : Nat} (hp : p.toNat + n ≤ 2 ^ 32)
    (ha : a.toNat < p.toNat ∨ p.toNat + n ≤ a.toNat) {i : Nat} (hi : i < n) :
    a ≠ p + UInt32.ofNat i := by
  intro h
  rw [h, toNat_add_ofNat (by omega)] at ha
  omega

theorem add_ofNat_succ_sub_one (p : UInt32) (k : Nat) :
    p + UInt32.ofNat (k + 1) - 1 = p + UInt32.ofNat k := by
  rw [UInt32.ofNat_add, ← UInt32.add_assoc]
  exact UInt32.add_sub_cancel _ _

theorem add_ofNat_add_one (p : UInt32) (k : Nat) :
    p + UInt32.ofNat k + 1 = p + UInt32.ofNat (k + 1) := by
  rw [UInt32.ofNat_add, UInt32.add_assoc]
  rfl

variable {β : Type}

/-- The entries `[lo, hi)` of the window at `src` in `m₀` are at the window at `dst` in `m`, and
every address that is not one of those `hi - lo` destination addresses keeps its entry of
`m₀`. -/
structure Copied (m m₀ : UInt32 → β) (dst src : UInt32) (lo hi : Nat) : Prop where
  copied : ∀ i, lo ≤ i → i < hi → m (dst + UInt32.ofNat i) = m₀ (src + UInt32.ofNat i)
  frame : ∀ a, (∀ i, lo ≤ i → i < hi → a ≠ dst + UInt32.ofNat i) → m a = m₀ a

variable {m m₀ : UInt32 → β} {dst src : UInt32} {lo hi : Nat}

/-- Before the first step nothing is copied. -/
theorem Copied.empty (m₀ : UInt32 → β) (dst src : UInt32) (k : Nat) : Copied m₀ m₀ dst src k k :=
  ⟨fun _ h₁ h₂ => absurd (Nat.lt_of_le_of_lt h₁ h₂) (Nat.lt_irrefl _), fun _ _ => rfl⟩

/-- One more entry at the top: the store at `dst + hi` of the entry at `src + hi`, which must
still be the one of `m₀`. -/
theorem Copied.up (h : Copied m m₀ dst src lo hi) (hlo : lo ≤ hi) (hd : dst.toNat + hi < 2 ^ 32)
    (hread : m (src + UInt32.ofNat hi) = m₀ (src + UInt32.ofNat hi)) :
    Copied (Function.update m (dst + UInt32.ofNat hi) (m (src + UInt32.ofNat hi))) m₀ dst src
      lo (hi + 1) := by
  refine ⟨fun i h₁ h₂ => ?_, fun a ha => ?_⟩
  · rcases Nat.lt_succ_iff_lt_or_eq.mp h₂ with hlt | rfl
    · -- an entry copied before: the new store is at another address
      rw [Function.update_of_ne (add_ofNat_ne (by omega) hd (by omega))]
      exact h.copied i h₁ hlt
    · rw [Function.update_self, hread]
  · rw [Function.update_of_ne (ha hi hlo (Nat.lt_succ_self hi))]
    exact h.frame a fun i h₁ h₂ => ha i h₁ (Nat.lt_succ_of_lt h₂)

/-- One more entry at the bottom: the store at `dst + lo` of the entry at `src + lo`, which
must still be the one of `m₀`. -/
theorem Copied.down (h : Copied m m₀ dst src (lo + 1) hi) (hlo : lo < hi)
    (hd : dst.toNat + hi ≤ 2 ^ 32)
    (hread : m (src + UInt32.ofNat lo) = m₀ (src + UInt32.ofNat lo)) :
    Copied (Function.update m (dst + UInt32.ofNat lo) (m (src + UInt32.ofNat lo))) m₀ dst src
      lo hi := by
  refine ⟨fun i h₁ h₂ => ?_, fun a ha => ?_⟩
  · rcases Nat.eq_or_lt_of_le h₁ with rfl | hlt
    · rw [Function.update_self, hread]
    · -- an entry copied before: the new store is at another address
      rw [Function.update_of_ne (add_ofNat_ne (by omega) (by omega) (by omega))]
      exact h.copied i hlt h₂
  · rw [Function.update_of_ne (ha lo (Nat.le_refl lo) hlo)]
    exact h.frame a fun i h₁ h₂ => ha i (Nat.le_of_succ_le h₁) h₂

end Copy
