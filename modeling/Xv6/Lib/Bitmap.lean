import Mathlib.Logic.Function.Basic
import Mathlib.Data.Nat.Bitwise

/-!
Bitmaps in a byte-addressed store.

C code keeps a set of numbers as bits of a byte array: number `i` is bit `i % 8` of byte
`i / 8`, tested with `(data[i/8] & m) != 0`, set with `data[i/8] |= m` and cleared with
`data[i/8] &= ~m`, where `m = 1 << (i % 8)`. The lemmas say what the three do to membership:
setting `i` adds `i` and nothing else, clearing removes `i` and nothing else.
-/

namespace Bitmap

/-- `m = 1 << (i % 8)`. -/
def mask (i : Nat) : UInt8 := 1 <<< (i % 8).toUInt8

/-- `(data[i/8] & m) != 0`. -/
def test (m : Nat → UInt8) (i : Nat) : Bool := m (i / 8) &&& mask i != 0

/-- `data[i/8] |= m`. -/
def set (m : Nat → UInt8) (i : Nat) : Nat → UInt8 :=
  Function.update m (i / 8) (m (i / 8) ||| mask i)

/-- `data[i/8] &= ~m`. -/
def clear (m : Nat → UInt8) (i : Nat) : Nat → UInt8 :=
  Function.update m (i / 8) (m (i / 8) &&& ~~~mask i)

theorem mask_toNat (i : Nat) : (mask i).toNat = 2 ^ (i % 8) := by
  have hi : i % 8 < 8 := Nat.mod_lt _ (by decide)
  have hpow : 2 ^ (i % 8) < 2 ^ 8 := Nat.pow_lt_pow_right (by decide) hi
  simp only [mask, UInt8.toNat_shiftLeft, UInt8.toNat_one, Nat.toUInt8_eq, UInt8.toNat_ofNat',
    Nat.one_shiftLeft]
  rw [Nat.mod_eq_of_lt (by omega : i % 8 < 2 ^ 8), Nat.mod_eq_of_lt hi, Nat.mod_eq_of_lt hpow]

/-- The test reads bit `i % 8` of byte `i / 8`. -/
theorem test_eq (m : Nat → UInt8) (i : Nat) : test m i = (m (i / 8)).toNat.testBit (i % 8) := by
  have h : (m (i / 8) &&& mask i).toNat =
      ((m (i / 8)).toNat.testBit (i % 8)).toNat * 2 ^ (i % 8) := by
    rw [UInt8.toNat_and, mask_toNat, Nat.and_two_pow]
  unfold test
  cases hb : (m (i / 8)).toNat.testBit (i % 8)
  · rw [hb] at h
    simp [← UInt8.toNat_inj, h]
  · rw [hb] at h
    simp [← UInt8.toNat_inj, h]

/-- `~m` has every bit of the byte but bit `a % 8`. -/
theorem testBit_not_mask (a b : Nat) (hb : b < 8) :
    (~~~mask a).toNat.testBit b = decide (a % 8 ≠ b) := by
  have key : ∀ a b : Fin 8, (~~~mask a).toNat.testBit b = decide (a.val ≠ b.val) := by decide
  simpa [mask, Nat.mod_mod] using key ⟨a % 8, Nat.mod_lt _ (by decide)⟩ ⟨b, hb⟩

theorem eq_of_div_mod {i j : Nat} (h₁ : j / 8 = i / 8) (h₂ : j % 8 = i % 8) : j = i := by
  omega

@[simp] theorem test_zero (i : Nat) : test (fun _ => 0) i = false := by
  simp [test_eq]

@[simp] theorem test_set (m : Nat → UInt8) (i j : Nat) : test (set m i) j = (j == i || test m j) := by
  rw [test_eq, test_eq, set]
  by_cases h : j / 8 = i / 8
  · rw [h, Function.update_self, UInt8.toNat_or, Nat.testBit_or, mask_toNat, Nat.testBit_two_pow]
    by_cases hji : j = i
    · subst hji
      simp
    · have : i % 8 ≠ j % 8 := fun h' => hji (eq_of_div_mod h h'.symm)
      simp [hji, this]
  · have hji : j ≠ i := fun h' => h (h' ▸ rfl)
    simp [Function.update_of_ne h, hji]

@[simp] theorem test_clear (m : Nat → UInt8) (i j : Nat) :
    test (clear m i) j = (j != i && test m j) := by
  rw [test_eq, test_eq, clear]
  by_cases h : j / 8 = i / 8
  · rw [h, Function.update_self, UInt8.toNat_and, Nat.testBit_and,
      testBit_not_mask _ _ (Nat.mod_lt _ (by decide))]
    by_cases hji : j = i
    · subst hji
      simp
    · have : i % 8 ≠ j % 8 := fun h' => hji (eq_of_div_mod h h'.symm)
      simp [hji, this, Bool.and_comm]
  · have hji : j ≠ i := fun h' => h (h' ▸ rfl)
    simp [Function.update_of_ne h, hji]

/-- A byte other than `i`'s leaves bit `i` alone. -/
theorem test_update_of_ne (m : Nat → UInt8) {i o : Nat} (v : UInt8) (h : i / 8 ≠ o) :
    test (Function.update m o v) i = test m i := by
  simp [test, Function.update_of_ne h]

end Bitmap
