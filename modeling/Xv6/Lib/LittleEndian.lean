import Mathlib.Logic.Function.Basic
import Mathlib.Tactic.Ring

/-!
Little-endian numbers in a byte-addressed store.

C code that casts a byte buffer to a structure reads and writes its fields as
little-endian words on x86. A byte store is a function from offsets to bytes; a field of
`w` bytes at offset `off` is read as a number and written from one. The lemmas are the
two a codec needs: a field reads back what was written into it (modulo its width), and
writing a field changes no byte outside it, so fields that do not overlap are independent.
-/

namespace LittleEndian

/-- The `w`-byte little-endian number stored at `off`. -/
def read (m : Nat → UInt8) (off : Nat) : Nat → Nat
  | 0 => 0
  | w + 1 => (m off).toNat + 256 * read m (off + 1) w

/-- Store the low `w` bytes of `v` at `off`, least significant byte first. -/
def write (m : Nat → UInt8) (off : Nat) : Nat → Nat → Nat → UInt8
  | 0, _ => m
  | w + 1, v => write (Function.update m off (UInt8.ofNat v)) (off + 1) w (v / 256)

theorem write_apply_of_not_mem {m : Nat → UInt8} {off w x : Nat} (v : Nat)
    (hx : x < off ∨ off + w ≤ x) : write m off w v x = m x := by
  induction w generalizing m off v with
  | zero => rfl
  | succ w ih =>
      have hne : x ≠ off := by omega
      rw [write, ih (v / 256) (by omega), Function.update_of_ne hne]

theorem read_congr {m m' : Nat → UInt8} {off w : Nat}
    (h : ∀ i, off ≤ i → i < off + w → m i = m' i) : read m off w = read m' off w := by
  induction w generalizing off with
  | zero => rfl
  | succ w ih =>
      rw [read, read, h off (le_refl _) (by omega),
        ih (fun i h1 h2 => h i (by omega) (by omega))]

theorem read_lt (m : Nat → UInt8) (off w : Nat) : read m off w < 256 ^ w := by
  induction w generalizing off with
  | zero => simp [read]
  | succ w ih =>
      have hb : (m off).toNat < 256 := (m off).toNat_lt
      have hr := ih (off + 1)
      rw [read, pow_succ]
      omega

/-- A field reads back the value written into it, truncated to its width. -/
theorem read_write (m : Nat → UInt8) (off w v : Nat) :
    read (write m off w v) off w = v % 256 ^ w := by
  induction w generalizing m off v with
  | zero => simp [read, Nat.mod_one]
  | succ w ih =>
      have hpow : 256 ^ (w + 1) = 256 * 256 ^ w := by ring
      rw [write, read, ih, write_apply_of_not_mem _ (by omega), Function.update_self,
        UInt8.toNat_ofNat', hpow, Nat.mod_mul]

theorem read_write_of_lt {m : Nat → UInt8} {off w v : Nat} (hv : v < 256 ^ w) :
    read (write m off w v) off w = v := by
  rw [read_write, Nat.mod_eq_of_lt hv]

/-- A write only looks at the store outside the field it overwrites. -/
theorem write_congr {m m' : Nat → UInt8} {off w : Nat} (v : Nat)
    (h : ∀ x, (x < off ∨ off + w ≤ x) → m x = m' x) : write m off w v = write m' off w v := by
  induction w generalizing m m' off v with
  | zero => funext x; exact h x (by omega)
  | succ w ih =>
      apply ih
      intro x hx
      by_cases hxo : x = off
      · subst hxo; simp
      · rw [Function.update_of_ne hxo, Function.update_of_ne hxo]
        exact h x (by omega)

/-- Writing 0 over `w` bytes clears each of them. -/
theorem write_zero_apply {m : Nat → UInt8} {off w x : Nat} (h1 : off ≤ x) (h2 : x < off + w) :
    write m off w 0 x = 0 := by
  induction w generalizing m off with
  | zero => omega
  | succ w ih =>
      rw [write]
      by_cases hx : x = off
      · subst hx
        rw [write_apply_of_not_mem _ (by omega), Function.update_self]
        rfl
      · exact ih (by omega) (by omega)

/-- A field inside bytes cleared by a write of 0 reads 0. -/
theorem read_write_zero {m : Nat → UInt8} {off w off' w' : Nat} (h1 : off ≤ off')
    (h2 : off' + w' ≤ off + w) : read (write m off w 0) off' w' = 0 := by
  induction w' generalizing off' with
  | zero => rfl
  | succ w' ih =>
      rw [read, write_zero_apply h1 (by omega), ih (by omega) (by omega)]
      rfl

/-- A store that holds the bytes of `x` from `off` reads `x` there. -/
theorem read_of_bytes {m : Nat → UInt8} {off w x : Nat} (hx : x < 256 ^ w)
    (hm : ∀ k < w, m (off + k) = UInt8.ofNat (x / 256 ^ k)) : read m off w = x := by
  induction w generalizing off x with
  | zero =>
      rw [read]
      omega
  | succ w ih =>
      have hlow : (m off).toNat = x % 256 := by
        rw [← Nat.add_zero off, hm 0 (Nat.succ_pos w), UInt8.toNat_ofNat', Nat.pow_zero, Nat.div_one]
      have hhigh : read m (off + 1) w = x / 256 := by
        refine ih (by rw [Nat.pow_succ] at hx; omega) fun k hk => ?_
        rw [Nat.add_assoc, Nat.add_comm 1 k, hm (k + 1) (by omega), Nat.pow_succ, Nat.mul_comm,
          ← Nat.div_div_eq_div_mul]
      rw [read, hlow, hhigh]
      omega

/-- An all-zero store reads 0 everywhere. -/
theorem read_zero (off w : Nat) : read (fun _ => 0) off w = 0 := by
  induction w generalizing off with
  | zero => rfl
  | succ w ih =>
      rw [read, ih]
      rfl

/-- Writing one field does not change a field that does not overlap it. -/
theorem read_write_of_disjoint {m : Nat → UInt8} {off w off' w' : Nat} (v : Nat)
    (h : off + w ≤ off' ∨ off' + w' ≤ off) :
    read (write m off w v) off' w' = read m off' w' :=
  read_congr fun i h1 h2 => write_apply_of_not_mem v (by omega)

/-- A field at `b + off` is the field at `off` of the store seen from `b`. -/
theorem read_shift (m : Nat → UInt8) (b off w : Nat) :
    read m (b + off) w = read (fun j => m (b + j)) off w := by
  induction w generalizing off with
  | zero => rfl
  | succ w ih =>
      rw [read, read, Nat.add_assoc, ih]

end LittleEndian
