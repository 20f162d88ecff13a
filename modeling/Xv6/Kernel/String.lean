import Xv6.Lib.Copy

/-!
# `memmove` and `memcpy`

`string.c`'s `memmove` on a flat byte memory with 32-bit pointers. When the source starts below
a destination it overlaps (`s < d && s + n > d`), it copies from the top down; otherwise from
the bottom up. When neither window wraps past `2^32`, the destination receives the source as
it was before the call and no other byte changes (`memmove_moves`). The overlap test picks a
safe direction in every placement: going up, no store reaches a source byte before it is read
because the destination starts at or below the source or lies wholly above it; going down,
because the destination starts above the source. The first needs the no-wrap bounds: `s + n`
is computed modulo `2^32`, and it can wrap to 0 only when the destination window wraps.
-/

namespace Xv6.Kernel

open Copy

/-- `while(n-- > 0) *d++ = *s++;` -/
def copyUp (m : UInt32 → UInt8) (d s : UInt32) : Nat → UInt32 → UInt8
  | 0 => m
  | n + 1 => copyUp (Function.update m d (m s)) (d + 1) (s + 1) n

/-- `while(n-- > 0) *--d = *--s;`, from the ends of both windows. -/
def copyDown (m : UInt32 → UInt8) (d s : UInt32) : Nat → UInt32 → UInt8
  | 0 => m
  | n + 1 => copyDown (Function.update m (d - 1) (m (s - 1))) (d - 1) (s - 1) n

/-- `memmove(dst, src, n)`: the memory after the copy, and the `dst` it returns. The pointer
comparisons are unsigned and `s + n` wraps modulo `2^32`. -/
def memmove (m : UInt32 → UInt8) (dst src n : UInt32) : (UInt32 → UInt8) × UInt32 :=
  if src < dst ∧ src + n > dst then (copyDown m (dst + n) (src + n) n.toNat, dst)
  else (copyUp m dst src n.toNat, dst)

/-- `memcpy` is `memmove`. -/
def memcpy (m : UInt32 → UInt8) (dst src n : UInt32) : (UInt32 → UInt8) × UInt32 :=
  memmove m dst src n

variable {m m₀ : UInt32 → UInt8} {dst src : UInt32}

/-- The upward loop, run from byte `k` of the two windows to byte `k + r`, finishes the copy
when no store reaches a source byte it has not read yet. -/
theorem copyUp_copied {k : Nat} (r : Nat) (hc : Copied m m₀ dst src 0 k)
    (hd : dst.toNat + (k + r) ≤ 2 ^ 32)
    (hsafe : ∀ i j, i < j → j < k + r → src + UInt32.ofNat j ≠ dst + UInt32.ofNat i) :
    Copied (copyUp m (dst + UInt32.ofNat k) (src + UInt32.ofNat k) r) m₀ dst src 0 (k + r) := by
  induction r generalizing m k with
  | zero => exact hc
  | succ r ih =>
    -- byte `k` is still the source's: the stores so far went to the bytes below `k`
    have hread : m (src + UInt32.ofNat k) = m₀ (src + UInt32.ofNat k) :=
      hc.frame _ fun i _ hi => hsafe i k hi (by omega)
    have hc' := hc.up (Nat.zero_le k) (by omega) hread
    rw [copyUp, add_ofNat_add_one, add_ofNat_add_one]
    have := ih hc' (by omega) (fun i j hij hj => hsafe i j hij (by omega))
    rwa [Nat.add_right_comm] at this

/-- The downward loop, run from the top `r` bytes below byte `r` of the windows, finishes the
copy when no store reaches a source byte it has not read yet. -/
theorem copyDown_copied {hi : Nat} (r : Nat) (hc : Copied m m₀ dst src r hi) (hr : r ≤ hi)
    (hd : dst.toNat + hi ≤ 2 ^ 32)
    (hsafe : ∀ i j, i < j → j < hi → src + UInt32.ofNat i ≠ dst + UInt32.ofNat j) :
    Copied (copyDown m (dst + UInt32.ofNat r) (src + UInt32.ofNat r) r) m₀ dst src 0 hi := by
  induction r generalizing m with
  | zero => exact hc
  | succ r ih =>
    -- byte `r` is still the source's: the stores so far went to the bytes above `r`
    have hread : m (src + UInt32.ofNat r) = m₀ (src + UInt32.ofNat r) :=
      hc.frame _ fun j hj hj' => hsafe r j (by omega) hj'
    have hc' := hc.down (by omega) hd hread
    rw [copyDown, add_ofNat_succ_sub_one, add_ofNat_succ_sub_one]
    exact ih hc' (by omega)

section Placement

variable {n : UInt32} (hsrc : src.toNat + n.toNat ≤ 2 ^ 32)
  (hdst : dst.toNat + n.toNat ≤ 2 ^ 32)
include hsrc hdst

/-- When the upward loop runs, a store to byte `i` of the destination never reaches a later
byte `j` of the source. -/
theorem up_unread (hup : ¬(src < dst ∧ src + n > dst)) {i j : Nat} (hij : i < j)
    (hj : j < n.toNat) : src + UInt32.ofNat j ≠ dst + UInt32.ofNat i := by
  simp only [gt_iff_lt, UInt32.lt_iff_toNat_lt, UInt32.toNat_add] at hup
  -- `s + n` wraps only if the destination window wraps
  have hsafe : ¬(src.toNat < dst.toNat ∧ dst.toNat < src.toNat + n.toNat) := by
    rintro ⟨h₁, h₂⟩
    exact hup ⟨h₁, by omega⟩
  exact add_ofNat_ne_add_ofNat (by omega) (by omega) (by omega)

/-- When the downward loop runs, a store to byte `j` of the destination never reaches an
earlier byte `i` of the source. -/
theorem down_unread (hdown : src < dst) {i j : Nat} (hij : i < j) (hj : j < n.toNat) :
    src + UInt32.ofNat i ≠ dst + UInt32.ofNat j := by
  rw [UInt32.lt_iff_toNat_lt] at hdown
  exact add_ofNat_ne_add_ofNat (by omega) (by omega) (by omega)

/-- Both loops of `memmove` copy the whole window. -/
theorem memmove_copied : Copied (memmove m dst src n).1 m dst src 0 n.toNat := by
  unfold memmove
  split
  · next hdown =>
    have h := copyDown_copied n.toNat (Copied.empty m dst src n.toNat) (Nat.le_refl _) hdst
      fun i j hij hj => down_unread hsrc hdst hdown.1 hij hj
    rwa [UInt32.ofNat_toNat] at h
  · next hup =>
    have h := copyUp_copied n.toNat (Copied.empty m dst src 0) (by omega)
      fun i j hij hj => up_unread hsrc hdst hup hij (by omega)
    simpa using h

end Placement

/-- `memmove(dst, src, n)` on windows that do not wrap: byte `k` of the destination is byte `k`
of the source as it was before the call, every byte outside the destination keeps its value,
and `dst` is returned, whether the windows are apart or overlap either way. -/
theorem memmove_moves (m : UInt32 → UInt8) (dst src n : UInt32)
    (hsrc : src.toNat + n.toNat ≤ 2 ^ 32) (hdst : dst.toNat + n.toNat ≤ 2 ^ 32) :
    (∀ k < n.toNat, (memmove m dst src n).1 (dst + UInt32.ofNat k) = m (src + UInt32.ofNat k)) ∧
    (∀ a : UInt32, a.toNat < dst.toNat ∨ dst.toNat + n.toNat ≤ a.toNat →
      (memmove m dst src n).1 a = m a) ∧
    (memmove m dst src n).2 = dst := by
  have h := memmove_copied (m := m) hsrc hdst
  refine ⟨fun k hk => h.copied k (Nat.zero_le k) hk, fun a ha => ?_, ?_⟩
  · exact h.frame a fun i _ hi => ne_add_ofNat_of_not_mem hdst ha hi
  · unfold memmove
    split <;> rfl

/-- Four bytes moved one address up, over themselves (the downward loop): the byte at 4 is the
one that was at 3, and the byte at 5 is untouched. -/
theorem memmove_moves_overlap :
    (memmove (fun a => a.toUInt8) 1 0 4).1 4 = 3 ∧ (memmove (fun a => a.toUInt8) 1 0 4).1 5 = 5 := by
  obtain ⟨hmove, hframe, -⟩ := memmove_moves (fun a => a.toUInt8) 1 0 4 (by decide) (by decide)
  exact ⟨by simpa using hmove 3 (by decide), hframe 5 (by decide)⟩

end Xv6.Kernel
