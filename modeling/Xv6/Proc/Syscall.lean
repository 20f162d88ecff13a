import Xv6.Proc.Uvm
import Xv6.Lib.LittleEndian
import Xv6.Lib.ExceptOk

/-!
# Fetching system-call arguments

`fetchint`, `fetchstr`, `argint`, `argptr` and `argstr` read a system call's arguments from the
calling process's memory, at user addresses the kernel dereferences with the process's page
directory loaded. Each checks an address against `sz` with `uint` arithmetic. A process's `sz`
stays at most `KERNBASE`, which `allocuvm` checks (`allocuvm_le_KERNBASE`), so no sum in these
checks wraps: each accepts a range exactly when it lies in `[0, sz)`, and what the fetches return
depends on the bytes below `sz` only (`fetch_args_in_bounds`).
-/

namespace Xv6.Syscall

open LittleEndian Vm

/-! ### `sz ≤ KERNBASE` -/

/-- `allocuvm`'s loop returns `newsz`, or 0 when it runs out of memory. -/
theorem allocuvmLoop_fst {pgdir oldsz newsz : Nat} (k : Nat) :
    ∀ {m a sz' m'}, allocuvmLoop pgdir oldsz newsz k m a = .ok (sz', m') → sz' = newsz ∨ sz' = 0 := by
  induction k with
  | zero =>
    intro m a sz' m' h
    rw [allocuvmLoop] at h
    split_ifs at h
    cases h
    exact .inl rfl
  | succ k ih =>
    intro m a sz' m' h
    rw [allocuvmLoop] at h
    split_ifs at h
    · split at h
      · -- `kalloc` failed
        obtain ⟨_, -, h⟩ := (Except.map_eq_ok _ _ _).mp h
        cases h
        exact .inr rfl
      · obtain ⟨⟨r, m1⟩, -, h⟩ := (Except.bind_eq_ok _ _ _).mp h
        dsimp only at h
        split_ifs at h
        · -- `mappages` failed
          obtain ⟨_, -, h⟩ := (Except.map_eq_ok _ _ _).mp h
          cases h
          exact .inr rfl
        · exact ih h
    · cases h
      exact .inl rfl

/-- A size `allocuvm` returns is at most `KERNBASE` when the old one was: it refuses a `newsz`
of `KERNBASE` or more. -/
theorem allocuvm_le_KERNBASE {m m' : Mem} {pgdir oldsz newsz sz' : Nat} (hold : oldsz ≤ KERNBASE)
    (h : allocuvm m pgdir oldsz newsz = .ok (sz', m')) : sz' ≤ KERNBASE := by
  rw [allocuvm] at h
  split_ifs at h with hbig hsmall
  · cases h
    exact Nat.zero_le _
  · cases h
    exact hold
  · rcases allocuvmLoop_fst _ h with rfl | rfl <;> omega

/-- What the fetches read of the calling process: `sz`, `tf->esp`, and its memory. `sz` is at
most `KERNBASE`. -/
structure Proc where
  sz : Nat
  esp : Nat
  mem : Nat → UInt8
  sz_le : sz ≤ KERNBASE

/-- The `int` with the bits of the `uint` `x`. -/
def int32 (x : Nat) : Int := if x < 2 ^ 31 then x else x - 2 ^ 32

/-- `(uint)i`. -/
def uint (i : Int) : Nat := (i % 2 ^ 32).toNat

namespace Proc

/-- `fetchint(addr, ip)`: the `int` at `addr`, or `none` for -1. -/
def fetchint (p : Proc) (addr : Nat) : Option Int :=
  if addr ≥ p.sz ∨ (addr + 4) % 2 ^ 32 > p.sz then none else some (int32 (read p.mem addr 4))

/-- The loop of `fetchstr` from `s`, `k` bytes before `ep`: the address of the first NUL. -/
def fetchstrLoop (mem : Nat → UInt8) (ep : Nat) : Nat → Nat → Option Nat
  | 0, _ => none
  | k + 1, s => if s < ep then (if mem s = 0 then some s else fetchstrLoop mem ep k (s + 1)) else none

/-- `fetchstr(addr, pp)`: the length of the string at `addr`, which `*pp` points to. -/
def fetchstr (p : Proc) (addr : Nat) : Option Nat :=
  if addr ≥ p.sz then none
  else (fetchstrLoop p.mem p.sz (p.sz - addr) addr).map (· - addr)

/-- `argint(n, ip)`: the word `4 + 4 * n` above the user `%esp`. -/
def argint (p : Proc) (n : Int) : Option Int := p.fetchint (uint (p.esp + 4 + 4 * n))

/-- `argptr(n, pp, size)`: the pointer in argument `n`, to `size` bytes. -/
def argptr (p : Proc) (n size : Int) : Option Nat := do
  let i ← p.argint n
  if size < 0 ∨ uint i ≥ p.sz ∨ (uint i + uint size) % 2 ^ 32 > p.sz then none else some (uint i)

/-- `argstr(n, pp)`: the string pointer in argument `n`, and the string's length. -/
def argstr (p : Proc) (n : Int) : Option (Nat × Nat) := do
  let addr ← p.argint n
  let len ← p.fetchstr (uint addr)
  return (uint addr, len)

/-! ### Each check is exact -/

theorem fetchint_eq (p : Proc) (addr : Nat) :
    p.fetchint addr = if addr + 4 ≤ p.sz then some (int32 (read p.mem addr 4)) else none := by
  have hsz := p.sz_le
  unfold KERNBASE at hsz
  unfold fetchint
  by_cases hin : addr + 4 ≤ p.sz
  · -- `addr + 4 ≤ sz ≤ KERNBASE` does not wrap
    have hok : ¬(addr ≥ p.sz ∨ (addr + 4) % 2 ^ 32 > p.sz) := fun h => by omega
    rw [if_neg hok, if_pos hin]
  · have hbad : addr ≥ p.sz ∨ (addr + 4) % 2 ^ 32 > p.sz := by omega
    rw [if_pos hbad, if_neg hin]

/-- `fetchstr`'s loop finds the first NUL in `[s, ep)`. -/
theorem fetchstrLoop_eq_some_iff (mem : Nat → UInt8) {ep k s t : Nat} (hk : s + k = ep) :
    fetchstrLoop mem ep k s = some t ↔
      s ≤ t ∧ t < ep ∧ mem t = 0 ∧ ∀ u, s ≤ u → u < t → mem u ≠ 0 := by
  induction k generalizing s with
  | zero =>
    rw [fetchstrLoop]
    constructor
    · nofun
    · intro h
      omega
  | succ k ih =>
    rw [fetchstrLoop, if_pos (by omega)]
    by_cases hs : mem s = 0
    · -- the first NUL is at `s`
      rw [if_pos hs, Option.some_inj]
      constructor
      · rintro rfl
        exact ⟨le_rfl, by omega, hs, fun u h1 h2 => absurd h2 (by omega)⟩
      · rintro ⟨hst, -, -, hbefore⟩
        by_contra hne
        exact hbefore s le_rfl (by omega) hs
    · rw [if_neg hs, ih (by omega)]
      constructor
      · rintro ⟨hst, htp, ht, hbefore⟩
        refine ⟨by omega, htp, ht, fun u h1 h2 => ?_⟩
        rcases Nat.eq_or_lt_of_le h1 with rfl | h1
        · exact hs
        · exact hbefore u h1 h2
      · rintro ⟨hst, htp, ht, hbefore⟩
        have hne : s ≠ t := fun h => hs (h ▸ ht)
        exact ⟨by omega, htp, ht, fun u h1 h2 => hbefore u (by omega) h2⟩

/-- `fetchstr` returns the offset of the first NUL at or after `addr`, below `sz`. -/
theorem fetchstr_eq_some_iff (p : Proc) (addr len : Nat) :
    p.fetchstr addr = some len ↔
      addr + len < p.sz ∧ p.mem (addr + len) = 0 ∧ ∀ j < len, p.mem (addr + j) ≠ 0 := by
  unfold fetchstr
  by_cases haddr : addr ≥ p.sz
  · rw [if_pos haddr]
    constructor
    · nofun
    · intro h
      omega
  · rw [if_neg haddr, Option.map_eq_some_iff]
    constructor
    · rintro ⟨t, ht, rfl⟩
      obtain ⟨hst, htp, hzero, hbefore⟩ := (fetchstrLoop_eq_some_iff p.mem (by omega)).mp ht
      rw [Nat.add_sub_cancel' hst]
      exact ⟨htp, hzero, fun j hj => hbefore (addr + j) (by omega) (by omega)⟩
    · rintro ⟨hlt, hzero, hbefore⟩
      refine ⟨addr + len, (fetchstrLoop_eq_some_iff p.mem (by omega)).mpr
        ⟨by omega, hlt, hzero, fun u h1 h2 => ?_⟩, by omega⟩
      have hu := hbefore (u - addr) (by omega)
      rwa [Nat.add_sub_cancel' h1] at hu

/-- `fetchstr` succeeds exactly when there is a NUL in `[addr, sz)`. -/
theorem fetchstr_isSome_iff (p : Proc) (addr : Nat) :
    (p.fetchstr addr).isSome ↔ ∃ j, addr ≤ j ∧ j < p.sz ∧ p.mem j = 0 := by
  rw [Option.isSome_iff_exists]
  constructor
  · rintro ⟨len, hlen⟩
    obtain ⟨hlt, hzero, -⟩ := (p.fetchstr_eq_some_iff addr len).mp hlen
    exact ⟨addr + len, by omega, hlt, hzero⟩
  · -- the least such `j` is the first NUL
    intro hex
    classical
    have hfind : ∃ d, addr + d < p.sz ∧ p.mem (addr + d) = 0 := by
      obtain ⟨j, h1, h2, h3⟩ := hex
      exact ⟨j - addr, by omega, by rwa [Nat.add_sub_cancel' h1]⟩
    refine ⟨Nat.find hfind, (p.fetchstr_eq_some_iff addr _).mpr ⟨(Nat.find_spec hfind).1,
      (Nat.find_spec hfind).2, fun j hj hzero => ?_⟩⟩
    exact Nat.find_min hfind hj ⟨by have := (Nat.find_spec hfind).1; omega, hzero⟩

theorem uint_of_lt {i : Int} (h0 : 0 ≤ i) (h : i < 2 ^ 32) : (uint i : Int) = i := by
  unfold uint
  rw [Int.emod_eq_of_lt h0 h, Int.toNat_of_nonneg h0]

/-- `argptr`'s test is the test on mathematical integers: `size` not negative, `i` below `sz`
and `i + size` not past it. -/
theorem argptr_eq (p : Proc) (n : Int) {size : Int} (hsize : size < 2 ^ 31) :
    p.argptr n size = (p.argint n).bind fun i =>
      if 0 ≤ size ∧ uint i < p.sz ∧ (uint i : Int) + size ≤ p.sz then some (uint i) else none := by
  have hsz := p.sz_le
  unfold KERNBASE at hsz
  unfold argptr
  cases p.argint n with
  | none => rfl
  | some i =>
    show (if _ then none else some (uint i)) = if _ then some (uint i) else none
    by_cases hpos : 0 ≤ size
    · -- `(uint)i + size` is below `2 ^ 32` once `(uint)i` is below `sz`
      have hs : (uint size : Int) = size := uint_of_lt hpos (by omega)
      by_cases hok : uint i < p.sz ∧ (uint i : Int) + size ≤ p.sz
      · have hpass : ¬(size < 0 ∨ uint i ≥ p.sz ∨ (uint i + uint size) % 2 ^ 32 > p.sz) := fun h => by
          omega
        rw [if_neg hpass, if_pos ⟨hpos, hok⟩]
      · have hfail : size < 0 ∨ uint i ≥ p.sz ∨ (uint i + uint size) % 2 ^ 32 > p.sz := by omega
        rw [if_pos hfail, if_neg fun h => hok h.2]
    · rw [if_pos (.inl (by omega)), if_neg fun h => hpos h.1]

/-! ### What the fetches read -/

/-- Two processes of the same size and `%esp` whose memories agree below `sz`. -/
structure SameBelow (p p' : Proc) : Prop where
  sz : p'.sz = p.sz
  esp : p'.esp = p.esp
  mem : ∀ a < p.sz, p'.mem a = p.mem a

theorem fetchint_congr {p p' : Proc} (h : SameBelow p p') (addr : Nat) :
    p'.fetchint addr = p.fetchint addr := by
  rw [fetchint_eq, fetchint_eq, h.sz]
  split_ifs with hin
  · rw [read_congr fun a h1 h2 => h.mem a (by omega)]
  · rfl

theorem fetchstrLoop_congr {mem mem' : Nat → UInt8} {ep k s : Nat} (h : ∀ a < ep, mem' a = mem a) :
    fetchstrLoop mem' ep k s = fetchstrLoop mem ep k s := by
  induction k generalizing s with
  | zero => rfl
  | succ k ih =>
    rw [fetchstrLoop, fetchstrLoop]
    by_cases hs : s < ep
    · rw [if_pos hs, if_pos hs, h s hs, ih]
    · rw [if_neg hs, if_neg hs]

theorem fetchstr_congr {p p' : Proc} (h : SameBelow p p') (addr : Nat) :
    p'.fetchstr addr = p.fetchstr addr := by
  unfold fetchstr
  rw [h.sz, fetchstrLoop_congr fun a ha => h.mem a ha]

theorem argint_congr {p p' : Proc} (h : SameBelow p p') (n : Int) : p'.argint n = p.argint n := by
  rw [argint, argint, h.esp, fetchint_congr h]

end Proc

/-- For every process with `sz ≤ KERNBASE`: `fetchint` succeeds exactly when `[addr, addr + 4)`
lies in `[0, sz)`; `argptr` exactly when `size ≥ 0`, `i < sz` and `i + size ≤ sz` as integers;
`fetchstr` exactly when there is a NUL in `[addr, sz)`, and it returns the offset of the
first; and what each of the five returns is the same for any memory that agrees below `sz`. -/
theorem fetch_args_in_bounds (p : Proc) :
    (∀ addr, p.fetchint addr = if addr + 4 ≤ p.sz then some (int32 (read p.mem addr 4)) else none) ∧
      (∀ n size, size < 2 ^ 31 → p.argptr n size = (p.argint n).bind fun i =>
        if 0 ≤ size ∧ uint i < p.sz ∧ (uint i : Int) + size ≤ p.sz then some (uint i) else none) ∧
      (∀ addr len, p.fetchstr addr = some len ↔
        addr + len < p.sz ∧ p.mem (addr + len) = 0 ∧ ∀ j < len, p.mem (addr + j) ≠ 0) ∧
      (∀ addr, (p.fetchstr addr).isSome ↔ ∃ j, addr ≤ j ∧ j < p.sz ∧ p.mem j = 0) ∧
      ∀ p' : Proc, p'.sz = p.sz → p'.esp = p.esp → (∀ a < p.sz, p'.mem a = p.mem a) →
        ∀ n size addr, p'.fetchint addr = p.fetchint addr ∧ p'.fetchstr addr = p.fetchstr addr ∧
          p'.argint n = p.argint n ∧ p'.argptr n size = p.argptr n size ∧ p'.argstr n = p.argstr n := by
  refine ⟨p.fetchint_eq, fun n size hsize => p.argptr_eq n hsize, p.fetchstr_eq_some_iff,
    p.fetchstr_isSome_iff, fun p' hsz hesp hmem n size addr => ?_⟩
  have h : Proc.SameBelow p p' := ⟨hsz, hesp, hmem⟩
  refine ⟨Proc.fetchint_congr h addr, Proc.fetchstr_congr h addr, Proc.argint_congr h n, ?_, ?_⟩
  · rw [Proc.argptr, Proc.argptr, Proc.argint_congr h, hsz]
  · rw [Proc.argstr, Proc.argstr, Proc.argint_congr h]
    simp only [Proc.fetchstr_congr h]

/-- A process of two pages whose first argument, above `%esp = 4092`, points to the string
`"AAAAA"` at 8000. -/
def argProc : Proc :=
  ⟨8192, 4092, write (fun a => if a = 8005 then 0 else 0x41) 4096 4 8000, by decide⟩

/-- The same process with other bytes above its size. -/
def argProcHigh : Proc :=
  ⟨8192, 4092, fun a => if a < 8192 then argProc.mem a else 0xFF, by decide⟩

/-- 100 bytes at 8000 fit in the process and 200 do not; the string has five characters,
whatever lies above the process. -/
theorem fetch_args_two_pages :
    argProc.argptr 0 100 = some 8000 ∧ argProc.argptr 0 200 = none ∧
      argProc.argstr 0 = some (8000, 5) ∧ argProcHigh.argstr 0 = argProc.argstr 0 := by
  obtain ⟨-, hptr, -, -, hframe⟩ := fetch_args_in_bounds argProc
  refine ⟨?_, ?_, by decide, (hframe argProcHigh rfl rfl (fun a ha => if_pos ha) 0 0 0).2.2.2.2⟩
  · rw [hptr 0 100 (by decide)]
    decide
  · rw [hptr 0 200 (by decide)]
    decide

end Xv6.Syscall
