import Xv6.Proc.Copyout

/-!
# `exec`'s user stack

`exec` after the image is loaded, from `sp = sz` on. Each argument string is copied below
the previous one with `copyout`, and its address is kept in `ustack`. Then `ustack` is copied
below the strings. The `ustack` array is a local of `exec`, so it lives in kernel memory, and
its stores are stores through the kernel's map.

`sp = (sp - (strlen(argv[argc]) + 1)) & ~3` is `uint` arithmetic. A string longer than `sp`
wraps `sp` to the top of the address space. When the string is 32 MB or more longer than `sp`,
the wrapped `sp` lands below `DEVSPACE`, where `kmap` makes no directory entry. `copyout` then
goes through the null page entry of `Xv6.Mmu.copyout_through_null`. With the first word of a
program that begins `push %ebp; mov %esp, %ebp; sub ..., %esp`, the page it names is a user
page past the end of a 36 MB process, and the first byte stored there faults: the kernel
panics (`exec_long_argument_panics`).
-/

namespace Xv6.Mmu

open Xv6.Vm (PGSIZE NPTENTRIES KERNBASE PDX PTX)
open LittleEndian (read)

/-- `MAXARG`. -/
def MAXARG : Nat := 32

/-- `a - b` in `uint` arithmetic. -/
def uintSub (a b : Nat) : Nat := (a + 2 ^ 32 - b % 2 ^ 32) % 2 ^ 32

/-- `strlen`'s loop from `s[n]`; `fuel` bounds the bytes it reads. -/
def strlenLoop (s : Machine) (p : Nat) : Nat → Nat → Except String Nat
  | 0, _ => .error "strlen: fuel"
  | fuel + 1, n => do
    if (← s.load8 (p + n)) = 0 then pure n else strlenLoop s p fuel (n + 1)

/-- `strlen(p)` at the kernel pointer `p`. -/
def strlen (s : Machine) (p : Nat) : Except String Nat := strlenLoop s p (2 ^ 32) 0

/-- `exec`'s loop over `argv`, from `argc` with `sp`: each string is copied below the last, and
its address goes to `ustack[3+argc]` at the kernel address `ustack`. The result is `none` for
`goto bad`, and otherwise the final `sp` and machine. -/
def pushArgs (pgdir ustack : Nat) : List Nat → Nat → Machine → Nat →
    Except String (Option (Nat × Machine))
  | [], _, s, sp => pure (some (sp, s))
  | p :: argv, argc, s, sp => do
    if argc ≥ MAXARG then return none
    let sp := uintSub sp ((← strlen s p) + 1) / 4 * 4
    let (r, s) ← copyout s pgdir sp p ((← strlen s p) + 1)
    if r < 0 then return none
    let s ← s.store32 (ustack + 4 * (3 + argc)) sp
    pushArgs pgdir ustack argv (argc + 1) s sp

/-- `exec` from `sp = sz`, with `ustack` at the kernel address `ustack`: the strings, then `ustack`
below them. The result is the new `sp`, or `none` for `goto bad`. -/
def execStack (s : Machine) (pgdir sz ustack : Nat) (argv : List Nat) :
    Except String (Option (Nat × Machine)) := do
  let some (sp, s) ← pushArgs pgdir ustack argv 0 s sz | return none
  let argc := argv.length
  let s ← s.store32 (ustack + 4 * (3 + argc)) 0
  let s ← s.store32 ustack 0xffffffff
  let s ← s.store32 (ustack + 4) argc
  let s ← s.store32 (ustack + 8) (uintSub sp ((argc + 1) * 4))
  let sp := uintSub sp ((3 + argc + 1) * 4)
  let (r, s) ← copyout s pgdir sp ustack ((3 + argc + 1) * 4)
  if r < 0 then return none
  return some (sp, s)

/-! ### `strlen` -/

section Strlen

variable {s : Machine} {p L : Nat}

/-- `strlen`'s loop from `s[n]` over a string of `L` bytes ends at `L` when `fuel` covers the
bytes left. The induction is on the bytes left. -/
theorem strlenLoop_eq (hbytes : ∀ i < L, ∃ b, s.load8 (p + i) = .ok b ∧ b ≠ 0)
    (hend : s.load8 (p + L) = .ok 0) : ∀ fuel n, n ≤ L → L - n < fuel → strlenLoop s p fuel n = .ok L
  | 0, _, _, hfuel => absurd hfuel (Nat.not_lt_zero _)
  | fuel + 1, n, hn, hfuel => by
    by_cases hL : n = L
    · -- the NUL
      subst hL
      rw [strlenLoop, hend, Except.ok_bind, if_pos rfl]
      rfl
    · obtain ⟨b, hb, hne⟩ := hbytes n (by omega)
      rw [strlenLoop, hb, Except.ok_bind, if_neg hne]
      exact strlenLoop_eq hbytes hend fuel (n + 1) (by omega) (by omega)

/-- `strlen` of a string of `L < 2^32` bytes: `L`. -/
theorem strlen_eq (hL : L < 2 ^ 32) (hbytes : ∀ i < L, ∃ b, s.load8 (p + i) = .ok b ∧ b ≠ 0)
    (hend : s.load8 (p + L) = .ok 0) : strlen s p = .ok L :=
  strlenLoop_eq hbytes hend _ 0 (Nat.zero_le L) (by omega)

end Strlen

/-! ### A 36 MB process with a 32 MB argument -/

/-- Byte `a % 4` of the word `x`, for a word stored little-endian at a multiple of 4. -/
def wordByte (x a : Nat) : UInt8 := UInt8.ofNat (x / 256 ^ (a % 4))

/-- A process of nine page tables, 36 MB. Its directory is at physical `0x1000`, its page tables
follow from `0x10000`, and its virtual page `k` is at physical `0x1000000 + k * PGSIZE`. Its page
0 begins with `push %ebp; mov %esp, %ebp; sub ..., %esp`, the word `0x83e58955`. From `0x1000`
it holds `0x2003FFF` bytes `'A'` and a NUL. The rest of physical memory is zero. -/
def bigArgPhys (a : Nat) : UInt8 :=
  if 0x1000 ≤ a ∧ a < 0x1000 + 4 * 9 then wordByte (0x10000 + (a - 0x1000) / 4 * PGSIZE + 7) a
  else if 0x10000 ≤ a ∧ a < 0x10000 + 9 * PGSIZE then
    wordByte (0x1000000 + (a - 0x10000) / 4 * PGSIZE + 7) a
  else if 0x1000000 ≤ a ∧ a < 0x1000000 + 4 then wordByte 0x83e58955 a
  else if 0x1001000 ≤ a ∧ a < 0x1001000 + 0x2003FFF then 0x41
  else 0

/-- The process above running `exec`, with `%cr3` on its directory. -/
def bigArgMachine : Machine := ⟨bigArgPhys, [], 0x1000, KERNLINK⟩

/-- The three permission bits of an entry `p + 7` with `p` on a page boundary. -/
theorem entry_bits {p : Nat} (hp : p % PGSIZE = 0) :
    (p + 7) &&& PTE_P ≠ 0 ∧ (p + 7) &&& PTE_W ≠ 0 ∧ (p + 7) &&& PTE_U ≠ 0 := by
  have hbit : ∀ i < 3, (p + 7) &&& 2 ^ i ≠ 0 := by
    intro i hi
    rw [Nat.and_two_pow, Nat.testBit_eq_decide_div_mod_eq]
    have hodd : (p + 7) / 2 ^ i % 2 = 1 := by
      unfold PGSIZE at hp
      obtain rfl | rfl | rfl : i = 0 ∨ i = 1 ∨ i = 2 := by omega
      all_goals omega
    simp [hodd]
  exact ⟨hbit 0 (by decide), hbit 1 (by decide), hbit 2 (by decide)⟩

/-- A word of the process's tables, read back from its bytes. -/
theorem read_wordByte {base off x : Nat} (hbase : base % 4 = 0) (hx : x < 2 ^ 32)
    (hm : ∀ k < 4, bigArgPhys (base + 4 * off + k) = wordByte x (base + 4 * off + k)) :
    read bigArgPhys (base + 4 * off) 4 = x :=
  LittleEndian.read_of_bytes (by norm_num; omega) fun k hk => by
    rw [hm k hk, wordByte, show (base + 4 * off + k) % 4 = k by omega]

/-- Every address of the process's 36 MB is where its page tables say. -/
theorem bigArg_resolve (wr : Bool) {v : Nat} (hv : v < 9 * 2 ^ 22) :
    bigArgMachine.resolve wr v = some (0x1000000 + v) := by
  have hpdx : PDX v < 9 := by
    unfold PDX
    omega
  have hptx := PTX_lt v
  -- the directory entry: table `PDX v`
  have hpde : read bigArgPhys (0x1000 + 4 * PDX v) 4 = 0x10000 + PDX v * PGSIZE + 7 := by
    refine read_wordByte (by decide) (by unfold PGSIZE; omega) fun k hk => ?_
    have hin : 0x1000 ≤ 0x1000 + 4 * PDX v + k ∧ 0x1000 + 4 * PDX v + k < 0x1000 + 4 * 9 := by omega
    have hidx : (0x1000 + 4 * PDX v + k - 0x1000) / 4 = PDX v := by omega
    rw [bigArgPhys, if_pos hin, hidx]
  have hpage : (0x10000 + PDX v * PGSIZE) % PGSIZE = 0 := by
    unfold PGSIZE
    omega
  have htab : PTE_ADDR (0x10000 + PDX v * PGSIZE + 7) = 0x10000 + PDX v * PGSIZE := by
    unfold PTE_ADDR PGSIZE
    omega
  -- the page entry: page `v / PGSIZE`
  have hpte : read bigArgPhys (0x10000 + PDX v * PGSIZE + 4 * PTX v) 4 =
      0x1000000 + (PDX v * 1024 + PTX v) * PGSIZE + 7 := by
    refine read_wordByte (by unfold PGSIZE; omega) (by unfold PGSIZE NPTENTRIES at *; omega)
      fun k hk => ?_
    have hin1 : ¬ (0x1000 ≤ 0x10000 + PDX v * PGSIZE + 4 * PTX v + k ∧
        0x10000 + PDX v * PGSIZE + 4 * PTX v + k < 0x1000 + 4 * 9) := by omega
    have hin2 : 0x10000 ≤ 0x10000 + PDX v * PGSIZE + 4 * PTX v + k ∧
        0x10000 + PDX v * PGSIZE + 4 * PTX v + k < 0x10000 + 9 * PGSIZE := by
      unfold PGSIZE NPTENTRIES at *
      omega
    have hidx : (0x10000 + PDX v * PGSIZE + 4 * PTX v + k - 0x10000) / 4 = PDX v * 1024 + PTX v := by
      unfold PGSIZE NPTENTRIES at *
      omega
    rw [bigArgPhys, if_neg hin1, if_pos hin2, hidx]
  have hpage' : (0x1000000 + (PDX v * 1024 + PTX v) * PGSIZE) % PGSIZE = 0 := by
    unfold PGSIZE
    omega
  have hframe : PTE_ADDR (0x1000000 + (PDX v * 1024 + PTX v) * PGSIZE + 7) + v % PGSIZE =
      0x1000000 + v := by
    unfold PTE_ADDR PDX PTX PGSIZE
    omega
  obtain ⟨hp, hw, -⟩ := entry_bits hpage
  obtain ⟨hp', hw', -⟩ := entry_bits hpage'
  have huser : ¬ KERNBASE ≤ v := by
    unfold KERNBASE
    omega
  simp only [Machine.resolve, bigArgMachine, if_neg huser, hpde, htab, hpte, hframe, hp, hw,
    hp', hw', false_or, and_false, if_false]

/-- The argument string at `0x1000` is `0x2003FFF` bytes long. -/
theorem bigArg_strlen : strlen bigArgMachine 0x1000 = .ok 0x2003FFF := by
  have hload : ∀ i ≤ 0x2003FFF, bigArgMachine.load8 (0x1000 + i) =
      .ok (bigArgPhys (0x1000000 + (0x1000 + i))) := by
    intro i hi
    rw [Machine.load8, bigArg_resolve false (by omega)]
    rfl
  refine strlen_eq (by decide) (fun i hi => ⟨0x41, ?_, by decide⟩) ?_
  · rw [hload i (by omega), bigArgPhys, if_neg (by omega), if_neg (by unfold PGSIZE; omega),
      if_neg (by omega), if_pos (by omega)]
  · rw [hload _ (Nat.le_refl _), bigArgPhys, if_neg (by omega), if_neg (by unfold PGSIZE; omega),
      if_neg (by omega), if_neg (by omega)]

/-- `exec` of a program that fits in one page, so `sz = 0x3000` after the stack pages, with the
36 MB process's 32 MB string as its only argument. The string does not fit in the stack page.
The new directory is a zero page at physical `0x6000`: of its entries only the one for
`0xFDFFF000` is read, and `kmap` leaves it absent in every directory. `ustack` is at physical
`0x7000`. The copy of the argument runs past the user stack and faults in the kernel, so
`exec` traps instead of returning -1. -/
theorem exec_long_argument_panics :
    PGSIZE < 0x2003FFF + 1 ∧
      execStack bigArgMachine (KERNBASE + 0x6000) 0x3000 (KERNBASE + 0x7000) [0x1000] = .error "trap" := by
  refine ⟨by decide, ?_⟩
  rw [execStack, pushArgs, bigArg_strlen]
  exact Except.eq_error_of_test (by decide +kernel)

end Xv6.Mmu
