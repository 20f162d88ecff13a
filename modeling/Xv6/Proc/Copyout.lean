import Xv6.Proc.Mmu

/-!
# `copyout`

`uva2ka` and `copyout` over the machine of `Xv6.Mmu`. `uva2ka` asks `walkpgdir` for the entry of
`uva` without allocating and then reads `*pte`, whatever `walkpgdir` returned. When the directory
has no table for `uva`, `walkpgdir` returns 0, and `*pte` is the word at virtual address 0 of the
directory in `%cr3`: during `exec`, the first word of the calling program (`uva2ka_absent`).
Whenever that word has `PTE_P` and `PTE_U` set, `copyout` takes the page it names for the user's
page and copies into it, and returns 0 for a page that `pgdir` does not map
(`copyout_through_null`).
-/

namespace Xv6.Mmu

open Xv6.Vm (PGSIZE NPDENTRIES KERNBASE PDX PGROUNDDOWN)
open LittleEndian (write)

/-- A byte load at the kernel pointer `v`. -/
def Machine.load8 (s : Machine) (v : Nat) : Except String UInt8 :=
  match s.resolve false v with
  | some pa => .ok (s.phys pa)
  | none => .error "trap"

/-- A byte store at the kernel pointer `v`. -/
def Machine.store8 (s : Machine) (v : Nat) (b : UInt8) : Except String Machine :=
  match s.resolve true v with
  | some pa => .ok (s.withPhys (Function.update s.phys pa b))
  | none => .error "trap"

/-- `memmove`'s forward loop, `*d++ = *s++`, over `n` bytes. -/
def copyUp : Nat → Machine → Nat → Nat → Except String Machine
  | 0, s, _, _ => .ok s
  | n + 1, s, d, r => do
    let b ← s.load8 r
    let s ← s.store8 d b
    copyUp n s (d + 1) (r + 1)

/-- `memmove`'s backward loop, `*--d = *--s`, over the `n` bytes below `d` and `r`. -/
def copyDown : Nat → Machine → Nat → Nat → Except String Machine
  | 0, s, _, _ => .ok s
  | n + 1, s, d, r => do
    let b ← s.load8 (r - 1)
    let s ← s.store8 (d - 1) b
    copyDown n s (d - 1) (r - 1)

/-- `memmove(dst, src, n)`: backward when the source starts below a destination it overlaps. -/
def Machine.memmove (s : Machine) (dst src n : Nat) : Except String Machine :=
  if src < dst ∧ src + n > dst then copyDown n s (dst + n) (src + n)
  else copyUp n s dst src

/-- `uva2ka(pgdir, uva)`. The source reads `*pte` in each test and in the result; nothing is
stored in between, so one load stands for the three. -/
def uva2ka (s : Machine) (pgdir uva : Nat) : Except String Nat := do
  let (pte, s) ← walkpgdir s pgdir uva false
  let w ← s.load32 pte
  if w &&& PTE_P = 0 then pure 0
  else if w &&& PTE_U = 0 then pure 0
  else pure (P2V (PTE_ADDR w))

/-- `copyout`'s loop from user address `va` and kernel pointer `buf`, with `len` bytes left. Each
pass copies a byte or more, so `len` passes are enough. -/
def copyoutLoop (pgdir : Nat) : Nat → Machine → Nat → Nat → Nat → Except String (Int × Machine)
  | 0, s, _, _, len => if len = 0 then pure (0, s) else .error "copyout: fuel"
  | fuel + 1, s, va, buf, len =>
    if len = 0 then pure (0, s) else do
      let va0 := PGROUNDDOWN va
      let pa0 ← uva2ka s pgdir va0
      if pa0 = 0 then return (-1, s)
      let n := min (PGSIZE - (va - va0)) len
      let s ← s.memmove (pa0 + (va - va0)) buf n
      copyoutLoop pgdir fuel s ((va0 + PGSIZE) % 2 ^ 32) (buf + n) (len - n)

/-- `copyout(pgdir, va, p, len)`. -/
def copyout (s : Machine) (pgdir va p len : Nat) : Except String (Int × Machine) :=
  copyoutLoop pgdir len s va p len

section Absent

variable {s : Machine} {pgdir : Nat}

/-- `walkpgdir(pgdir, va, 0)` where the directory has no table for `va`: 0, nothing changed. -/
theorem walkpgdir_absent {va : Nat} (hk : KERNBASE ≤ pgdir) (hdir : Kpage s.data (pgdir - KERNBASE))
    (hpde : s.pdeAt pgdir (PDX va) &&& PTE_P = 0) : walkpgdir s pgdir va false = .ok (0, s) := by
  have hpde' : ¬ (s.pdeAt pgdir (PDX va) &&& PTE_P ≠ 0) := fun h => h hpde
  simp only [walkpgdir, load32_pde hk hdir (PDX_lt va), bind, Except.bind, if_neg hpde']
  rfl

/-- Without a table for `uva`, `uva2ka` reads its entry at address 0. -/
theorem uva2ka_absent {uva : Nat} (hk : KERNBASE ≤ pgdir) (hdir : Kpage s.data (pgdir - KERNBASE))
    (hpde : s.pdeAt pgdir (PDX uva) &&& PTE_P = 0) :
    uva2ka s pgdir uva = (do
      let w ← s.load32 0
      if w &&& PTE_P = 0 then pure 0
      else if w &&& PTE_U = 0 then pure 0
      else pure (P2V (PTE_ADDR w))) := by
  rw [uva2ka, walkpgdir_absent hk hdir hpde]
  rfl

theorem PDX_PGROUNDDOWN (va : Nat) : PDX (PGROUNDDOWN va) = PDX va := by
  unfold PDX PGROUNDDOWN PGSIZE
  omega

/-- `copyout` of `len` bytes within one page that `pgdir` has no table for. The word at address
0 stands in for the page entry: when it has `PTE_P` and `PTE_U` and names a page other than
physical `KERNBASE`, `copyout` copies the bytes into that page, at `va`'s offset, and returns 0. -/
theorem copyout_through_null {va buf len w : Nat} (hk : KERNBASE ≤ pgdir)
    (hdir : Kpage s.data (pgdir - KERNBASE)) (hpde : s.pdeAt pgdir (PDX va) &&& PTE_P = 0)
    (hw : s.load32 0 = .ok w) (hp : w &&& PTE_P ≠ 0) (hu : w &&& PTE_U ≠ 0)
    (hne : P2V (PTE_ADDR w) ≠ 0) (hlen : 0 < len) (hfit : va % PGSIZE + len ≤ PGSIZE) :
    s.entry pgdir va = none ∧
      copyout s pgdir va buf len =
        (fun s' => ((0 : Int), s')) <$> s.memmove (P2V (PTE_ADDR w) + va % PGSIZE) buf len := by
  refine ⟨if_pos hpde, ?_⟩
  have hka : uva2ka s pgdir (PGROUNDDOWN va) = .ok (P2V (PTE_ADDR w)) := by
    rw [uva2ka_absent hk hdir (by rw [PDX_PGROUNDDOWN]; exact hpde), hw]
    simp only [bind, Except.bind, if_neg hp, if_neg hu]
    rfl
  -- one pass: the page's offset is `va % PGSIZE`, and all `len` bytes fit in the page
  have hoff : va - PGROUNDDOWN va = va % PGSIZE := by
    unfold PGROUNDDOWN
    have := Nat.div_add_mod va PGSIZE
    rw [Nat.mul_comm] at this
    omega
  have hn : min (PGSIZE - va % PGSIZE) len = len := Nat.min_eq_right (by omega)
  obtain ⟨fuel, rfl⟩ : ∃ fuel, len = fuel + 1 := ⟨len - 1, by omega⟩
  rw [copyout, copyoutLoop, if_neg (Nat.succ_ne_zero fuel)]
  simp only [hka]
  rw [Except.ok_bind, if_neg hne, hoff, hn, Nat.sub_self]
  cases s.memmove (P2V (PTE_ADDR w) + va % PGSIZE) buf (fuel + 1) with
  | error e => rfl
  | ok s' =>
    -- nothing is left to copy
    rw [Except.ok_bind]
    cases fuel <;> rw [copyoutLoop, if_pos rfl] <;> rfl

end Absent

/-- The calling program's directory at physical `0x1000` maps its page 0 to `0x3000`, whose first
word is `0x4007` and whose bytes at `0x100` are `"AAA"`. The directory `exec` builds is the zero
page at physical `0x4000`. -/
def nullMachine : Machine :=
  ⟨write (write (write (write (fun _ => 0) 0x1000 4 0x2007) 0x2000 4 0x3007) 0x3000 4 0x4007)
    0x3100 4 0x414141, [], 0x1000, KERNLINK⟩

/-- `copyout(pgdir, 0xFDFFF000, "AAA", 4)`, where `pgdir` has no table for `0xFDFFF000`, returns 0
and writes the four bytes over the first entry of `pgdir` itself, which now reads as present. -/
theorem copyout_through_null_pgdir :
    nullMachine.entry (KERNBASE + 0x4000) 0xFDFFF000 = none ∧
      copyout nullMachine (KERNBASE + 0x4000) 0xFDFFF000 0x100 4 =
        (fun s' => ((0 : Int), s')) <$>
          nullMachine.memmove (P2V (PTE_ADDR 0x4007) + 0xFDFFF000 % PGSIZE) 0x100 4 ∧
      ∃ s', copyout nullMachine (KERNBASE + 0x4000) 0xFDFFF000 0x100 4 = .ok (0, s') ∧
        s'.pdeAt (KERNBASE + 0x4000) 0 = 0x414141 := by
  have hdir : Kpage nullMachine.data (KERNBASE + 0x4000 - KERNBASE) := by
    rw [Nat.add_sub_cancel_left]
    exact ⟨rfl, by decide, .inl (by decide)⟩
  have h := @copyout_through_null nullMachine (KERNBASE + 0x4000) 0xFDFFF000 0x100 4 _
    (Nat.le_add_right _ _) hdir (by decide +kernel) rfl (by decide) (by decide)
    (by decide) (by decide) (by decide)
  -- the run itself is left to the kernel, which computes the machine it ends in
  obtain ⟨⟨r, s'⟩, hrun, htest⟩ := Except.exists_eq_ok_of_test
    (x := copyout nullMachine (KERNBASE + 0x4000) 0xFDFFF000 0x100 4)
    (p := fun r => decide (r.1 = 0 ∧ r.2.pdeAt (KERNBASE + 0x4000) 0 = 0x414141)) (by decide +kernel)
  obtain ⟨rfl, hpde⟩ := of_decide_eq_true htest
  exact ⟨h.1, h.2, s', hrun, hpde⟩

end Xv6.Mmu
