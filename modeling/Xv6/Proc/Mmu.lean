import Xv6.Proc.Vm
import Xv6.Lib.LittleEndian
import Mathlib.Data.Nat.Bitwise
import Xv6.Lib.ExceptOk

/-!
# Page directories in physical memory

`walkpgdir` and `mappages` as the CPU's memory sees them. Physical memory is bytes, a page
directory and its page tables are pages of 1024 little-endian 32-bit entries, and an entry
keeps a page's address in its upper 20 bits and `PTE_P`, `PTE_W` and `PTE_U` in its low bits.
The kernel runs with `CR0_WP` set. A virtual address is resolved in kernel mode through the
directory in `%cr3`. The kernel's half of every directory is `setupkvm`'s `kmap`:
`[KERNBASE, KERNBASE + PHYSTOP)` maps to `[0, PHYSTOP)`, writable except the kernel's text
`[KERNLINK, data)`, and `[DEVSPACE, 2^32)` maps to itself.

Over this sits the view `mappages` is meant to have: a directory as a partial map from pages
to a physical page and its permission bits (`Machine.entry`). `mappages` maps each page of
its range to the next physical page and changes no other entry, when the directory is a
`PageDir` and the permission fits in an entry's low bits (`mappages_refines`). The loop exits
only when `a == last`, and it reaches `last` through the wrap at 2^32.
-/

namespace Xv6.Mmu

open Xv6.Vm (PGSIZE NPDENTRIES NPTENTRIES KERNBASE PHYSTOP DEVSPACE PDX PTX PGROUNDDOWN)
open LittleEndian (read write)

/-- `PTE_P`. -/
def PTE_P : Nat := 0x001
/-- `PTE_W`. -/
def PTE_W : Nat := 0x002
/-- `PTE_U`. -/
def PTE_U : Nat := 0x004
/-- `EXTMEM`. -/
def EXTMEM : Nat := 0x100000
/-- `KERNLINK`. -/
def KERNLINK : Nat := KERNBASE + EXTMEM

/-- `PTE_ADDR(pte)`, `pte & ~0xFFF` of a 32-bit entry. -/
def PTE_ADDR (pte : Nat) : Nat := pte / PGSIZE * PGSIZE
/-- `PTE_FLAGS(pte)`. -/
def PTE_FLAGS (pte : Nat) : Nat := pte % PGSIZE
/-- `V2P(a)`, in 32-bit arithmetic. -/
def V2P (a : Nat) : Nat := (a + 2 ^ 32 - KERNBASE) % 2 ^ 32
/-- `P2V(a)`, in 32-bit arithmetic. -/
def P2V (a : Nat) : Nat := (a + KERNBASE) % 2 ^ 32

/-- Physical memory, `kmem.freelist` (kernel addresses), the physical address of the directory
in `%cr3`, and the address of the linker's `data`, where the kernel's text ends. -/
structure Machine where
  phys : Nat → UInt8
  free : List Nat
  cr3 : Nat
  data : Nat

/-- The physical address the CPU reaches at virtual address `v` in kernel mode, for a read or
for a write: `none` for a page fault. -/
def Machine.resolve (s : Machine) (wr : Bool) (v : Nat) : Option Nat :=
  if KERNBASE ≤ v then
    if v < KERNBASE + PHYSTOP then
      if wr ∧ KERNLINK ≤ v ∧ v < s.data then none else some (v - KERNBASE)
    else if DEVSPACE ≤ v then some v
    else none
  else
    let pde := read s.phys (s.cr3 + 4 * PDX v) 4
    if pde &&& PTE_P = 0 ∨ (wr ∧ pde &&& PTE_W = 0) then none
    else
      let pte := read s.phys (PTE_ADDR pde + 4 * PTX v) 4
      if pte &&& PTE_P = 0 ∨ (wr ∧ pte &&& PTE_W = 0) then none
      else some (PTE_ADDR pte + v % PGSIZE)

/-- A 32-bit load at the kernel pointer `v`; a page fault in the kernel ends in `panic("trap")`. -/
def Machine.load32 (s : Machine) (v : Nat) : Except String Nat :=
  match s.resolve false v with
  | some pa => .ok (read s.phys pa 4)
  | none => .error "trap"

/-- A 32-bit store of `x` at the kernel pointer `v`. -/
def Machine.store32 (s : Machine) (v x : Nat) : Except String Machine :=
  match s.resolve true v with
  | some pa => .ok { s with phys := write s.phys pa 4 x }
  | none => .error "trap"

/-- `memset(v, 0, n)` of `n` bytes within the page of the kernel pointer `v`. -/
def Machine.memset (s : Machine) (v n : Nat) : Except String Machine :=
  match s.resolve true v with
  | some pa => .ok { s with phys := write s.phys pa n 0 }
  | none => .error "trap"

/-- `kalloc()`: the head of the free list, `none` for 0. -/
def kalloc (s : Machine) : Option (Nat × Machine) :=
  match s.free with
  | [] => none
  | r :: rest => some (r, { s with free := rest })

/-- `walkpgdir(pgdir, va, alloc)`: the kernel address of `va`'s page entry, 0 when there is no
page table and none can be allocated. -/
def walkpgdir (s : Machine) (pgdir va : Nat) (alloc : Bool) : Except String (Nat × Machine) := do
  let pde ← s.load32 (pgdir + 4 * PDX va)
  if pde &&& PTE_P ≠ 0 then pure (P2V (PTE_ADDR pde) + 4 * PTX va, s)
  else if !alloc then pure (0, s)
  else match kalloc s with
    | none => pure (0, s)
    | some (pgtab, s) => do
      let s ← s.memset pgtab PGSIZE
      let s ← s.store32 (pgdir + 4 * PDX va) (V2P pgtab ||| PTE_P ||| PTE_W ||| PTE_U)
      pure (pgtab + 4 * PTX va, s)

/-- One pass of `mappages`'s loop: the entry for `a` set to `pa | perm | PTE_P`; `none` when
`walkpgdir` returns 0, and `panic("remap")` when the entry is present. -/
def mappagesStep (s : Machine) (pgdir a pa perm : Nat) : Except String (Option Machine) := do
  let (pte, s) ← walkpgdir s pgdir a true
  if pte = 0 then pure none
  else if (← s.load32 pte) &&& PTE_P ≠ 0 then .error "remap"
  else some <$> s.store32 pte (pa ||| perm ||| PTE_P)

/-- `mappages`'s loop from `a` and `pa`. It leaves when `a == last`; `fuel` bounds the passes,
and 2^20 passes visit every page of the 32-bit space. -/
def mappagesLoop (pgdir last perm : Nat) : Nat → Machine → Nat → Nat → Except String (Int × Machine)
  | 0, _, _, _ => .error "mappages: fuel"
  | fuel + 1, s, a, pa => do
    match ← mappagesStep s pgdir a pa perm with
    | none => pure (-1, s)
    | some s =>
      if a = last then pure (0, s)
      else mappagesLoop pgdir last perm fuel s ((a + PGSIZE) % 2 ^ 32) ((pa + PGSIZE) % 2 ^ 32)

/-- `mappages(pgdir, va, size, pa, perm)`, with `last = PGROUNDDOWN(va + size - 1)` in 32-bit
arithmetic. -/
def mappages (s : Machine) (pgdir va size pa perm : Nat) : Except String (Int × Machine) :=
  mappagesLoop pgdir (PGROUNDDOWN ((va + size + 2 ^ 32 - 1) % 2 ^ 32)) perm (2 ^ 20) s
    (PGROUNDDOWN va) pa

/-! ### The abstract view -/

/-- Entry `i` of the directory at the kernel address `pgdir`. -/
def Machine.pdeAt (s : Machine) (pgdir i : Nat) : Nat := read s.phys (V2P pgdir + 4 * i) 4

/-- Entry `j` of the page table at the physical address `pt`. -/
def Machine.pteAt (s : Machine) (pt j : Nat) : Nat := read s.phys (pt + 4 * j) 4

/-- The page and the flags a page entry maps, `none` when it is not present. -/
def entryOf (pte : Nat) : Option (Nat × Nat) :=
  if pte &&& PTE_P = 0 then none else some (PTE_ADDR pte, PTE_FLAGS pte)

/-- What directory `pgdir` maps the page of `va` to: the physical page and the flags of its
entry, `none` when the directory entry or the page entry is not present. -/
def Machine.entry (s : Machine) (pgdir va : Nat) : Option (Nat × Nat) :=
  if s.pdeAt pgdir (PDX va) &&& PTE_P = 0 then none
  else entryOf (s.pteAt (PTE_ADDR (s.pdeAt pgdir (PDX va))) (PTX va))

/-- Two addresses on one page have one entry. -/
def SamePage (v w : Nat) : Prop := PDX v = PDX w ∧ PTX v = PTX w

instance (v w : Nat) : Decidable (SamePage v w) := inferInstanceAs (Decidable (_ ∧ _))

/-- The `i`-th page `mappages(pgdir, va, size, ...)` maps, in 32-bit arithmetic. -/
def page (va i : Nat) : Nat := (PGROUNDDOWN va + i * PGSIZE) % 2 ^ 32

/-- The number of pages from `PGROUNDDOWN(va)` to `PGROUNDDOWN(va + size - 1)`, through the
wrap at 2^32. -/
def npages (va size : Nat) : Nat :=
  ((PGROUNDDOWN ((va + size + 2 ^ 32 - 1) % 2 ^ 32) + 2 ^ 32 - PGROUNDDOWN va) % 2 ^ 32) / PGSIZE + 1

/-! ### Entries as numbers -/

/-- A page address and low bits make an entry by `|`, which adds them. -/
theorem lor_eq_add {pa g : Nat} (hp : pa % PGSIZE = 0) (hg : g < PGSIZE) : pa ||| g = pa + g := by
  have hg' : g < 2 ^ 12 := hg
  have hpa : (pa / PGSIZE) <<< 12 = pa := by
    rw [Nat.shiftLeft_eq]
    unfold PGSIZE at hp ⊢
    omega
  rw [← hpa, Nat.shiftLeft_add_eq_or_of_lt hg']

theorem entryOf_add {pa g : Nat} (hp : pa % PGSIZE = 0) (hg : g < PGSIZE) :
    entryOf (pa + g) = if g &&& PTE_P = 0 then none else some (pa, g) := by
  have hbit : (pa + g) &&& PTE_P = g &&& PTE_P := by
    unfold PTE_P
    rw [Nat.and_one_is_mod, Nat.and_one_is_mod]
    unfold PGSIZE at hp
    omega
  have haddr : PTE_ADDR (pa + g) = pa := by
    unfold PTE_ADDR PGSIZE at *
    omega
  have hflags : PTE_FLAGS (pa + g) = g := by
    unfold PTE_FLAGS PGSIZE at *
    omega
  rw [entryOf, hbit, haddr, hflags]

theorem entryOf_zero : entryOf 0 = none := rfl

/-- `perm | PTE_P` for a permission in the low bits: low bits, present. -/
theorem perm_lor_lt {perm : Nat} (h : perm < PGSIZE) : perm ||| PTE_P < PGSIZE :=
  Nat.or_lt_two_pow (n := 12) h (by decide)

theorem perm_lor_present (perm : Nat) : (perm ||| PTE_P) &&& PTE_P ≠ 0 := by
  have hodd : (perm ||| 1) % 2 = 1 :=
    Nat.mod_two_eq_one_iff_testBit_zero.mpr (by simp)
  unfold PTE_P
  rw [Nat.and_one_is_mod]
  omega

/-- The entry `mappages` writes maps `pa` with `perm | PTE_P`. -/
theorem entryOf_mapped {pa perm : Nat} (hpa : pa % PGSIZE = 0) (hperm : perm < PGSIZE) :
    entryOf (pa ||| perm ||| PTE_P) = some (pa, perm ||| PTE_P) := by
  rw [Nat.or_assoc, lor_eq_add hpa (perm_lor_lt hperm), entryOf_add hpa (perm_lor_lt hperm),
    if_neg (perm_lor_present perm)]

/-- The directory entry `walkpgdir` writes for a new page table. -/
theorem pde_of_table {p : Nat} (hp : p % PGSIZE = 0) : p ||| PTE_P ||| PTE_W ||| PTE_U = p + 7 := by
  rw [Nat.or_assoc, Nat.or_assoc, show PTE_P ||| (PTE_W ||| PTE_U) = 7 by decide]
  exact lor_eq_add hp (by decide)

/-! ### Kernel pages -/

/-- The machine with physical memory `m`. -/
def Machine.withPhys (s : Machine) (m : Nat → UInt8) : Machine := { s with phys := m }

@[simp] theorem Machine.withPhys_phys (s : Machine) (m : Nat → UInt8) : (s.withPhys m).phys = m := rfl
@[simp] theorem Machine.withPhys_free (s : Machine) (m : Nat → UInt8) : (s.withPhys m).free = s.free := rfl
@[simp] theorem Machine.withPhys_data (s : Machine) (m : Nat → UInt8) : (s.withPhys m).data = s.data := rfl
@[simp] theorem Machine.withPhys_withPhys (s : Machine) (m m' : Nat → UInt8) :
    (s.withPhys m).withPhys m' = s.withPhys m' := rfl

/-- A page of the kernel's writable memory, by its physical address: outside the kernel's text,
which `kmap` maps without `PTE_W`. -/
def Kpage (data p : Nat) : Prop :=
  p % PGSIZE = 0 ∧ p + PGSIZE ≤ PHYSTOP ∧ (p + PGSIZE ≤ EXTMEM ∨ data ≤ p + KERNBASE)

section Kpage

variable {s : Machine} {p : Nat}

theorem Kpage.resolve (hp : Kpage s.data p) {k : Nat} (hk : k < PGSIZE) (wr : Bool) :
    s.resolve wr (p + KERNBASE + k) = some (p + k) := by
  obtain ⟨-, htop, hwr⟩ := hp
  have hkern : KERNBASE ≤ p + KERNBASE + k := by omega
  have hdirect : p + KERNBASE + k < KERNBASE + PHYSTOP := by
    unfold PGSIZE at *
    omega
  have htext : ¬ (wr = true ∧ KERNLINK ≤ p + KERNBASE + k ∧ p + KERNBASE + k < s.data) := by
    rintro ⟨-, h1, h2⟩
    unfold KERNLINK PGSIZE at *
    omega
  have hsub : p + KERNBASE + k - KERNBASE = p + k := by omega
  rw [Machine.resolve, if_pos hkern, if_pos hdirect, if_neg htext, hsub]

theorem Kpage.load32 (hp : Kpage s.data p) {k : Nat} (hk : k < PGSIZE) :
    s.load32 (p + KERNBASE + k) = .ok (read s.phys (p + k) 4) := by
  rw [Machine.load32, hp.resolve hk]

theorem Kpage.store32 (hp : Kpage s.data p) {k : Nat} (hk : k < PGSIZE) (x : Nat) :
    s.store32 (p + KERNBASE + k) x = .ok (s.withPhys (write s.phys (p + k) 4 x)) := by
  rw [Machine.store32, hp.resolve hk]
  rfl

theorem Kpage.memset (hp : Kpage s.data p) :
    s.memset (p + KERNBASE) PGSIZE = .ok (s.withPhys (write s.phys p PGSIZE 0)) := by
  have h := hp.resolve (k := 0) (by decide) true
  rw [Nat.add_zero, Nat.add_zero] at h
  rw [Machine.memset, h]
  rfl

/-- A kernel address of a page of the kernel's memory is its physical address plus `KERNBASE`. -/
theorem V2P_of_kpage {v : Nat} (hk : KERNBASE ≤ v) (hv : Kpage s.data (v - KERNBASE)) :
    V2P v = v - KERNBASE := by
  obtain ⟨-, htop, -⟩ := hv
  unfold V2P PGSIZE PHYSTOP KERNBASE at *
  omega

/-- Entry `i` of a directory that is a page of the kernel's memory, loaded through the kernel's
map. -/
theorem load32_pde {pgdir i : Nat} (hk : KERNBASE ≤ pgdir) (hdir : Kpage s.data (pgdir - KERNBASE))
    (hi : i < NPDENTRIES) : s.load32 (pgdir + 4 * i) = .ok (s.pdeAt pgdir i) := by
  have hslot : 4 * i < PGSIZE := by
    unfold NPDENTRIES PGSIZE at *
    omega
  have hptr : pgdir + 4 * i = pgdir - KERNBASE + KERNBASE + 4 * i := by omega
  rw [hptr, hdir.load32 hslot, Machine.pdeAt, V2P_of_kpage hk hdir]

end Kpage

/-- Fields in two different pages do not overlap. -/
theorem read_write_of_ne_page {m : Nat → UInt8} {p q o o' w w' x : Nat} (hp : p % PGSIZE = 0)
    (hq : q % PGSIZE = 0) (hne : p ≠ q) (ho : o + w ≤ PGSIZE) (ho' : o' + w' ≤ PGSIZE) :
    read (write m (q + o) w x) (p + o') w' = read m (p + o') w' :=
  LittleEndian.read_write_of_disjoint x (by unfold PGSIZE at *; omega)

/-- Two entries of one page. -/
theorem read_write_of_ne_slot {m : Nat → UInt8} {p j j' x : Nat} (hne : j ≠ j') :
    read (write m (p + 4 * j) 4 x) (p + 4 * j') 4 = read m (p + 4 * j') 4 :=
  LittleEndian.read_write_of_disjoint x (by omega)

theorem PDX_lt (va : Nat) : PDX va < NPDENTRIES := Nat.mod_lt _ (by decide)

theorem PTX_lt (va : Nat) : PTX va < NPTENTRIES := Nat.mod_lt _ (by decide)

/-! ### Well-formed directories -/

/-- A directory as `setupkvm` and `walkpgdir` build it. The directory and each page table it
enters are pages of the kernel's writable memory, no two entries share a table, and no table is
the directory. `kmem.freelist` holds other such pages, each once. -/
structure PageDir (s : Machine) (pgdir : Nat) : Prop where
  kern : KERNBASE ≤ pgdir
  dir : Kpage s.data (pgdir - KERNBASE)
  table : ∀ i < NPDENTRIES, s.pdeAt pgdir i &&& PTE_P ≠ 0 →
    Kpage s.data (PTE_ADDR (s.pdeAt pgdir i)) ∧ PTE_ADDR (s.pdeAt pgdir i) ≠ pgdir - KERNBASE
  table_inj : ∀ i < NPDENTRIES, ∀ j < NPDENTRIES, s.pdeAt pgdir i &&& PTE_P ≠ 0 →
    s.pdeAt pgdir j &&& PTE_P ≠ 0 → PTE_ADDR (s.pdeAt pgdir i) = PTE_ADDR (s.pdeAt pgdir j) → i = j
  free : ∀ f ∈ s.free, KERNBASE ≤ f ∧ Kpage s.data (f - KERNBASE) ∧ f ≠ pgdir ∧
    ∀ i < NPDENTRIES, s.pdeAt pgdir i &&& PTE_P ≠ 0 → PTE_ADDR (s.pdeAt pgdir i) ≠ f - KERNBASE
  nodup : s.free.Nodup

section PageDir

variable {s : Machine} {pgdir : Nat}

theorem PageDir.V2P_eq (h : PageDir s pgdir) : V2P pgdir = pgdir - KERNBASE :=
  V2P_of_kpage h.kern h.dir

theorem PageDir.pdeAt_eq (h : PageDir s pgdir) (t : Machine) (i : Nat) :
    t.pdeAt pgdir i = read t.phys (pgdir - KERNBASE + 4 * i) 4 := by
  rw [Machine.pdeAt, h.V2P_eq]

/-- A directory is what its entries say: another machine with the same entries, free list and
text holds the same directory. -/
theorem PageDir.congr {s' : Machine} (h : PageDir s pgdir) (hdata : s'.data = s.data)
    (hfree : s'.free = s.free) (hpde : ∀ i < NPDENTRIES, s'.pdeAt pgdir i = s.pdeAt pgdir i) :
    PageDir s' pgdir where
  kern := h.kern
  dir := hdata ▸ h.dir
  table i hi hp := by
    rw [hpde i hi, hdata] at *
    exact h.table i hi hp
  table_inj i hi j hj hpi hpj heq := by
    rw [hpde i hi] at hpi heq
    rw [hpde j hj] at hpj heq
    exact h.table_inj i hi j hj hpi hpj heq
  free f hf := by
    rw [hfree] at hf
    obtain ⟨hk, hpage, hne, htab⟩ := h.free f hf
    refine ⟨hk, hdata ▸ hpage, hne, fun i hi hp => ?_⟩
    rw [hpde i hi] at hp ⊢
    exact htab i hi hp
  nodup := hfree ▸ h.nodup

/-- A store outside the directory's page leaves its entries. -/
theorem PageDir.pdeAt_write (h : PageDir s pgdir) {q o w x : Nat} (hq : q % PGSIZE = 0)
    (hne : q ≠ pgdir - KERNBASE) (ho : o + w ≤ PGSIZE) {i : Nat} (hi : i < NPDENTRIES) :
    (s.withPhys (write s.phys (q + o) w x)).pdeAt pgdir i = s.pdeAt pgdir i := by
  rw [Machine.pdeAt, Machine.pdeAt, h.V2P_eq]
  exact read_write_of_ne_page h.dir.1 hq (Ne.symm hne) ho (by unfold NPDENTRIES PGSIZE at *; omega)

end PageDir

/-- A write of a whole page leaves every field of another page. -/
theorem read_write_page_of_ne {m : Nat → UInt8} {p q o' w' x : Nat} (hp : p % PGSIZE = 0)
    (hq : q % PGSIZE = 0) (hne : p ≠ q) (ho' : o' + w' ≤ PGSIZE) :
    read (write m q PGSIZE x) (p + o') w' = read m (p + o') w' :=
  LittleEndian.read_write_of_disjoint x (by unfold PGSIZE at *; omega)

theorem read_write_entry {m : Nat → UInt8} {off x : Nat} (hx : x < 2 ^ 32) :
    read (write m off 4 x) off 4 = x :=
  LittleEndian.read_write_of_lt (by norm_num; omega)

section PageDir

variable {s : Machine} {pgdir : Nat}

/-- A store into entry `j` of the table that present directory entry `i` names changes the
mapping of exactly the pages with those indices. -/
theorem PageDir.setPte (h : PageDir s pgdir) {i j x : Nat} (hi : i < NPDENTRIES)
    (hj : j < NPTENTRIES) (hpres : s.pdeAt pgdir i &&& PTE_P ≠ 0) (hx : x < 2 ^ 32) :
    PageDir (s.withPhys (write s.phys (PTE_ADDR (s.pdeAt pgdir i) + 4 * j) 4 x)) pgdir ∧
      ∀ va, (s.withPhys (write s.phys (PTE_ADDR (s.pdeAt pgdir i) + 4 * j) 4 x)).entry pgdir va =
        if PDX va = i ∧ PTX va = j then entryOf x else s.entry pgdir va := by
  obtain ⟨htab, hne⟩ := h.table i hi hpres
  have hslot : 4 * j + 4 ≤ PGSIZE := by
    unfold NPTENTRIES PGSIZE at *
    omega
  have hpde : ∀ i' < NPDENTRIES,
      (s.withPhys (write s.phys (PTE_ADDR (s.pdeAt pgdir i) + 4 * j) 4 x)).pdeAt pgdir i' =
        s.pdeAt pgdir i' :=
    fun i' hi' => h.pdeAt_write htab.1 hne hslot hi'
  refine ⟨h.congr rfl rfl hpde, fun va => ?_⟩
  have hpdx := PDX_lt va
  have hptx : 4 * PTX va + 4 ≤ PGSIZE := by
    have := PTX_lt va
    unfold NPTENTRIES PGSIZE at *
    omega
  unfold Machine.entry Machine.pteAt
  rw [hpde _ hpdx, Machine.withPhys_phys]
  by_cases hva : PDX va = i ∧ PTX va = j
  · -- the entry written
    obtain ⟨h1, h2⟩ := hva
    rw [if_pos (And.intro h1 h2), h1, if_neg hpres, h2, read_write_entry hx]
  · rw [if_neg hva]
    by_cases hp : s.pdeAt pgdir (PDX va) &&& PTE_P = 0
    · rw [if_pos hp, if_pos hp]
    · rw [if_neg hp, if_neg hp]
      by_cases hi' : PDX va = i
      · -- the same table, another entry
        have hj' : PTX va ≠ j := fun h' => hva ⟨hi', h'⟩
        rw [hi', read_write_of_ne_slot (Ne.symm hj')]
      · -- another table
        have ht' := (h.table _ hpdx hp).1
        have hne' : PTE_ADDR (s.pdeAt pgdir (PDX va)) ≠ PTE_ADDR (s.pdeAt pgdir i) :=
          fun heq => hi' (h.table_inj _ hpdx _ hi hp hpres heq)
        rw [read_write_of_ne_page ht'.1 htab.1 hne' hslot hptx]

/-- Memory with the page at kernel address `f` cleared and entered in directory `pgdir` at `i`
with `PTE_P | PTE_W | PTE_U`. -/
def tableAt (m : Nat → UInt8) (pgdir i f : Nat) : Nat → UInt8 :=
  write (write m (f - KERNBASE) PGSIZE 0) (pgdir - KERNBASE + 4 * i) 4 (f - KERNBASE + 7)

/-- `walkpgdir`'s new page table: the head `f` of the free list, cleared, and entered at `i`
with `PTE_P | PTE_W | PTE_U`. Every page is mapped as it was. -/
theorem PageDir.addTable (h : PageDir s pgdir) {i f : Nat} {rest : List Nat} (hi : i < NPDENTRIES)
    (habs : s.pdeAt pgdir i &&& PTE_P = 0) (hfree : s.free = f :: rest) :
    PageDir ({ s with free := rest }.withPhys (tableAt s.phys pgdir i f)) pgdir ∧
      ({ s with free := rest }.withPhys (tableAt s.phys pgdir i f)).pdeAt pgdir i = f - KERNBASE + 7 ∧
      ∀ va, ({ s with free := rest }.withPhys (tableAt s.phys pgdir i f)).entry pgdir va =
        s.entry pgdir va := by
  have hfmem : f ∈ s.free := by
    rw [hfree]
    exact List.mem_cons_self
  obtain ⟨hfk, hfpage, hfdir, hftab⟩ := h.free f hfmem
  have hdir := h.dir
  have hkern := h.kern
  have hfne : f - KERNBASE ≠ pgdir - KERNBASE := by omega
  have hslot : 4 * i + 4 ≤ PGSIZE := by
    unfold NPDENTRIES PGSIZE at *
    omega
  set m₁ := write s.phys (f - KERNBASE) PGSIZE 0 with hm₁
  set m₂ := tableAt s.phys pgdir i f with hm₂
  have hm₂' : m₂ = write m₁ (pgdir - KERNBASE + 4 * i) 4 (f - KERNBASE + 7) := rfl
  set s' : Machine := { s with free := rest }.withPhys m₂
  have hlt : f - KERNBASE + 7 < 2 ^ 32 := by
    obtain ⟨-, htop, -⟩ := hfpage
    unfold PGSIZE PHYSTOP at htop
    omega
  -- the directory's entries: entry `i` written, the others as they were
  have hpde_i : s'.pdeAt pgdir i = f - KERNBASE + 7 := by
    rw [h.pdeAt_eq s']
    show read m₂ _ 4 = _
    rw [hm₂']
    exact read_write_entry hlt
  have hpde : ∀ i' < NPDENTRIES, i' ≠ i → s'.pdeAt pgdir i' = s.pdeAt pgdir i' := by
    intro i' hi' hne
    have hslot' : 4 * i' + 4 ≤ PGSIZE := by
      unfold NPDENTRIES PGSIZE at *
      omega
    rw [h.pdeAt_eq s', h.pdeAt_eq s]
    show read m₂ _ 4 = _
    rw [hm₂', read_write_of_ne_slot (Ne.symm hne),
      read_write_page_of_ne hdir.1 hfpage.1 hfne.symm hslot']
  have hpres_i : s'.pdeAt pgdir i &&& PTE_P ≠ 0 := by
    rw [hpde_i]
    unfold PTE_P
    rw [Nat.and_one_is_mod]
    have := hfpage.1
    unfold PGSIZE at this
    omega
  have haddr_i : PTE_ADDR (s'.pdeAt pgdir i) = f - KERNBASE := by
    rw [hpde_i]
    have := hfpage.1
    unfold PTE_ADDR PGSIZE at *
    omega
  -- a table other than the new one reads as before
  have hpte : ∀ t, t % PGSIZE = 0 → t ≠ f - KERNBASE → t ≠ pgdir - KERNBASE → ∀ j < NPTENTRIES,
      s'.pteAt t j = s.pteAt t j := by
    intro t ht htf htd j hj
    have hslotj : 4 * j + 4 ≤ PGSIZE := by
      unfold NPTENTRIES PGSIZE at *
      omega
    show read m₂ (t + 4 * j) 4 = read s.phys (t + 4 * j) 4
    rw [hm₂', read_write_of_ne_page ht hdir.1 htd hslot hslotj,
      read_write_page_of_ne ht hfpage.1 htf hslotj]
  refine ⟨⟨hkern, hdir, fun i' hi' hp => ?_, fun i' hi' j hj hpi hpj heq => ?_, fun f' hf' => ?_,
    ?_⟩, hpde_i, fun va => ?_⟩
  · -- tables
    by_cases hii : i' = i
    · rw [hii, haddr_i]
      exact ⟨hfpage, hfne⟩
    · rw [hpde i' hi' hii] at hp ⊢
      exact h.table i' hi' hp
  · -- no two entries share a table
    by_cases hii : i' = i
    · by_cases hjj : j = i
      · rw [hii, hjj]
      · rw [hii, haddr_i, hpde j hj hjj] at heq
        rw [hpde j hj hjj] at hpj
        exact absurd heq.symm (hftab j hj hpj)
    · by_cases hjj : j = i
      · rw [hjj, haddr_i, hpde i' hi' hii] at heq
        rw [hpde i' hi' hii] at hpi
        exact absurd heq (hftab i' hi' hpi)
      · rw [hpde i' hi' hii, hpde j hj hjj] at heq
        rw [hpde i' hi' hii] at hpi
        rw [hpde j hj hjj] at hpj
        exact h.table_inj i' hi' j hj hpi hpj heq
  · -- the rest of the free list
    have hnodup := h.nodup
    rw [hfree, List.nodup_cons] at hnodup
    have hf'mem : f' ∈ s.free := by
      rw [hfree]
      exact List.mem_cons_of_mem _ hf'
    obtain ⟨hk', hpage', hdir', htab'⟩ := h.free f' hf'mem
    have hff : f' ≠ f := fun heq => hnodup.1 (heq ▸ hf')
    refine ⟨hk', hpage', hdir', fun i' hi' hp => ?_⟩
    by_cases hii : i' = i
    · rw [hii, haddr_i]
      omega
    · rw [hpde i' hi' hii] at hp ⊢
      exact htab' i' hi' hp
  · have hnodup := h.nodup
    rw [hfree, List.nodup_cons] at hnodup
    exact hnodup.2
  · -- entries: the new table is clear, and no other table is touched
    have hpdx := PDX_lt va
    unfold Machine.entry
    by_cases hva : PDX va = i
    · rw [hva, if_neg hpres_i, if_pos habs, haddr_i]
      have hzero : s'.pteAt (f - KERNBASE) (PTX va) = 0 := by
        have hslotj : 4 * PTX va + 4 ≤ PGSIZE := by
          have := PTX_lt va
          unfold NPTENTRIES PGSIZE at *
          omega
        show read m₂ _ 4 = 0
        rw [hm₂', read_write_of_ne_page hfpage.1 hdir.1 hfne hslot hslotj]
        exact LittleEndian.read_write_zero (by omega) (by omega)
      rw [hzero, entryOf_zero]
    · rw [hpde _ hpdx hva]
      by_cases hp : s.pdeAt pgdir (PDX va) &&& PTE_P = 0
      · rw [if_pos hp, if_pos hp]
      · rw [if_neg hp, if_neg hp]
        obtain ⟨htab, htd⟩ := h.table _ hpdx hp
        rw [hpte _ htab.1 (hftab _ hpdx hp) htd _ (PTX_lt va)]

end PageDir

/-! ### `walkpgdir` and one pass of `mappages` -/

section Walk

variable {s : Machine} {pgdir : Nat}

/-- `walkpgdir(pgdir, a, 1)` on a directory returns 0 with nothing changed when `a` has no page
table and no page is free for one. Otherwise it returns the kernel address of `a`'s entry in a
table that the directory now enters, with every page mapped as before. -/
theorem PageDir.walkpgdir_alloc (h : PageDir s pgdir) (a : Nat) :
    walkpgdir s pgdir a true = .ok (0, s) ∨
      ∃ s', walkpgdir s pgdir a true =
          .ok (PTE_ADDR (s'.pdeAt pgdir (PDX a)) + KERNBASE + 4 * PTX a, s') ∧
        PageDir s' pgdir ∧ s'.pdeAt pgdir (PDX a) &&& PTE_P ≠ 0 ∧
        ∀ va, s'.entry pgdir va = s.entry pgdir va := by
  have hkern := h.kern
  have hpdx := PDX_lt a
  have hslot : 4 * PDX a < PGSIZE := by
    unfold NPDENTRIES PGSIZE at *
    omega
  have hload := load32_pde h.kern h.dir hpdx
  by_cases hp : s.pdeAt pgdir (PDX a) &&& PTE_P = 0
  · cases hfree : s.free with
    | nil =>
      -- no page for a table
      left
      simp only [walkpgdir, hload, bind, Except.bind, hp, ne_eq, not_true_eq_false, if_false,
        Bool.not_true, Bool.false_eq_true, kalloc, hfree]
      rfl
    | cons f rest =>
      right
      obtain ⟨hdir', hpde', hentry'⟩ := h.addTable hpdx hp hfree
      have hf := h.free f (by rw [hfree]; exact List.mem_cons_self)
      obtain ⟨hfk, hfpage, -, -⟩ := hf
      have hv2p : V2P f = f - KERNBASE := by
        obtain ⟨-, htop, -⟩ := hfpage
        unfold V2P PGSIZE PHYSTOP KERNBASE at *
        omega
      have haddr : PTE_ADDR (f - KERNBASE + 7) = f - KERNBASE := by
        have := hfpage.1
        unfold PTE_ADDR PGSIZE at *
        omega
      refine ⟨_, ?_, hdir', ?_, hentry'⟩
      · -- the new table: cleared, then entered in the directory
        have hmemset : ({ s with free := rest } : Machine).memset f PGSIZE =
            .ok ({ s with free := rest }.withPhys (write s.phys (f - KERNBASE) PGSIZE 0)) := by
          have h0 := Kpage.memset (s := { s with free := rest }) hfpage
          rw [Nat.sub_add_cancel hfk] at h0
          exact h0
        have hdir₁ : Kpage ({ s with free := rest }.withPhys
            (write s.phys (f - KERNBASE) PGSIZE 0)).data (pgdir - KERNBASE) := by
          rw [Machine.withPhys_data]
          exact h.dir
        have hstore := hdir₁.store32 hslot (f - KERNBASE + 7)
        rw [show pgdir - KERNBASE + KERNBASE + 4 * PDX a = pgdir + 4 * PDX a by omega,
          Machine.withPhys_withPhys, Machine.withPhys_phys] at hstore
        have hcall : walkpgdir s pgdir a true =
            .ok (f + 4 * PTX a, { s with free := rest }.withPhys (tableAt s.phys pgdir (PDX a) f)) := by
          simp only [walkpgdir, hload, bind, Except.bind, hp, ne_eq, not_true_eq_false, if_false,
            Bool.not_true, Bool.false_eq_true, kalloc, hfree, hmemset, hv2p, pde_of_table hfpage.1,
            hstore]
          rfl
        rw [hcall, hpde', haddr, Nat.sub_add_cancel hfk]
      · rw [hpde']
        unfold PTE_P
        rw [Nat.and_one_is_mod]
        have := hfpage.1
        unfold PGSIZE at this
        omega
  · -- the table is there
    right
    obtain ⟨htab, -⟩ := h.table _ hpdx hp
    have hp2v : P2V (PTE_ADDR (s.pdeAt pgdir (PDX a))) = PTE_ADDR (s.pdeAt pgdir (PDX a)) + KERNBASE := by
      obtain ⟨-, htop, -⟩ := htab
      unfold P2V PGSIZE PHYSTOP KERNBASE at *
      omega
    refine ⟨s, ?_, h, hp, fun _ => rfl⟩
    simp only [walkpgdir, hload, bind, Except.bind, hp, ne_eq, not_false_eq_true, if_true, hp2v]
    rfl

/-- With `alloc = 0`, `walkpgdir` changes nothing. -/
theorem walkpgdir_no_alloc {w r : Nat} {s' : Machine} (h : walkpgdir s pgdir w false = .ok (r, s')) :
    s' = s := by
  unfold walkpgdir at h
  cases hload : s.load32 (pgdir + 4 * PDX w) with
  | error e =>
    rw [hload] at h
    cases h
  | ok pde =>
    rw [hload] at h
    simp only [bind, Except.bind] at h
    by_cases hp : pde &&& PTE_P ≠ 0
    · rw [if_pos hp] at h
      cases h
      rfl
    · rw [if_neg hp] at h
      simp only [Bool.not_false, if_true] at h
      cases h
      rfl

/-- One pass of `mappages` on a page that is not mapped: `walkpgdir` returns 0, or the page is
mapped to `pa` with `perm | PTE_P` and nothing else changes. -/
theorem PageDir.mappagesStep (h : PageDir s pgdir) {a pa perm : Nat} (hnone : s.entry pgdir a = none)
    (hpa : pa % PGSIZE = 0) (hpa' : pa < 2 ^ 32) (hperm : perm < PGSIZE) :
    mappagesStep s pgdir a pa perm = .ok none ∨
      ∃ s', mappagesStep s pgdir a pa perm = .ok (some s') ∧ PageDir s' pgdir ∧
        ∀ va, s'.entry pgdir va = if SamePage va a then some (pa, perm ||| PTE_P) else s.entry pgdir va := by
  rcases h.walkpgdir_alloc a with hwalk | ⟨s₁, hwalk, h₁, hpres, hentry⟩
  · left
    rw [Mmu.mappagesStep, hwalk]
    rfl
  · right
    set t := PTE_ADDR (s₁.pdeAt pgdir (PDX a))
    obtain ⟨htab, -⟩ := h₁.table _ (PDX_lt a) hpres
    have hslot : 4 * PTX a < PGSIZE := by
      have := PTX_lt a
      unfold NPTENTRIES PGSIZE at *
      omega
    have hptr : t + KERNBASE + 4 * PTX a ≠ 0 := by
      unfold KERNBASE
      omega
    -- `a`'s directory entry is present and `a` is not mapped, so its page entry is clear
    have hclear : s₁.pteAt t (PTX a) &&& PTE_P = 0 := by
      have hmapped := (hentry a).trans hnone
      unfold Machine.entry entryOf at hmapped
      rw [if_neg hpres] at hmapped
      by_contra hc
      rw [if_neg hc] at hmapped
      cases hmapped
    have hx : pa ||| perm ||| PTE_P < 2 ^ 32 := by
      have hlow := perm_lor_lt hperm
      rw [Nat.or_assoc, lor_eq_add hpa hlow]
      unfold PGSIZE at *
      omega
    obtain ⟨h₂, hentry₂⟩ := h₁.setPte (PDX_lt a) (PTX_lt a) hpres hx
    refine ⟨_, ?_, h₂, fun va => ?_⟩
    · have hload : s₁.load32 (t + KERNBASE + 4 * PTX a) = .ok (s₁.pteAt t (PTX a)) :=
        htab.load32 hslot
      have hstore := htab.store32 hslot (pa ||| perm ||| PTE_P)
      have hclear' : ¬ (s₁.pteAt t (PTX a) &&& PTE_P ≠ 0) := fun hc => hc hclear
      -- the pass taken apart bind by bind; nothing here may evaluate `t + KERNBASE + ...`
      refine (Except.bind_eq_ok _ _ _).mpr ⟨_, hwalk, (if_neg hptr).trans ?_⟩
      refine (Except.bind_eq_ok _ _ _).mpr ⟨_, hload, (if_neg hclear').trans ?_⟩
      rw [hstore]
      rfl
    · rw [hentry₂ va, entryOf_mapped hpa hperm, hentry va]
      by_cases hs : SamePage va a
      · rw [if_pos hs]
        exact if_pos hs
      · rw [if_neg hs]
        exact if_neg hs

end Walk

/-! ### `mappages` -/

/-- Fewer than 2^20 pages on from a page boundary are distinct pages. -/
theorem eq_of_samePage {a i j : Nat} (ha : a % PGSIZE = 0) (hi : i < 2 ^ 20) (hj : j < 2 ^ 20)
    (h : SamePage ((a + i * PGSIZE) % 2 ^ 32) ((a + j * PGSIZE) % 2 ^ 32)) : i = j := by
  obtain ⟨h1, h2⟩ := h
  unfold PDX PTX PGSIZE at *
  omega

theorem SamePage.refl (v : Nat) : SamePage v v := ⟨rfl, rfl⟩

theorem SamePage.symm {v w : Nat} (h : SamePage v w) : SamePage w v := ⟨h.1.symm, h.2.symm⟩

/-- The page after page `i` of a run is page `i + 1`. -/
theorem next_page (a i : Nat) :
    (((a + PGSIZE) % 2 ^ 32) + i * PGSIZE) % 2 ^ 32 = (a + (i + 1) * PGSIZE) % 2 ^ 32 := by
  unfold PGSIZE
  omega

section Loop

variable {pgdir perm : Nat}

/-- `mappages`'s loop from page `a` to the page `n` pages on, through the wrap at 2^32, over a
directory where none of those pages is mapped. It returns -1, or 0 with page `i` mapped to the
`i`-th physical page on from `pa` and no other page changed. The induction is on the pages left;
each pass is `PageDir.mappagesStep`, and the pages are distinct (`eq_of_samePage`), so a pass
leaves the pages still to come unmapped. -/
theorem PageDir.mappagesLoop (hperm : perm < PGSIZE) :
    ∀ (n fuel : Nat) (s : Machine) (a pa : Nat), PageDir s pgdir → a % PGSIZE = 0 → a < 2 ^ 32 →
      pa % PGSIZE = 0 → pa < 2 ^ 32 → n < 2 ^ 20 → n < fuel →
      (∀ i ≤ n, s.entry pgdir ((a + i * PGSIZE) % 2 ^ 32) = none) →
      ∃ r s', Mmu.mappagesLoop pgdir ((a + n * PGSIZE) % 2 ^ 32) perm fuel s a pa = .ok (r, s') ∧
        (r = 0 ∨ r = -1) ∧
        (r = 0 → PageDir s' pgdir ∧
          (∀ i ≤ n, s'.entry pgdir ((a + i * PGSIZE) % 2 ^ 32) =
            some ((pa + i * PGSIZE) % 2 ^ 32, perm ||| PTE_P)) ∧
          ∀ va, (∀ i ≤ n, ¬ SamePage va ((a + i * PGSIZE) % 2 ^ 32)) → s'.entry pgdir va = s.entry pgdir va)
  | _, 0, _, _, _, _, _, _, _, _, _, hfuel, _ => absurd hfuel (Nat.not_lt_zero _)
  | n, fuel + 1, s, a, pa, h, ha, ha', hpa, hpa', hn, hfuel, hnone => by
    have hfirst : (a + 0 * PGSIZE) % 2 ^ 32 = a := by omega
    have hpa₀ : (pa + 0 * PGSIZE) % 2 ^ 32 = pa := by omega
    have hnone₀ : s.entry pgdir a = none := by
      rw [← hnone 0 (Nat.zero_le n), hfirst]
    rcases h.mappagesStep hnone₀ hpa hpa' hperm with hstep | ⟨s₁, hstep, h₁, hentry₁⟩
    · -- no page for a table: -1
      refine ⟨-1, s, (Except.bind_eq_ok _ _ _).mpr ⟨none, hstep, rfl⟩, .inr rfl, fun h0 => ?_⟩
      cases h0
    · cases n with
      | zero =>
        -- `a == last`: the one page is mapped
        refine ⟨0, s₁, (Except.bind_eq_ok _ _ _).mpr ⟨some s₁, hstep, if_pos hfirst.symm⟩, .inl rfl,
          fun _ => ⟨h₁, fun i hi => ?_, fun va hva => ?_⟩⟩
        · obtain rfl : i = 0 := by omega
          rw [hfirst, hpa₀, hentry₁, if_pos (SamePage.refl a)]
        · have hne : ¬ SamePage va a := by
            have := hva 0 (Nat.le_refl 0)
            rwa [hfirst] at this
          rw [hentry₁, if_neg hne]
      | succ k =>
        -- not yet `last`: the rest of the pages from the next one
        have hne : a ≠ (a + (k + 1) * PGSIZE) % 2 ^ 32 := by
          intro heq
          have hs : SamePage ((a + 0 * PGSIZE) % 2 ^ 32) ((a + (k + 1) * PGSIZE) % 2 ^ 32) := by
            rw [hfirst, ← heq]
            exact SamePage.refl a
          have := eq_of_samePage ha (by decide) hn hs
          omega
        -- page `a` is not one of the pages still to come
        have hother : ∀ i ≤ k, ¬ SamePage ((((a + PGSIZE) % 2 ^ 32) + i * PGSIZE) % 2 ^ 32) a := by
          intro i hi hs
          rw [next_page] at hs
          have hs' : SamePage ((a + (i + 1) * PGSIZE) % 2 ^ 32) ((a + 0 * PGSIZE) % 2 ^ 32) := by
            rw [hfirst]
            exact hs
          have := eq_of_samePage ha (by omega) (by decide) hs'
          omega
        have hnone' : ∀ i ≤ k, s₁.entry pgdir ((((a + PGSIZE) % 2 ^ 32) + i * PGSIZE) % 2 ^ 32) = none := by
          intro i hi
          rw [hentry₁, if_neg (hother i hi), next_page]
          exact hnone (i + 1) (by omega)
        obtain ⟨r, s', hloop, hr, hspec⟩ := PageDir.mappagesLoop hperm k fuel s₁ ((a + PGSIZE) % 2 ^ 32)
          ((pa + PGSIZE) % 2 ^ 32) h₁ (by unfold PGSIZE at *; omega) (by omega)
          (by unfold PGSIZE at *; omega) (by omega) (by omega) (by omega) hnone'
        rw [next_page] at hloop
        refine ⟨r, s', (Except.bind_eq_ok _ _ _).mpr ⟨some s₁, hstep, (if_neg hne).trans hloop⟩, hr,
          fun hr0 => ?_⟩
        obtain ⟨h', hmapped, hframe⟩ := hspec hr0
        refine ⟨h', fun i hi => ?_, fun va hva => ?_⟩
        · cases i with
          | zero =>
            -- page `a`, mapped by this pass and left by the rest
            rw [hfirst, hpa₀, hframe a fun i hi hs => hother i hi hs.symm, hentry₁,
              if_pos (SamePage.refl a)]
          | succ i =>
            have := hmapped i (by omega)
            rw [next_page, next_page] at this
            exact this
        · have hva' : ∀ i ≤ k, ¬ SamePage va ((((a + PGSIZE) % 2 ^ 32) + i * PGSIZE) % 2 ^ 32) := by
            intro i hi
            rw [next_page]
            exact hva (i + 1) (by omega)
          have hne' : ¬ SamePage va a := by
            have := hva 0 (Nat.zero_le _)
            rwa [hfirst] at this
          rw [hframe va hva', hentry₁, if_neg hne']

end Loop

/-- `last`, the page of `va + size - 1`, is `npages - 1` pages on from the first page. -/
theorem last_eq {va : Nat} (size : Nat) (hva : va < 2 ^ 32) :
    PGROUNDDOWN ((va + size + 2 ^ 32 - 1) % 2 ^ 32) =
      (PGROUNDDOWN va + (npages va size - 1) * PGSIZE) % 2 ^ 32 := by
  unfold npages PGROUNDDOWN PGSIZE
  omega

theorem npages_pos (va size : Nat) : 0 < npages va size := Nat.succ_pos _

theorem npages_le (va size : Nat) : npages va size ≤ 2 ^ 20 := by
  unfold npages PGROUNDDOWN PGSIZE
  omega

/-- `mappages` over a well-formed directory where none of its pages is mapped returns, within its
2^20 passes, 0 or -1; on 0 the `i`-th page maps to the `i`-th physical page from `pa` with
`perm | PTE_P`, every other page is as before, and the directory is still well formed. -/
theorem PageDir.mappages {s : Machine} {pgdir va size pa perm : Nat} (h : PageDir s pgdir)
    (hva : va < 2 ^ 32) (hpa : pa % PGSIZE = 0) (hpa' : pa < 2 ^ 32) (hperm : perm < PGSIZE)
    (hnone : ∀ i < npages va size, s.entry pgdir (page va i) = none) :
    ∃ r s', mappages s pgdir va size pa perm = .ok (r, s') ∧ (r = 0 ∨ r = -1) ∧
      (r = 0 → PageDir s' pgdir ∧
        (∀ i < npages va size,
          s'.entry pgdir (page va i) = some ((pa + i * PGSIZE) % 2 ^ 32, perm ||| PTE_P)) ∧
        ∀ w, (∀ i < npages va size, ¬ SamePage w (page va i)) → s'.entry pgdir w = s.entry pgdir w) := by
  -- the loop runs over pages `0 .. n` from `PGROUNDDOWN va`, with `n = npages - 1`
  have hpos := npages_pos va size
  have hle := npages_le va size
  have hfirst : PGROUNDDOWN va % PGSIZE = 0 := Nat.mul_mod_left _ _
  have hfirst' : PGROUNDDOWN va < 2 ^ 32 := by
    unfold PGROUNDDOWN PGSIZE
    omega
  obtain ⟨r, s', hloop, hr, hspec⟩ := PageDir.mappagesLoop hperm (npages va size - 1) (2 ^ 20) s
    (PGROUNDDOWN va) pa h hfirst hfirst' hpa hpa' (by omega) (by omega)
    (fun i hi => hnone i (by omega))
  refine ⟨r, s', ?_, hr, fun hr0 => ?_⟩
  · rw [Mmu.mappages, last_eq size hva]
    exact hloop
  · obtain ⟨h', hmapped, hframe⟩ := hspec hr0
    exact ⟨h', fun i hi => hmapped i (by omega), fun w hw => hframe w fun i hi => hw i (by omega)⟩

/-- A machine whose memory is zero but for its free page: directory `KERNBASE + 0x1000`, one free
page at `KERNBASE + 0x2000`, the kernel's text ending at `KERNLINK`. -/
def blankMachine : Machine := ⟨fun _ => 0, [KERNBASE + 0x2000], 0x1000, KERNLINK⟩

theorem blankMachine_pdeAt (pgdir i : Nat) : blankMachine.pdeAt pgdir i = 0 :=
  LittleEndian.read_zero _ _

theorem blankMachine_pageDir : PageDir blankMachine (KERNBASE + 0x1000) where
  kern := Nat.le_add_right _ _
  dir := ⟨rfl, by decide, .inl (by decide)⟩
  table i _ hp := absurd (by rw [blankMachine_pdeAt]; rfl) hp
  table_inj i _ _ _ hp := absurd (by rw [blankMachine_pdeAt]; rfl) hp
  free f hf := by
    rw [List.mem_singleton.mp hf]
    refine ⟨Nat.le_add_right _ _, ⟨rfl, by decide, .inl (by decide)⟩, by decide, ?_⟩
    intro i _ hp
    exact absurd (by rw [blankMachine_pdeAt]; rfl) hp
  nodup := List.pairwise_singleton _ _

end Xv6.Mmu
