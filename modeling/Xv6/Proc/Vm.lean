import Xv6.Param
import Mathlib.Logic.Function.Basic
import Mathlib.Data.List.Basic
import Mathlib.Algebra.Group.Nat.Defs

/-!
# Physical pages and page tables

`kalloc` takes the page at the head of `kmem.freelist` and `kfree` pushes one back. A page
directory is a page of directory entries, each pointing to a page table, whose entries map
user pages. `walkpgdir` finds the entry for a virtual address, allocating the page table when
asked to; `mappages` maps pages; `setupkvm` makes a directory with the kernel's half;
`deallocuvm` and `freevm` give the pages back; `copyuvm` copies an address space for `fork`.

Pages are physical addresses, `0` for none. `pde pd i` is the page table directory entry `i`
of directory `pd` points to, and `pte pt j` the page entry `j` of table `pt` maps, `none` when
`PTE_P` is clear; permission bits are left out. The kernel's half of a directory maps fixed
physical ranges, not pages of the allocator, and only the page tables it takes are modelled.

`copyuvm` that fails in `mappages` after its `kalloc` of the copy goes to `bad:`, which frees
the new directory but not the copy: the page is nowhere, neither free nor mapped
(`copyuvm_leaks_page`).
-/

namespace Xv6.Vm

/-- `PGSIZE`. -/
def PGSIZE : Nat := 4096
/-- `NPDENTRIES`. -/
def NPDENTRIES : Nat := 1024
/-- `NPTENTRIES`. -/
def NPTENTRIES : Nat := 1024
/-- `KERNBASE`. -/
def KERNBASE : Nat := 0x80000000
/-- `PHYSTOP`. -/
def PHYSTOP : Nat := 0xE000000
/-- `DEVSPACE`. -/
def DEVSPACE : Nat := 0xFE000000

/-- `PDX(va)`: the directory index of a virtual address. -/
def PDX (va : Nat) : Nat := va / 2 ^ 22 % 1024
/-- `PTX(va)`: the page table index of a virtual address. -/
def PTX (va : Nat) : Nat := va / 2 ^ 12 % 1024
/-- `PGROUNDUP(sz)`. -/
def PGROUNDUP (sz : Nat) : Nat := (sz + PGSIZE - 1) / PGSIZE * PGSIZE
/-- `PGROUNDDOWN(a)`. -/
def PGROUNDDOWN (a : Nat) : Nat := a / PGSIZE * PGSIZE

/-- `kmem.freelist` and the page tables. -/
structure Mem where
  free : List Nat
  pde : Nat → Nat → Option Nat
  pte : Nat → Nat → Option Nat

/-- `kalloc()`: the head of the free list, `none` for 0 when it is empty. -/
def kalloc (m : Mem) : Option (Nat × Mem) :=
  match m.free with
  | [] => none
  | r :: rest => some (r, { m with free := rest })

/-- `kfree(v)`: `v` goes to the head of the free list. -/
def kfree (m : Mem) (v : Nat) : Mem := { m with free := v :: m.free }

def Mem.setPde (m : Mem) (pd i : Nat) (v : Option Nat) : Mem :=
  { m with pde := Function.update m.pde pd (Function.update (m.pde pd) i v) }

def Mem.setPte (m : Mem) (pt j : Nat) (v : Option Nat) : Mem :=
  { m with pte := Function.update m.pte pt (Function.update (m.pte pt) j v) }

/-- `memset(pgtab, 0, PGSIZE)` of a page about to be a page table. -/
def Mem.clearTable (m : Mem) (pt : Nat) : Mem := { m with pte := Function.update m.pte pt fun _ => none }

/-- `memset(pgdir, 0, PGSIZE)` of a page about to be a page directory. -/
def Mem.clearDir (m : Mem) (pd : Nat) : Mem := { m with pde := Function.update m.pde pd fun _ => none }

/-- `walkpgdir(pgdir, va, alloc)`: the page table holding `va`'s entry, allocated and entered
in the directory when there is none and `alloc` is set; `none` for a null return. -/
def walkpgdir (m : Mem) (pgdir va : Nat) (alloc : Bool) : Option (Nat × Mem) :=
  match m.pde pgdir (PDX va) with
  | some pt => some (pt, m)
  | none =>
    if alloc then (kalloc m).map fun (pt, m) => (pt, (m.clearTable pt).setPde pgdir (PDX va) (some pt))
    else none

/-- `mappages`'s loop from `a` and `pa`, with `k` pages left up to `last`. -/
def mappagesLoop (pgdir : Nat) : Nat → Mem → Nat → Nat → Except String (Int × Mem)
  | 0, m, _, _ => .ok (0, m)
  | k + 1, m, a, pa =>
    match walkpgdir m pgdir a true with
    | none => .ok (-1, m)
    | some (pt, m) =>
      if (m.pte pt (PTX a)).isSome then .error "remap"
      else if k = 0 then .ok (0, m.setPte pt (PTX a) (some pa))
      else mappagesLoop pgdir k (m.setPte pt (PTX a) (some pa)) (a + PGSIZE) (pa + PGSIZE)

/-- `mappages(pgdir, va, size, pa, perm)`: 0, or -1 when a page table cannot be allocated. -/
def mappages (m : Mem) (pgdir va size pa : Nat) : Except String (Int × Mem) :=
  mappagesLoop pgdir ((PGROUNDDOWN (va + size - 1) - PGROUNDDOWN va) / PGSIZE + 1) m (PGROUNDDOWN va) pa

/-! ### Freeing -/

/-- `deallocuvm`'s loop from `a` below `oldsz`: a missing page table skips to the next
directory entry, a present page is freed and its entry cleared. Each pass moves `a` on by at
least a page, so `fuel` passes are enough for `fuel` pages. -/
def deallocLoop (pgdir oldsz : Nat) : Nat → Mem → Nat → Except String Mem
  | 0, m, a => if a < oldsz then .error "deallocuvm: fuel" else .ok m
  | fuel + 1, m, a =>
    if a < oldsz then
      match m.pde pgdir (PDX a) with
      | none => deallocLoop pgdir oldsz fuel m ((PDX a + 1) * 2 ^ 22 % 2 ^ 32)
      | some pt =>
        match m.pte pt (PTX a) with
        | some pa =>
          if pa = 0 then .error "kfree"
          else deallocLoop pgdir oldsz fuel ((kfree m pa).setPte pt (PTX a) none) (a + PGSIZE)
        | none => deallocLoop pgdir oldsz fuel m (a + PGSIZE)
    else .ok m

/-- `deallocuvm(pgdir, oldsz, newsz)`. -/
def deallocuvm (m : Mem) (pgdir oldsz newsz : Nat) : Except String Mem :=
  if newsz ≥ oldsz then .ok m
  else deallocLoop pgdir oldsz ((oldsz - PGROUNDUP newsz) / PGSIZE + 1) m (PGROUNDUP newsz)

/-- `freevm`'s loop over the directory: every page table it enters is freed, in order. -/
def freeTables (m : Mem) (pgdir : Nat) : Mem :=
  ((List.range NPDENTRIES).filterMap (m.pde pgdir)).foldl kfree m

/-- `freevm(pgdir)`: the user pages, the page tables, then the directory. -/
def freevm (m : Mem) (pgdir : Nat) : Except String Mem :=
  if pgdir = 0 then .error "freevm: no pgdir"
  else (deallocuvm m pgdir KERNBASE 0).map fun m => kfree (freeTables m pgdir) pgdir

/-! ### New address spaces -/

/-- The directory entries `setupkvm`'s `mappages` calls enter, in order: those of the kernel's
mappings of `[KERNBASE, KERNBASE + PHYSTOP)`, the kernel text and data being below the first
4 MB of it, and of `[DEVSPACE, 2^32)`. -/
def kernelPdes : List Nat :=
  List.range' (PDX KERNBASE) (PDX (KERNBASE + PHYSTOP - 1) + 1 - PDX KERNBASE) ++
    List.range' (PDX DEVSPACE) (NPDENTRIES - PDX DEVSPACE)

/-- The page tables of the kernel's half, one `kalloc` each; `false` when one fails. -/
def setupkvmLoop (pgdir : Nat) : List Nat → Mem → Bool × Mem
  | [], m => (true, m)
  | i :: is, m =>
    match kalloc m with
    | none => (false, m)
    | some (pt, m) => setupkvmLoop pgdir is ((m.clearTable pt).setPde pgdir i (some pt))

/-- `setupkvm()`: a directory with the kernel's half, or `none` for 0. -/
def setupkvm (m : Mem) : Except String (Option Nat × Mem) :=
  match kalloc m with
  | none => .ok (none, m)
  | some (pgdir, m) =>
    match setupkvmLoop pgdir kernelPdes (m.clearDir pgdir) with
    | (true, m) => .ok (some pgdir, m)
    | (false, m) => (freevm m pgdir).map fun m => (none, m)

/-- `copyuvm`'s loop over the parent's pages from `i`: `false` when it goes to `bad:`. -/
def copyuvmLoop (pgdir d sz : Nat) : Nat → Mem → Nat → Except String (Bool × Mem)
  | 0, m, _ => .ok (true, m)
  | k + 1, m, i =>
    if i < sz then
      match walkpgdir m pgdir i false with
      | none => .error "copyuvm: pte should exist"
      | some (pt, m) =>
        match m.pte pt (PTX i) with
        | none => .error "copyuvm: page not present"
        | some _ =>
          match kalloc m with
          | none => .ok (false, m)
          | some (mem, m) => do
            let (r, m) ← mappages m d i PGSIZE mem
            if r < 0 then .ok (false, m) else copyuvmLoop pgdir d sz k m (i + PGSIZE)
    else .ok (true, m)

/-- `copyuvm(pgdir, sz)`: the child's directory, or 0. -/
def copyuvm (m : Mem) (pgdir sz : Nat) : Except String (Nat × Mem) := do
  match ← setupkvm m with
  | (none, m) => pure (0, m)
  | (some d, m) =>
    let (ok, m) ← copyuvmLoop pgdir d sz (sz / PGSIZE + 1) m 0
    if ok then pure (d, m) else (freevm m d).map fun m => (0, m)

/-- What `fork` does to memory: `allocproc`'s `kalloc` of the kernel stack, then `copyuvm`;
when `copyuvm` fails, `kfree(np->kstack)`. The kernel stack and directory of the child, or
`none` when `fork` returns -1. -/
def forkMem (m : Mem) (pgdir sz : Nat) : Except String (Option (Nat × Nat) × Mem) :=
  match kalloc m with
  | none => .ok (none, m)
  | some (kstack, m) => do
    let (d, m) ← copyuvm m pgdir sz
    if d = 0 then pure (none, kfree m kstack) else pure (some (kstack, d), m)

/-- What `userinit` does to memory: `allocproc`'s kernel stack, `setupkvm`, and `inituvm`'s
page mapped at 0. The kernel stack and directory. -/
def userinitMem (m : Mem) : Except String (Nat × Nat × Mem) :=
  match kalloc m with
  | none => .error "userinit: allocproc"
  | some (kstack, m) => do
    match ← setupkvm m with
    | (none, _) => .error "userinit: out of memory?"
    | (some pgdir, m) =>
      match kalloc m with
      | none => .error "inituvm: kalloc"
      | some (mem, m) => do
        let (_, m) ← mappages m pgdir 0 PGSIZE mem
        pure (kstack, pgdir, m)

/-! ### Where a page is -/

/-- The page tables of directory `pd`'s user half. -/
def Mem.userTables (m : Mem) (pd : Nat) : List Nat := (List.range (PDX KERNBASE)).filterMap (m.pde pd)

/-- The pages of the address space `pd`: the directory, its page tables, and the user pages
they map. -/
def Mem.pagesOf (m : Mem) (pd : Nat) : List Nat :=
  pd :: (List.range NPDENTRIES).filterMap (m.pde pd) ++
    (m.userTables pd).flatMap fun pt => (List.range NPTENTRIES).filterMap (m.pte pt)

/-- The free list `kinit` builds from pages `1 .. n`, freed in order. -/
def Mem.boot (n : Nat) : Mem := ⟨(List.range' 1 n).reverse, fun _ _ => none, fun _ _ => none⟩

/-! ### What the operations change -/

section Simp

variable (m : Mem)

@[simp] theorem kfree_free (v : Nat) : (kfree m v).free = v :: m.free := rfl
@[simp] theorem kfree_pde (v : Nat) : (kfree m v).pde = m.pde := rfl
@[simp] theorem kfree_pte (v : Nat) : (kfree m v).pte = m.pte := rfl
@[simp] theorem setPde_free (pd i : Nat) (v : Option Nat) : (m.setPde pd i v).free = m.free := rfl
@[simp] theorem setPde_pte (pd i : Nat) (v : Option Nat) : (m.setPde pd i v).pte = m.pte := rfl
@[simp] theorem setPte_free (pt j : Nat) (v : Option Nat) : (m.setPte pt j v).free = m.free := rfl
@[simp] theorem setPte_pde (pt j : Nat) (v : Option Nat) : (m.setPte pt j v).pde = m.pde := rfl
@[simp] theorem clearTable_free (pt : Nat) : (m.clearTable pt).free = m.free := rfl
@[simp] theorem clearTable_pde (pt : Nat) : (m.clearTable pt).pde = m.pde := rfl
@[simp] theorem clearDir_free (pd : Nat) : (m.clearDir pd).free = m.free := rfl
@[simp] theorem clearDir_pte (pd : Nat) : (m.clearDir pd).pte = m.pte := rfl

theorem setPde_pde (pd i : Nat) (v : Option Nat) (pd' i' : Nat) :
    (m.setPde pd i v).pde pd' i' = if pd' = pd ∧ i' = i then v else m.pde pd' i' := by
  unfold Mem.setPde
  by_cases hpd : pd' = pd
  · subst hpd
    by_cases hi : i' = i
    · simp [hi]
    · simp [hi, Function.update_of_ne]
  · simp [hpd]

theorem setPte_pte (pt j : Nat) (v : Option Nat) (pt' j' : Nat) :
    (m.setPte pt j v).pte pt' j' = if pt' = pt ∧ j' = j then v else m.pte pt' j' := by
  unfold Mem.setPte
  by_cases hpt : pt' = pt
  · subst hpt
    by_cases hj : j' = j
    · simp [hj]
    · simp [hj, Function.update_of_ne]
  · simp [hpt]

theorem clearTable_pte (pt t : Nat) : (m.clearTable pt).pte t = if t = pt then fun _ => none else m.pte t := by
  unfold Mem.clearTable
  by_cases ht : t = pt
  · simp [ht]
  · simp [ht]

theorem clearDir_pde (pd d : Nat) : (m.clearDir pd).pde d = if d = pd then fun _ => none else m.pde d := by
  unfold Mem.clearDir
  by_cases hd : d = pd
  · simp [hd]
  · simp [hd]

end Simp

theorem kalloc_cons {m : Mem} {r : Nat} {rest : List Nat} (h : m.free = r :: rest) :
    kalloc m = some (r, { m with free := rest }) := by
  simp [kalloc, h]

theorem kalloc_nil {m : Mem} (h : m.free = []) : kalloc m = none := by
  simp [kalloc, h]

/-- The page tables of the kernel's half, taken from the head of the free list: `setupkvm`'s
loop succeeds when the list holds one page for each, takes those pages, and changes only the
entries of `pd` it is given and the tables it takes. -/
theorem setupkvmLoop_ok {pd : Nat} :
    ∀ {is : List Nat} {m : Mem}, is.length ≤ m.free.length →
      ∃ m', setupkvmLoop pd is m = (true, m') ∧ m'.free = m.free.drop is.length ∧
        (∀ pd', pd' ≠ pd → m'.pde pd' = m.pde pd') ∧
        (∀ i, i ∉ is → m'.pde pd i = m.pde pd i) ∧
        (∀ i t, m'.pde pd i = some t → m.pde pd i = some t ∨ t ∈ m.free.take is.length) ∧
        (∀ t, t ∉ m.free.take is.length → m'.pte t = m.pte t)
  | [], m, _ => ⟨m, rfl, rfl, fun _ _ => rfl, fun _ _ => rfl, fun _ _ h => .inl h, fun _ _ => rfl⟩
  | i :: is, m, hlen => by
    obtain ⟨r, rest, hfree⟩ : ∃ r rest, m.free = r :: rest := by
      cases h : m.free with
      | nil => rw [h] at hlen; simp at hlen
      | cons r rest => exact ⟨r, rest, rfl⟩
    -- one table taken for `i`, the rest by induction from the list after it
    set m₁ : Mem := ({ m with free := rest }.clearTable r).setPde pd i (some r) with hm₁
    have hlen₁ : is.length ≤ m₁.free.length := by
      simp only [hm₁, setPde_free, clearTable_free]
      rw [hfree] at hlen
      simpa using hlen
    obtain ⟨m', hloop, hfree', hpd, hother, hfrom, hpte⟩ := @setupkvmLoop_ok pd _ _ hlen₁
    refine ⟨m', ?_, ?_, fun pd' hne => ?_, fun i' hi' => ?_, fun i' t ht => ?_, fun t ht => ?_⟩
    · simp only [setupkvmLoop, kalloc_cons hfree]
      exact hloop
    · rw [hfree', hfree]
      simp [hm₁]
    · rw [hpd pd' hne, hm₁]
      funext i'
      rw [setPde_pde]
      simp [hne]
    · have hne : i' ≠ i := fun h => hi' (h ▸ List.mem_cons_self)
      have hnot : i' ∉ is := fun h => hi' (List.mem_cons_of_mem _ h)
      rw [hother i' hnot, hm₁, setPde_pde]
      simp [hne]
    · rcases hfrom i' t ht with h | h
      · rw [hm₁, setPde_pde] at h
        by_cases hi : i' = i
        · simp only [hi, and_self, if_true, Option.some.injEq] at h
          right
          rw [hfree, ← h]
          simp
        · left
          simpa [hi] using h
      · right
        rw [hfree]
        simp only [hm₁, setPde_free, clearTable_free] at h
        simp [h]
    · have htr : t ≠ r := by
        rintro rfl
        exact ht (by rw [hfree]; simp)
      have htake : t ∉ m₁.free.take is.length := by
        intro h
        apply ht
        rw [hfree]
        simp only [hm₁, setPde_free, clearTable_free] at h
        simp [h]
      rw [hpte t htake, hm₁, setPde_pte, clearTable_pte, if_neg htr]

theorem kernelPdes_length : kernelPdes.length = 64 := by decide

theorem PDX_KERNBASE : PDX KERNBASE = 512 := by decide

theorem KERNBASE_eq : KERNBASE = 512 * 2 ^ 22 := rfl

/-- The kernel's half is the upper half of the directory. -/
theorem le_of_mem_kernelPdes : ∀ i ∈ kernelPdes, PDX KERNBASE ≤ i := by decide

/-- `setupkvm` with the directory and one page for each kernel page table at the head of the
free list: it takes them, enters the tables in the new directory's upper half only, and
changes no other directory and no table it did not take. -/
theorem setupkvm_ok {m : Mem} {d : Nat} {F : List Nat} (hfree : m.free = d :: F)
    (hlen : kernelPdes.length ≤ F.length) :
    ∃ m', setupkvm m = .ok (some d, m') ∧ m'.free = F.drop kernelPdes.length ∧
      (∀ pd, pd ≠ d → m'.pde pd = m.pde pd) ∧
      (∀ i, i ∉ kernelPdes → m'.pde d i = none) ∧
      (∀ i t, m'.pde d i = some t → t ∈ F.take kernelPdes.length) ∧
      (∀ t, t ∉ F.take kernelPdes.length → m'.pte t = m.pte t) := by
  set m₀ : Mem := { m with free := F }.clearDir d with hm₀
  obtain ⟨m', hloop, hfree', hpd, hother, hfrom, hpte⟩ :=
    @setupkvmLoop_ok d kernelPdes m₀ (by simpa [hm₀] using hlen)
  have hcleared : m₀.pde d = fun _ => none := by
    rw [hm₀, clearDir_pde, if_pos rfl]
  refine ⟨m', ?_, by simpa [hm₀] using hfree', fun pd hpd' => ?_, fun i hi => ?_, fun i t ht => ?_,
    fun t ht => ?_⟩
  · simp only [setupkvm, kalloc_cons hfree]
    rw [hloop]
  · rw [hpd pd hpd', hm₀, clearDir_pde, if_neg hpd']
  · rw [hother i hi, hcleared]
  · rcases hfrom i t ht with h | h
    · rw [hcleared] at h
      cases h
    · simpa [hm₀] using h
  · rw [hpte t (by simpa [hm₀] using ht), hm₀, clearDir_pte]

/-- `mappages` of the first page with no page table for it and no page left fails. -/
theorem mappages_first_fails {m : Mem} {d pa : Nat} (hpde : m.pde d 0 = none) (hfree : m.free = []) :
    mappages m d 0 PGSIZE pa = .ok (-1, m) := by
  have hwalk : walkpgdir m d 0 true = none := by
    simp [walkpgdir, PDX, hpde, kalloc_nil hfree]
  show mappagesLoop d (0 + 1) m 0 pa = _
  rw [mappagesLoop, hwalk]

/-- With no page table in the user half, `deallocuvm`'s loop skips from one directory entry to
the next up to `KERNBASE` and frees nothing. -/
theorem deallocLoop_absent {m : Mem} {pd : Nat} (habs : ∀ i < PDX KERNBASE, m.pde pd i = none) :
    ∀ k n fuel, n + k = PDX KERNBASE → k ≤ fuel → deallocLoop pd KERNBASE fuel m (n * 2 ^ 22) = .ok m
  | 0, n, fuel, hn, _ => by
    have hend : ¬ n * 2 ^ 22 < KERNBASE := by
      rw [PDX_KERNBASE] at hn
      rw [KERNBASE_eq]
      omega
    cases fuel with
    | zero => rw [deallocLoop, if_neg hend]
    | succ fuel => rw [deallocLoop, if_neg hend]
  | k + 1, n, fuel + 1, hn, hk => by
    rw [PDX_KERNBASE] at hn
    have hlt : n * 2 ^ 22 < KERNBASE := by
      rw [KERNBASE_eq]
      omega
    have hpdx : PDX (n * 2 ^ 22) = n := by
      unfold PDX
      omega
    have hnext : (PDX (n * 2 ^ 22) + 1) * 2 ^ 22 % 2 ^ 32 = (n + 1) * 2 ^ 22 := by
      rw [hpdx]
      omega
    rw [deallocLoop, if_pos hlt, hpdx, habs n (by rw [PDX_KERNBASE]; omega)]
    dsimp only
    rw [← hpdx, hnext]
    exact deallocLoop_absent habs k (n + 1) fuel (by rw [PDX_KERNBASE]; omega) (by omega)

theorem deallocuvm_absent {m : Mem} {pd : Nat} (habs : ∀ i < PDX KERNBASE, m.pde pd i = none) :
    deallocuvm m pd KERNBASE 0 = .ok m := by
  have hfuel : PDX KERNBASE ≤ (KERNBASE - PGROUNDUP 0) / PGSIZE + 1 := by
    rw [PDX_KERNBASE, KERNBASE_eq]
    unfold PGROUNDUP PGSIZE
    omega
  have h := deallocLoop_absent habs (PDX KERNBASE) 0 _ (by omega) hfuel
  rw [Nat.zero_mul] at h
  rw [deallocuvm, if_neg (by rw [KERNBASE_eq]; omega)]
  exact h

/-- `kfree` of a list of pages, in order, pushes them onto the free list. -/
theorem foldl_kfree (m : Mem) : ∀ L : List Nat, L.foldl kfree m = { m with free := L.reverse ++ m.free }
  | [] => rfl
  | v :: L => by
    rw [List.foldl_cons, foldl_kfree _ L]
    simp [kfree]

theorem freeTables_eq (m : Mem) (pd : Nat) :
    freeTables m pd = { m with free := ((List.range NPDENTRIES).filterMap (m.pde pd)).reverse ++ m.free } :=
  foldl_kfree m _

/-- An address space is what its directory and its user page tables say. -/
theorem pagesOf_congr {m m' : Mem} {pd : Nat} (hpde : m'.pde pd = m.pde pd)
    (hpte : ∀ t ∈ m.userTables pd, m'.pte t = m.pte t) : m'.pagesOf pd = m.pagesOf pd := by
  have htables : m'.userTables pd = m.userTables pd := by
    rw [Mem.userTables, Mem.userTables, hpde]
  have hflat : ((m.userTables pd).flatMap fun pt => (List.range NPTENTRIES).filterMap (m'.pte pt)) =
      (m.userTables pd).flatMap fun pt => (List.range NPTENTRIES).filterMap (m.pte pt) :=
    List.flatMap_congr fun t ht => by rw [hpte t ht]
  simp only [Mem.pagesOf, hpde, htables, hflat]

theorem mem_pagesOf_self (m : Mem) (pd : Nat) : pd ∈ m.pagesOf pd := List.mem_cons_self

theorem mem_pagesOf_of_pde {m : Mem} {pd i t : Nat} (hi : i < NPDENTRIES) (h : m.pde pd i = some t) :
    t ∈ m.pagesOf pd :=
  List.mem_cons_of_mem _ (List.mem_append_left _ (List.mem_filterMap.mpr ⟨i, List.mem_range.mpr hi, h⟩))

theorem mem_pagesOf_of_userTables {m : Mem} {pd t : Nat} (h : t ∈ m.userTables pd) : t ∈ m.pagesOf pd := by
  obtain ⟨i, hi, hpde⟩ := List.mem_filterMap.mp h
  exact mem_pagesOf_of_pde (by rw [List.mem_range] at hi; unfold NPDENTRIES; rw [PDX_KERNBASE] at hi; omega) hpde

/-- `copyuvm` of an address space that maps address 0, with the free list holding the new
directory, its kernel page tables and one page more: the copy of page 0 is taken, its page
table cannot be, and `bad:` frees the directory and its tables. The free list is left with
those pages only, and no other directory and no table outside them is changed. -/
theorem copyuvm_bad {m : Mem} {pgdir sz pt pa d mem : Nat} {G : List Nat}
    (hfree : m.free = d :: (G ++ [mem])) (hG : G.length = kernelPdes.length) (hd : d ≠ 0)
    (hpgdir : pgdir ≠ d) (hpt : pt ∉ G) (hsz : 0 < sz) (hpde : m.pde pgdir 0 = some pt)
    (hpte : m.pte pt 0 = some pa) :
    ∃ m', copyuvm m pgdir sz = .ok (0, m') ∧ (∀ p ∈ m'.free, p = d ∨ p ∈ G) ∧
      m'.pde pgdir = m.pde pgdir ∧ ∀ t, t ∉ G → m'.pte t = m.pte t := by
  obtain ⟨m₃, hsetup, hfree₃, hpd₃, hup₃, hfrom₃, hpte₃⟩ := setupkvm_ok hfree (by simp [hG])
  have htake : (G ++ [mem]).take kernelPdes.length = G := by
    rw [← hG, List.take_left]
  have hdrop : (G ++ [mem]).drop kernelPdes.length = [mem] := by
    rw [← hG, List.drop_left]
  rw [htake] at hfrom₃ hpte₃
  rw [hdrop] at hfree₃
  -- the parent's first page is still mapped, and the child has no page table for address 0
  have hwalk : walkpgdir m₃ pgdir 0 false = some (pt, m₃) := by
    simp [walkpgdir, PDX, hpd₃ pgdir hpgdir, hpde]
  have hpte₀ : m₃.pte pt (PTX 0) = some pa := by
    rw [hpte₃ pt hpt]
    exact hpte
  set m₄ : Mem := { m₃ with free := [] } with hm₄
  have hnone : m₄.pde d 0 = none :=
    hup₃ 0 fun h => absurd (le_of_mem_kernelPdes 0 h) (by rw [PDX_KERNBASE]; omega)
  have hmap := @mappages_first_fails m₄ d mem hnone rfl
  have hloop : copyuvmLoop pgdir d sz (sz / PGSIZE + 1) m₃ 0 = .ok (false, m₄) := by
    rw [copyuvmLoop, if_pos hsz, hwalk]
    simp only [hpte₀, kalloc_cons hfree₃]
    rw [← hm₄, hmap]
    rfl
  -- `bad:` frees the child's directory: no user pages, then its kernel page tables
  have huser : ∀ i < PDX KERNBASE, m₄.pde d i = none := fun i hi =>
    hup₃ i fun h => absurd (le_of_mem_kernelPdes i h) (by omega)
  have hfreevm : freevm m₄ d = .ok (kfree (freeTables m₄ d) d) := by
    rw [freevm, if_neg hd, deallocuvm_absent huser]
    rfl
  refine ⟨kfree (freeTables m₄ d) d, ?_, fun p hp => ?_, ?_, fun t ht => ?_⟩
  · simp only [copyuvm, hsetup, bind, Except.bind, hloop, hfreevm]
    rfl
  · rw [kfree_free, freeTables_eq] at hp
    simp only [hm₄, List.append_nil, List.mem_cons, List.mem_reverse, List.mem_filterMap,
      List.mem_range] at hp
    rcases hp with rfl | ⟨i, -, hi⟩
    · exact .inl rfl
    · exact .inr (hfrom₃ i p hi)
  · rw [kfree_pde, freeTables_eq]
    exact hpd₃ pgdir hpgdir
  · rw [kfree_pte, freeTables_eq]
    exact hpte₃ t ht

/-- `fork` of a process whose address space maps address 0, when the free list holds exactly
the child's kernel stack, its directory and kernel page tables, and one page more, none of
them in the caller's address space: `copyuvm` takes the last page for the copy of page 0 and
goes to `bad:` when it cannot take a page table for it. `fork` returns -1, and that page is
neither free nor in the caller's address space. -/
theorem copyuvm_leaks_page {m : Mem} {pgdir sz pt pa : Nat} (hnodup : m.free.Nodup)
    (hzero : 0 ∉ m.free) (hlen : m.free.length = kernelPdes.length + 3)
    (hdisj : ∀ p ∈ m.free, p ∉ m.pagesOf pgdir) (hsz : 0 < sz) (hpde : m.pde pgdir 0 = some pt)
    (hpte : m.pte pt 0 = some pa) :
    ∃ m', forkMem m pgdir sz = .ok (none, m') ∧ ∃ mem ∈ m.free, mem ∉ m'.free ∧ mem ∉ m'.pagesOf pgdir := by
  -- the free list is the kernel stack, the directory, its kernel page tables, and one page
  obtain ⟨kstack, d, rest, hfree⟩ : ∃ kstack d rest, m.free = kstack :: d :: rest := by
    match h : m.free, hlen with
    | kstack :: d :: rest, _ => exact ⟨kstack, d, rest, rfl⟩
  have hrest : rest ≠ [] := by
    rintro rfl
    rw [hfree] at hlen
    simp [kernelPdes_length] at hlen
  obtain ⟨G, mem, rfl⟩ : ∃ G mem, rest = G ++ [mem] :=
    ⟨rest.dropLast, rest.getLast hrest, (List.dropLast_append_getLast hrest).symm⟩
  have hG : G.length = kernelPdes.length := by
    rw [hfree] at hlen
    simp only [List.length_cons, List.length_append, List.length_nil] at hlen
    omega
  rw [hfree] at hnodup hzero hdisj
  simp only [List.nodup_cons, List.mem_cons, List.mem_append, not_or] at hnodup
  obtain ⟨⟨hks_d, hks_G, hks_mem⟩, ⟨hd_G, hd_mem⟩, hGnodup⟩ := hnodup
  have hmem_G : mem ∉ G := by
    intro h
    exact (List.nodup_append.mp hGnodup).2.2 mem h mem (List.mem_singleton_self mem) rfl
  -- the caller's directory and page table are not free
  have hpgdir : pgdir ≠ d := fun h => hdisj d (by simp) (h ▸ mem_pagesOf_self m pgdir)
  have hpt : pt ∉ G := fun h => hdisj pt (by simp [h]) (mem_pagesOf_of_pde (by decide) hpde)
  have hd : d ≠ 0 := fun h => hzero (by simp [h])
  obtain ⟨m₅, hcopy, hfree₅, hpde₅, hpte₅⟩ :=
    @copyuvm_bad { m with free := d :: (G ++ [mem]) } pgdir sz pt pa d mem G rfl hG hd hpgdir hpt hsz
      hpde hpte
  refine ⟨kfree m₅ kstack, ?_, mem, by rw [hfree]; simp, ?_, ?_⟩
  · simp only [forkMem, kalloc_cons hfree, bind, Except.bind, hcopy]
    rfl
  · -- the free list after `fork` is the kernel stack, the directory and its tables
    intro hin
    rw [kfree_free, List.mem_cons] at hin
    rcases hin with h | h
    · exact hks_mem.1 h.symm
    · rcases hfree₅ mem h with h' | h'
      · exact hd_mem.1 h'.symm
      · exact hmem_G h'
  · -- the caller's address space is as it was, and `mem` was free in it
    have hsame : (kfree m₅ kstack).pagesOf pgdir = m.pagesOf pgdir := by
      refine pagesOf_congr hpde₅ fun t ht => hpte₅ t fun htG => ?_
      exact hdisj t (by simp [htG]) (mem_pagesOf_of_userTables ht)
    rw [hsame]
    exact hdisj mem (by simp)

/-- Pages `1 .. 67` free, and a caller whose directory `100` maps page `102` at address 0
through the page table `101`. -/
def forkLeakMem : Mem :=
  ⟨List.range' 1 67, fun pd i => if pd = 100 ∧ i = 0 then some 101 else none,
    fun pt j => if pt = 101 ∧ j = 0 then some 102 else none⟩

theorem copyuvm_leaks_page_small :
    ∃ m', forkMem forkLeakMem 100 PGSIZE = .ok (none, m') ∧
      ∃ mem ∈ forkLeakMem.free, mem ∉ m'.free ∧ mem ∉ m'.pagesOf 100 :=
  copyuvm_leaks_page (by decide) (by decide) (by decide) (by decide +kernel) (by decide) rfl rfl

end Xv6.Vm
