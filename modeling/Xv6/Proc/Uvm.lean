import Xv6.Proc.Vm
import Mathlib.Algebra.Group.Int.Defs

/-!
# Growing and shrinking a user address space

`allocuvm(pgdir, oldsz, newsz)` maps a fresh page at each page boundary of `[oldsz, newsz)`.
When a page or a page table cannot be had, it gives back what it mapped with
`deallocuvm(pgdir, newsz, oldsz)`. `growproc(n)` moves the calling process's break by `n`
through `allocuvm` or `deallocuvm`, and `sys_sbrk` returns the old break.

Sizes are `uint`s and `n` is an `int`, so `sz + n` is taken modulo 2^32. Together with
`deallocuvm` returning its `newsz`, this gives two cases (`growproc_breaks`). `sbrk(-sz)` frees
every page and then reads the 0 that `deallocuvm` returns as a failure. An `n` below `-sz` wraps
to a size above `sz`, so `deallocuvm` frees nothing and `growproc` reports success.

`deallocuvm`'s loop is proved correct on the way. From a page-aligned start below `KERNBASE`,
given enough passes, it ends (`deallocLoop_ok`) and leaves no address of its range mapped
(`deallocLoop_unmaps`).
-/

namespace Xv6.Vm

/-- The page `va` is mapped to through directory `pd`; `none` when its page table or its page
entry is absent. -/
def Mem.translate (m : Mem) (pd va : Nat) : Option Nat :=
  (m.pde pd (PDX va)).bind fun pt => m.pte pt (PTX va)

/-- What `deallocuvm(pgdir, oldsz, newsz)` returns. -/
def deallocuvmRet (oldsz newsz : Nat) : Nat := if newsz ≥ oldsz then oldsz else newsz

/-- `allocuvm`'s loop from `a` below `newsz`, with `k` passes left: a page from `kalloc` is mapped
at `a` with `mappages`. When either fails, `deallocuvm(pgdir, newsz, oldsz)` runs and the result
is 0; after a failed `mappages`, `kfree(mem)` runs as well. -/
def allocuvmLoop (pgdir oldsz newsz : Nat) : Nat → Mem → Nat → Except String (Nat × Mem)
  | 0, m, a => if a < newsz then .error "allocuvm: fuel" else .ok (newsz, m)
  | k + 1, m, a =>
    if a < newsz then
      match kalloc m with
      | none => (deallocuvm m pgdir newsz oldsz).map fun m => (0, m)
      | some (mem, m) => do
        let (r, m) ← mappages m pgdir a PGSIZE mem
        if r < 0 then (deallocuvm m pgdir newsz oldsz).map fun m => (0, kfree m mem)
        else allocuvmLoop pgdir oldsz newsz k m (a + PGSIZE)
    else .ok (newsz, m)

/-- `allocuvm(pgdir, oldsz, newsz)`: the new size, or 0. -/
def allocuvm (m : Mem) (pgdir oldsz newsz : Nat) : Except String (Nat × Mem) :=
  if newsz ≥ KERNBASE then .ok (0, m)
  else if newsz < oldsz then .ok (oldsz, m)
  else allocuvmLoop pgdir oldsz newsz ((newsz - PGROUNDUP oldsz) / PGSIZE + 1) m (PGROUNDUP oldsz)

/-- `sz + n` for a `uint sz` and an `int n`: `n` is converted to `uint` and the sum is taken
modulo 2^32. -/
def uintAdd (sz : Nat) (n : Int) : Nat := ((sz + n) % 2 ^ 32).toNat

/-- `growproc(n)` for a process of size `sz` with directory `pgdir`: 0 and the size it sets, or
-1 and the size as it was. -/
def growproc (m : Mem) (pgdir sz : Nat) (n : Int) : Except String (Int × Nat × Mem) :=
  if 0 < n then
    (allocuvm m pgdir sz (uintAdd sz n)).map fun (sz', m) =>
      if sz' = 0 then (-1, sz, m) else (0, sz', m)
  else if n < 0 then
    (deallocuvm m pgdir sz (uintAdd sz n)).map fun m =>
      if deallocuvmRet sz (uintAdd sz n) = 0 then (-1, sz, m)
      else (0, deallocuvmRet sz (uintAdd sz n), m)
  else .ok (0, sz, m)

/-- `sys_sbrk()` with argument `n`: the old break, or -1 when `growproc` fails. -/
def sysSbrk (m : Mem) (pgdir sz : Nat) (n : Int) : Except String (Int × Nat × Mem) :=
  (growproc m pgdir sz n).map fun (r, sz', m) => (if r < 0 then -1 else sz, sz', m)

/-! ### What `deallocuvm` does to a memory -/

/-- `deallocuvm` clears page entries and leaves every directory as it was. -/
structure Clears (m m' : Mem) : Prop where
  pde : m'.pde = m.pde
  pte : ∀ pt j, m'.pte pt j = m.pte pt j ∨ m'.pte pt j = none

theorem Clears.refl (m : Mem) : Clears m m := ⟨rfl, fun _ _ => .inl rfl⟩

theorem Clears.trans {m₁ m₂ m₃ : Mem} (h₁ : Clears m₁ m₂) (h₂ : Clears m₂ m₃) : Clears m₁ m₃ where
  pde := h₂.pde.trans h₁.pde
  pte pt j := by
    rcases h₂.pte pt j with h | h
    · rw [h]
      exact h₁.pte pt j
    · exact .inr h

/-- A pass that frees a page. -/
theorem clears_free (m : Mem) (pa pt j : Nat) : Clears m ((kfree m pa).setPte pt j none) where
  pde := rfl
  pte pt' j' := by
    rw [setPte_pte]
    split_ifs
    · exact .inr rfl
    · exact .inl rfl

theorem Clears.translate {m m' : Mem} (h : Clears m m') (pd va : Nat) :
    m'.translate pd va = m.translate pd va ∨ m'.translate pd va = none := by
  unfold Mem.translate
  rw [h.pde]
  cases m.pde pd (PDX va) with
  | none => exact .inl rfl
  | some pt => exact h.pte pt (PTX va)

theorem Clears.translate_eq_none {m m' : Mem} (h : Clears m m') {pd va : Nat}
    (hnone : m.translate pd va = none) : m'.translate pd va = none := by
  rcases h.translate pd va with h' | h'
  · rw [h', hnone]
  · exact h'

theorem deallocLoop_clears {pd oldsz : Nat} :
    ∀ {fuel : Nat} {m : Mem} {a : Nat} {m' : Mem}, deallocLoop pd oldsz fuel m a = .ok m' → Clears m m'
  | 0, m, a, m', h => by
    rw [deallocLoop] at h
    split_ifs at h
    cases h
    exact Clears.refl m
  | fuel + 1, m, a, m', h => by
    rw [deallocLoop] at h
    split_ifs at h with hlt
    · split at h
      · exact deallocLoop_clears h
      · split at h
        · split_ifs at h
          exact (clears_free m _ _ _).trans (deallocLoop_clears h)
        · exact deallocLoop_clears h
    · cases h
      exact Clears.refl m

/-! ### Pages and directory entries -/

/-- Addresses in one page have one directory index and one table index. -/
theorem translate_of_div_eq (m : Mem) (pd : Nat) {va a : Nat} (h : va / PGSIZE = a / PGSIZE) :
    m.translate pd va = m.translate pd a := by
  have hpdx : PDX va = PDX a := by
    unfold PDX PGSIZE at *
    omega
  have hptx : PTX va = PTX a := by
    unfold PTX PGSIZE at *
    omega
  rw [Mem.translate, Mem.translate, hpdx, hptx]

/-- After an absent directory entry the loop goes on at the next entry's first address. The
addresses in between share the absent entry. -/
theorem PDX_of_lt_next {a va : Nat} (ha : a ≤ va) (hva : va < (PDX a + 1) * 2 ^ 22)
    (hlt : va < 2 ^ 32) : PDX va = PDX a := by
  unfold PDX at *
  omega

/-- Below `KERNBASE`, the next directory entry's first address is page-aligned, at least a page
on, and does not wrap. -/
theorem next_pde_addr {a : Nat} (ha : a % PGSIZE = 0) (hlt : a < KERNBASE) :
    (PDX a + 1) * 2 ^ 22 % 2 ^ 32 = (PDX a + 1) * 2 ^ 22 ∧ a + PGSIZE ≤ (PDX a + 1) * 2 ^ 22 ∧
      (PDX a + 1) * 2 ^ 22 % PGSIZE = 0 := by
  unfold PDX PGSIZE KERNBASE at *
  omega

theorem translate_of_pde_none {m : Mem} {pd va : Nat} (h : m.pde pd (PDX va) = none) :
    m.translate pd va = none := by
  simp [Mem.translate, h]

/-! ### `deallocuvm`'s loop -/

/-- Whatever `deallocuvm`'s loop returns, no address of `[a, oldsz)` is mapped in it. The
induction follows the loop. A pass that finds no page table covers the addresses up to the
next directory entry, and every other pass covers the page at `a`. -/
theorem deallocLoop_unmaps {pd oldsz : Nat} (hold : oldsz ≤ 2 ^ 32) :
    ∀ (fuel : Nat) (m : Mem) (a : Nat) {m' : Mem}, a % PGSIZE = 0 →
      deallocLoop pd oldsz fuel m a = .ok m' → ∀ va, a ≤ va → va < oldsz → m'.translate pd va = none
  | 0, m, a, m', _, h, va, hav, hva => by
    rw [deallocLoop] at h
    split_ifs at h with hlt
    omega
  | fuel + 1, m, a, m', ha, h, va, hav, hva => by
    rw [deallocLoop] at h
    split_ifs at h with hlt
    · cases hpde : m.pde pd (PDX a) with
      | none =>
        simp only [hpde] at h
        by_cases hnext : (PDX a + 1) * 2 ^ 22 % 2 ^ 32 ≤ va
        · exact deallocLoop_unmaps hold fuel m _ (by unfold PGSIZE; omega) h va hnext hva
        · -- `va` shares `a`'s absent directory entry
          have hsame : PDX va = PDX a := PDX_of_lt_next hav (by omega) (by omega)
          exact (deallocLoop_clears h).translate_eq_none (translate_of_pde_none (hsame ▸ hpde))
      | some pt =>
        simp only [hpde] at h
        by_cases hpage : a + PGSIZE ≤ va
        · -- the later pages are the rest of the loop's
          have hrest : ∀ m₁, deallocLoop pd oldsz fuel m₁ (a + PGSIZE) = .ok m' →
              m'.translate pd va = none := fun m₁ h₁ =>
            deallocLoop_unmaps hold fuel m₁ (a + PGSIZE) (by unfold PGSIZE at *; omega) h₁ va hpage hva
          split at h
          · split_ifs at h
            exact hrest _ h
          · exact hrest _ h
        · -- `va` is in the page at `a`, whose entry this pass clears or finds clear
          have hva_a : va / PGSIZE = a / PGSIZE := by
            unfold PGSIZE at *
            omega
          rw [translate_of_div_eq m' pd hva_a]
          split at h
          · rename_i pa hpte
            split_ifs at h
            refine (deallocLoop_clears h).translate_eq_none ?_
            simp [Mem.translate, hpde, setPte_pte]
          · rename_i hpte
            exact (deallocLoop_clears h).translate_eq_none (by simp [Mem.translate, hpde, hpte])
    · omega

/-- `deallocuvm`'s loop ends from any page-aligned start below `KERNBASE`, given a pass for each
page of the range and no page entry that maps physical page 0 (which would panic in `kfree`). -/
theorem deallocLoop_ok {pd oldsz : Nat} (hold : oldsz ≤ KERNBASE) :
    ∀ (fuel : Nat) (m : Mem) (a : Nat), a % PGSIZE = 0 → oldsz ≤ a + fuel * PGSIZE →
      (∀ va, a ≤ va → va < oldsz → m.translate pd va ≠ some 0) →
      ∃ m', deallocLoop pd oldsz fuel m a = .ok m'
  | 0, m, a, _, hfuel, _ => ⟨m, by rw [deallocLoop, if_neg (by omega)]⟩
  | fuel + 1, m, a, ha, hfuel, hzero => by
    by_cases hlt : a < oldsz
    · obtain ⟨hwrap, hstep, haligned⟩ := next_pde_addr ha (by omega)
      cases hpde : m.pde pd (PDX a) with
      | none =>
        -- skip to the next directory entry, at least a page on
        obtain ⟨m', h⟩ := deallocLoop_ok hold fuel m _ (hwrap ▸ haligned)
          (by rw [hwrap]; rw [Nat.add_mul] at hfuel; omega)
          (fun va hav hva => hzero va (by omega) hva)
        exact ⟨m', by simp only [deallocLoop, if_pos hlt, hpde]; exact h⟩
      | some pt =>
        have hnext : oldsz ≤ a + PGSIZE + fuel * PGSIZE := by
          rw [Nat.add_mul] at hfuel
          omega
        cases hpte : m.pte pt (PTX a) with
        | none =>
          obtain ⟨m', h⟩ := deallocLoop_ok hold fuel m (a + PGSIZE) (by unfold PGSIZE at *; omega)
            hnext (fun va hav hva => hzero va (by omega) hva)
          exact ⟨m', by simp only [deallocLoop, if_pos hlt, hpde, hpte]; exact h⟩
        | some pa =>
          -- the page is freed and its entry cleared; no page left in range maps 0
          have hpa : pa ≠ 0 := by
            rintro rfl
            exact hzero a (Nat.le_refl a) hlt (by simp [Mem.translate, hpde, hpte])
          have hclears := clears_free m pa pt (PTX a)
          obtain ⟨m', h⟩ := deallocLoop_ok hold fuel _ (a + PGSIZE) (by unfold PGSIZE at *; omega)
            hnext fun va hav hva heq => by
              rcases hclears.translate pd va with h' | h'
              · exact hzero va (by omega) hva (h' ▸ heq)
              · rw [h'] at heq
                cases heq
          exact ⟨m', by simp only [deallocLoop, if_pos hlt, hpde, hpte, if_neg hpa]; exact h⟩
    · exact ⟨m, by rw [deallocLoop, if_neg hlt]⟩

/-- `deallocuvm(pgdir, oldsz, newsz)` below `KERNBASE` with no page mapping physical page 0:
it ends, and no address of `[PGROUNDUP(newsz), oldsz)` is mapped afterwards. -/
theorem deallocuvm_unmaps {m : Mem} {pd oldsz newsz : Nat} (hold : oldsz ≤ KERNBASE)
    (hlt : newsz < oldsz) (hzero : ∀ va, PGROUNDUP newsz ≤ va → va < oldsz → m.translate pd va ≠ some 0) :
    ∃ m', deallocuvm m pd oldsz newsz = .ok m' ∧
      ∀ va, PGROUNDUP newsz ≤ va → va < oldsz → m'.translate pd va = none := by
  have haligned : PGROUNDUP newsz % PGSIZE = 0 := by
    unfold PGROUNDUP
    exact Nat.mul_mod_left _ _
  obtain ⟨m', h⟩ := deallocLoop_ok hold ((oldsz - PGROUNDUP newsz) / PGSIZE + 1) m (PGROUNDUP newsz)
    haligned (by unfold PGSIZE at *; omega) hzero
  have hdealloc : deallocuvm m pd oldsz newsz = .ok m' := by
    rw [deallocuvm, if_neg (by omega)]
    exact h
  exact ⟨m', hdealloc, deallocLoop_unmaps (by unfold KERNBASE at hold; omega) _ m _ haligned h⟩

/-! ### `growproc` -/

/-- `sbrk(-sz)` of a process whose pages below `sz` are all mapped: `deallocuvm` unmaps every
one of them and returns 0, which `growproc` takes for a failure. It returns -1 and keeps the
size. -/
theorem growproc_neg_size {m : Mem} {pgdir sz : Nat} (hsz : 0 < sz) (hkern : sz < KERNBASE)
    (hcover : ∀ va < sz, ∃ pa, m.translate pgdir va = some pa ∧ pa ≠ 0) :
    ∃ m', growproc m pgdir sz (-sz) = .ok (-1, sz, m') ∧ ∀ va < sz, m'.translate pgdir va = none := by
  have hzero_sz : uintAdd sz (-sz) = 0 := by
    unfold uintAdd
    omega
  have hround : PGROUNDUP 0 = 0 := rfl
  obtain ⟨m', hdealloc, hunmap⟩ := @deallocuvm_unmaps m pgdir sz 0 (Nat.le_of_lt hkern) hsz fun va _ hva heq => by
    obtain ⟨pa, hpa, hne⟩ := hcover va hva
    rw [hpa] at heq
    exact hne (Option.some.inj heq)
  refine ⟨m', ?_, fun va hva => hunmap va (by rw [hround]; omega) hva⟩
  have hret : deallocuvmRet sz 0 = 0 := by
    unfold deallocuvmRet
    rw [if_neg (by omega)]
  have hpos : ¬ (0 : Int) < -sz := by omega
  have hneg : -(sz : Int) < 0 := by omega
  rw [growproc, if_neg hpos, if_pos hneg, hzero_sz, hdealloc, hret]
  rfl

/-- `sbrk(n)` with `n` below `-sz`: `sz + n` wraps to a size above `sz`, `deallocuvm` has nothing
to free and returns `sz`, and `growproc` reports success without changing anything. -/
theorem growproc_below_zero {m : Mem} {pgdir sz : Nat} (hsz : 0 < sz) (hkern : sz < KERNBASE)
    {n : Int} (hmin : -2 ^ 31 ≤ n) (hn : n < -sz) :
    growproc m pgdir sz n = .ok (0, sz, m) := by
  have hwrap : sz ≤ uintAdd sz n := by
    unfold uintAdd
    unfold KERNBASE at hkern
    omega
  have hdealloc : deallocuvm m pgdir sz (uintAdd sz n) = .ok m := by
    rw [deallocuvm, if_pos hwrap]
  have hret : deallocuvmRet sz (uintAdd sz n) = sz := by
    rw [deallocuvmRet, if_pos hwrap]
  have hpos : ¬ 0 < n := by omega
  have hneg : n < 0 := by omega
  rw [growproc, if_neg hpos, if_pos hneg, hdealloc, hret]
  simp [Except.map, Nat.pos_iff_ne_zero.mp hsz]

theorem growproc_breaks {m : Mem} {pgdir sz : Nat} (hsz : 0 < sz) (hkern : sz < KERNBASE)
    (hcover : ∀ va < sz, ∃ pa, m.translate pgdir va = some pa ∧ pa ≠ 0) :
    (∃ m', growproc m pgdir sz (-sz) = .ok (-1, sz, m') ∧ ∀ va < sz, m'.translate pgdir va = none) ∧
      ∀ n : Int, -2 ^ 31 ≤ n → n < -sz → growproc m pgdir sz n = .ok (0, sz, m) :=
  ⟨growproc_neg_size hsz hkern hcover, fun _ hmin hn => growproc_below_zero hsz hkern hmin hn⟩

/-- A process of one page: directory 1 maps address 0 to page 3 through the page table 2. -/
def onePageMem : Mem :=
  ⟨[], fun pd i => if pd = 1 ∧ i = 0 then some 2 else none,
    fun pt j => if pt = 2 ∧ j = 0 then some 3 else none⟩

theorem growproc_breaks_onePage :
    (∀ va < PGSIZE, ∃ pa, onePageMem.translate 1 va = some pa ∧ pa ≠ 0) ∧
      (∃ m', growproc onePageMem 1 PGSIZE (-PGSIZE) = .ok (-1, PGSIZE, m') ∧
        ∀ va < PGSIZE, m'.translate 1 va = none) ∧
      ∀ n : Int, -2 ^ 31 ≤ n → n < -PGSIZE → growproc onePageMem 1 PGSIZE n = .ok (0, PGSIZE, onePageMem) := by
  have hcover : ∀ va < PGSIZE, ∃ pa, onePageMem.translate 1 va = some pa ∧ pa ≠ 0 := by
    intro va hva
    have hpdx : PDX va = 0 := by
      unfold PDX PGSIZE at *
      omega
    have hptx : PTX va = 0 := by
      unfold PTX PGSIZE at *
      omega
    exact ⟨3, by simp [Mem.translate, onePageMem, hpdx, hptx], by decide⟩
  exact ⟨hcover, growproc_breaks (by decide) (by decide) hcover⟩

/-! ### `copyuvm`'s failure path -/

/-- `copyuvm` of an address space that maps address 0, with the free list holding exactly the new
directory, its kernel page tables and one page more. The last page is taken for the copy of page
0, no page is left for its page table, and `bad:` frees the directory and its tables but not the
copy: `copyuvm` returns 0, and the page it took is not free. -/
theorem copyuvm_fails_keeping_copy {m : Mem} {pgdir sz pt pa d mem : Nat} {G : List Nat}
    (hfree : m.free = d :: (G ++ [mem])) (hnodup : m.free.Nodup) (hG : G.length = kernelPdes.length)
    (hd : d ≠ 0) (hpgdir : pgdir ≠ d) (hpt : pt ∉ G) (hsz : 0 < sz)
    (hpde : m.pde pgdir 0 = some pt) (hpte : m.pte pt 0 = some pa) :
    ∃ m', copyuvm m pgdir sz = .ok (0, m') ∧ mem ∉ m'.free := by
  obtain ⟨m', hcopy, hfree', -, -⟩ := copyuvm_bad hfree hG hd hpgdir hpt hsz hpde hpte
  refine ⟨m', hcopy, fun hin => ?_⟩
  rw [hfree] at hnodup
  simp only [List.nodup_cons, List.mem_append, List.mem_singleton, not_or] at hnodup
  obtain ⟨⟨-, hd_mem⟩, hGmem⟩ := hnodup
  rcases hfree' mem hin with h | h
  · exact hd_mem h.symm
  · exact (List.nodup_append.mp hGmem).2.2 mem h mem (List.mem_singleton_self mem) rfl

/-- Pages `1 .. 66` free, and a caller whose directory `100` maps page `102` at address 0 through
the page table `101`. -/
def copyLeakMem : Mem :=
  ⟨List.range' 1 66, fun pd i => if pd = 100 ∧ i = 0 then some 101 else none,
    fun pt j => if pt = 101 ∧ j = 0 then some 102 else none⟩

theorem copyuvm_fails_keeping_copy_small :
    ∃ m', copyuvm copyLeakMem 100 PGSIZE = .ok (0, m') ∧ 66 ∉ m'.free :=
  copyuvm_fails_keeping_copy (G := List.range' 2 64) rfl (by decide) (by decide) (by decide)
    (by decide) (by decide) (by decide) rfl rfl

end Xv6.Vm
