import Xv6.Proc.Mmu

/-!
# `setupkvm` over physical memory

`setupkvm` takes a page for the directory, clears it, and enters `kmap`'s four ranges with
`mappages`. When a `mappages` returns -1 it gives the pages back with `freevm`, and returns 0.

A directory that `setupkvm` returns is well formed (`setupkvm_pageDir`): the directory and
each table it enters are distinct pages of the kernel's writable memory, and no two entries
share a table. It maps no page below `KERNBASE`. `walkpgdir` (`PageDir.walkpgdir_alloc`) and
`mappages` (`PageDir.mappages`) keep a directory well formed. So every directory the kernel
builds is one that `mappages_refines` speaks of.

`kmap`'s ranges follow each other upwards, so each `mappages` call finds its pages unmapped.
The argument is an induction over the list (`PageDir.setupkvmLoop`): each entry's pages lie
below the next entry's start (`Kmap.Before`), and a `mappages` call leaves the pages of the
entries still to come as it found them.
-/

namespace Xv6.Mmu

open Xv6.Vm (PGSIZE NPDENTRIES KERNBASE PHYSTOP DEVSPACE PDX PTX PGROUNDUP PGROUNDDOWN)
open LittleEndian (read write)

/-- An entry of `kmap`: where the range starts in virtual memory, the physical range, and the
permission bits. -/
structure Kmap where
  virt : Nat
  physStart : Nat
  physEnd : Nat
  perm : Nat

/-- `kmap[]`, with the linker's `data`: the I/O space, the kernel's text and read-only data, its
data and the free memory, and the devices at the top. -/
def kmap (data : Nat) : List Kmap :=
  [⟨KERNBASE, 0, EXTMEM, PTE_W⟩, ⟨KERNLINK, V2P KERNLINK, V2P data, 0⟩,
    ⟨data, V2P data, PHYSTOP, PTE_W⟩, ⟨DEVSPACE, DEVSPACE, 0, PTE_W⟩]

/-- `k->phys_end - k->phys_start` in 32-bit arithmetic: the end of the devices' entry is 0. -/
def Kmap.size (k : Kmap) : Nat := (k.physEnd + 2 ^ 32 - k.physStart) % 2 ^ 32

/-- `kfree(v)`: the alignment and `PHYSTOP` tests, `memset(v, 1, PGSIZE)` through the kernel's
map, and `v` pushed on the free list. -/
def kfree (s : Machine) (v : Nat) : Except String Machine :=
  if v % PGSIZE ≠ 0 ∨ PHYSTOP ≤ V2P v then .error "kfree"
  else match s.resolve true v with
    | some pa =>
      .ok { s with phys := fun a => if pa ≤ a ∧ a < pa + PGSIZE then 1 else s.phys a,
                   free := v :: s.free }
    | none => .error "trap"

/-- `deallocuvm`'s loop from `a` below `oldsz`: where `walkpgdir` finds no page table, `a` moves
to the next directory entry; a present page is freed and its entry cleared. -/
def deallocLoop (pgdir oldsz : Nat) : Nat → Machine → Nat → Except String Machine
  | 0, s, a => if a < oldsz then .error "deallocuvm: fuel" else .ok s
  | fuel + 1, s, a =>
    if a < oldsz then do
      let (pte, s) ← walkpgdir s pgdir a false
      if pte = 0 then deallocLoop pgdir oldsz fuel s ((PDX a + 1) * 2 ^ 22 % 2 ^ 32)
      else
        let e ← s.load32 pte
        if e &&& PTE_P ≠ 0 then
          if PTE_ADDR e = 0 then .error "kfree"
          else do
            let s ← kfree s (P2V (PTE_ADDR e))
            let s ← s.store32 pte 0
            deallocLoop pgdir oldsz fuel s ((a + PGSIZE) % 2 ^ 32)
        else deallocLoop pgdir oldsz fuel s ((a + PGSIZE) % 2 ^ 32)
    else .ok s

/-- `deallocuvm(pgdir, oldsz, newsz)`, one pass for each page at most. -/
def deallocuvm (s : Machine) (pgdir oldsz newsz : Nat) : Except String Machine :=
  if newsz ≥ oldsz then .ok s
  else deallocLoop pgdir oldsz ((oldsz - PGROUNDUP newsz) / PGSIZE + 1) s (PGROUNDUP newsz)

/-- `freevm`'s loop over the directory's entries: the page table of each present one is freed. -/
def freeTables (pgdir : Nat) : List Nat → Machine → Except String Machine
  | [], s => .ok s
  | i :: is, s => do
    let pde ← s.load32 (pgdir + 4 * i)
    if pde &&& PTE_P ≠ 0 then
      let s ← kfree s (P2V (PTE_ADDR pde))
      freeTables pgdir is s
    else freeTables pgdir is s

/-- `freevm(pgdir)`: the user pages, the page tables, then the directory. -/
def freevm (s : Machine) (pgdir : Nat) : Except String Machine :=
  if pgdir = 0 then .error "freevm: no pgdir"
  else do
    let s ← deallocuvm s pgdir KERNBASE 0
    let s ← freeTables pgdir (List.range NPDENTRIES) s
    kfree s pgdir

/-- `setupkvm`'s loop over `kmap`: `false` when a `mappages` returns -1. -/
def setupkvmLoop (pgdir : Nat) : List Kmap → Machine → Except String (Bool × Machine)
  | [], s => .ok (true, s)
  | k :: ks, s => do
    let (r, s) ← mappages s pgdir k.virt k.size k.physStart k.perm
    if r < 0 then pure (false, s) else setupkvmLoop pgdir ks s

/-- `setupkvm()`: the kernel address of the new directory, `none` for 0. -/
def setupkvm (s : Machine) : Except String (Option Nat × Machine) :=
  match kalloc s with
  | none => .ok (none, s)
  | some (pgdir, s) => do
    let s ← s.memset pgdir PGSIZE
    if DEVSPACE < P2V PHYSTOP then .error "PHYSTOP too high"
    else
      match ← setupkvmLoop pgdir (kmap s.data) s with
      | (true, s) => pure (some pgdir, s)
      | (false, s) => do
        let s ← freevm s pgdir
        pure (none, s)

/-! ### Pages of a range -/

/-- Two addresses of the 32-bit space are on one page when they have one page number. -/
theorem samePage_iff {v w : Nat} (hv : v < 2 ^ 32) (hw : w < 2 ^ 32) :
    SamePage v w ↔ v / PGSIZE = w / PGSIZE := by
  unfold SamePage PDX PTX PGSIZE
  omega

/-- An address below a page boundary is not on that page. -/
theorem not_samePage_of_lt {v p : Nat} (hp : p % PGSIZE = 0) (hp' : p < 2 ^ 32) (hv : v < p) :
    ¬ SamePage v p := by
  rw [samePage_iff (by omega) hp']
  unfold PGSIZE at *
  omega

/-- The pages `mappages` maps for a page-aligned range that does not wrap lie in the range, on
page boundaries. -/
theorem page_mem {va size i : Nat} (hva : va % PGSIZE = 0) (hsize : 0 < size)
    (htop : va + size ≤ 2 ^ 32) (hi : i < npages va size) :
    va ≤ page va i ∧ page va i < va + size ∧ page va i % PGSIZE = 0 := by
  unfold npages page PGROUNDDOWN PGSIZE at *
  omega

namespace Kmap

/-- An entry `mappages` can enter: a page-aligned range that does not wrap, a page-aligned
physical start, and permission bits below the page boundary. -/
structure Fits (k : Kmap) : Prop where
  virt : k.virt % PGSIZE = 0
  pos : 0 < k.size
  top : k.virt + k.size ≤ 2 ^ 32
  phys : k.physStart % PGSIZE = 0
  phys_lt : k.physStart < 2 ^ 32
  perm : k.perm < PGSIZE

/-- Entry `k` ends at or before entry `k'` starts. -/
def Before (k k' : Kmap) : Prop := k.virt + k.size ≤ k'.virt

/-- No page of a later entry is a page of an earlier one. -/
theorem Fits.not_samePage {k k' : Kmap} (hk : k.Fits) (hk' : k'.Fits) (hb : k.Before k')
    {i j : Nat} (hi : i < npages k.virt k.size) (hj : j < npages k'.virt k'.size) :
    ¬ SamePage (page k'.virt j) (page k.virt i) := by
  obtain ⟨-, hlt, -⟩ := page_mem hk.virt hk.pos hk.top hi
  obtain ⟨hle', hlt', hal'⟩ := page_mem hk'.virt hk'.pos hk'.top hj
  have htop := hk'.top
  unfold Before at hb
  exact fun hs => not_samePage_of_lt hal' (by omega) (by omega) hs.symm

end Kmap

/-- The kernel's layout as `kernel.ld` gives it: the text from `KERNLINK` is not empty, and
`data` is on a page boundary below the top of physical memory. -/
structure KernelText (data : Nat) : Prop where
  start : KERNLINK < data
  aligned : data % PGSIZE = 0
  below : data < KERNBASE + PHYSTOP

section Kmap

variable {data : Nat}

theorem KernelText.fits (ht : KernelText data) : ∀ k ∈ kmap data, k.Fits := by
  obtain ⟨h1, h2, h3⟩ := ht
  simp only [kmap, List.mem_cons, List.not_mem_nil, or_false]
  rintro k (rfl | rfl | rfl | rfl) <;> constructor <;>
    dsimp only [Kmap.size, V2P, KERNLINK, EXTMEM, PTE_W, PGSIZE, KERNBASE, PHYSTOP, DEVSPACE] at * <;>
    omega

theorem KernelText.before (ht : KernelText data) : (kmap data).Pairwise Kmap.Before := by
  obtain ⟨h1, h2, h3⟩ := ht
  simp only [kmap, List.pairwise_cons, List.mem_cons, List.not_mem_nil, or_false,
    forall_eq_or_imp, forall_eq, List.Pairwise.nil, and_true, false_implies, implies_true]
  dsimp only [Kmap.Before, Kmap.size, V2P, KERNLINK, EXTMEM, KERNBASE, PHYSTOP, DEVSPACE] at *
  omega

/-- Every page of `kmap` is in the kernel's half. -/
theorem KernelText.kernel (ht : KernelText data) :
    ∀ k ∈ kmap data, KERNBASE ≤ k.virt := by
  obtain ⟨h1, -, -⟩ := ht
  simp only [kmap, List.mem_cons, List.not_mem_nil, or_false]
  rintro k (rfl | rfl | rfl | rfl) <;> dsimp only [KERNLINK, EXTMEM, KERNBASE, DEVSPACE] at * <;> omega

/-- No page of `kmap` is in the user half. -/
theorem KernelText.user (ht : KernelText data) {va : Nat} (hva : va < KERNBASE) :
    ∀ k ∈ kmap data, ∀ i < npages k.virt k.size, ¬ SamePage va (page k.virt i) := by
  intro k hk i hi
  have hfits := ht.fits k hk
  obtain ⟨hle, hlt, hal⟩ := page_mem hfits.virt hfits.pos hfits.top hi
  have htop := hfits.top
  have hkern := ht.kernel k hk
  exact not_samePage_of_lt hal (by omega) (by omega)

end Kmap

/-! ### The new directory -/

/-- A free list as `kinit1` and `kinit2` leave it: distinct pages of the kernel's writable memory,
by kernel address. -/
structure FreePages (s : Machine) : Prop where
  page : ∀ f ∈ s.free, KERNBASE ≤ f ∧ Kpage s.data (f - KERNBASE)
  nodup : s.free.Nodup

section Fresh

variable {s : Machine} {f : Nat} {rest : List Nat}

/-- The head of the free list, taken and cleared: a directory with no entry. -/
theorem FreePages.cleared (hs : FreePages s) (hfree : s.free = f :: rest) :
    PageDir ({ s with free := rest }.withPhys (write s.phys (f - KERNBASE) PGSIZE 0)) f ∧
      ∀ va, ({ s with free := rest }.withPhys (write s.phys (f - KERNBASE) PGSIZE 0)).entry f va =
        none := by
  have hfmem : f ∈ s.free := by
    rw [hfree]
    exact List.mem_cons_self
  obtain ⟨hk, hpage⟩ := hs.page f hfmem
  have hnodup := hs.nodup
  rw [hfree, List.nodup_cons] at hnodup
  -- every entry of the cleared page reads 0, so none is present
  have hzero : ∀ i < NPDENTRIES,
      ({ s with free := rest }.withPhys (write s.phys (f - KERNBASE) PGSIZE 0)).pdeAt f i = 0 := by
    intro i hi
    rw [Machine.pdeAt, Machine.withPhys_phys, V2P_of_kpage hk hpage]
    unfold NPDENTRIES at hi
    exact LittleEndian.read_write_zero (by omega) (by unfold PGSIZE; omega)
  have habsent : ∀ i < NPDENTRIES,
      ¬ ({ s with free := rest }.withPhys (write s.phys (f - KERNBASE) PGSIZE 0)).pdeAt f i &&& PTE_P ≠ 0 := by
    intro i hi hp
    rw [hzero i hi, Nat.zero_and] at hp
    exact hp rfl
  refine ⟨⟨hk, ?_, fun i hi hp => absurd hp (habsent i hi),
    fun i hi _ _ hp => absurd hp (habsent i hi), fun f' hf' => ?_, hnodup.2⟩, fun va => ?_⟩
  · rw [Machine.withPhys_data]
    exact hpage
  · obtain ⟨hk', hpage'⟩ := hs.page f' (by rw [hfree]; exact List.mem_cons_of_mem _ hf')
    have hne : f' ≠ f := fun heq => hnodup.1 (heq ▸ hf')
    rw [Machine.withPhys_data]
    exact ⟨hk', hpage', hne, fun i hi hp => absurd hp (habsent i hi)⟩
  · unfold Machine.entry
    rw [hzero _ (PDX_lt va), Nat.zero_and, if_pos rfl]

end Fresh

/-- `setupkvm`'s loop over entries that fit and follow each other, on a well-formed directory
where none of their pages is mapped. When every `mappages` returns 0, the directory is still
well formed, and every page outside the entries is mapped as before. The induction is on the
entries; each `mappages` leaves the later entries' pages unmapped, since they lie past its
range (`Kmap.Fits.not_samePage`). -/
theorem PageDir.setupkvmLoop {pgdir : Nat} :
    ∀ (ks : List Kmap) (s s' : Machine), PageDir s pgdir → (∀ k ∈ ks, k.Fits) →
      ks.Pairwise Kmap.Before →
      (∀ k ∈ ks, ∀ i < npages k.virt k.size, s.entry pgdir (page k.virt i) = none) →
      Mmu.setupkvmLoop pgdir ks s = .ok (true, s') →
      PageDir s' pgdir ∧
        ∀ va, (∀ k ∈ ks, ∀ i < npages k.virt k.size, ¬ SamePage va (page k.virt i)) →
          s'.entry pgdir va = s.entry pgdir va
  | [], s, s', h, _, _, _, hloop => by
    rw [Mmu.setupkvmLoop] at hloop
    cases hloop
    exact ⟨h, fun _ _ => rfl⟩
  | k :: ks, s, s', h, hfits, hbefore, hnone, hloop => by
    have hk := hfits k List.mem_cons_self
    rw [List.pairwise_cons] at hbefore
    obtain ⟨r, s₁, hmap, hr, hspec⟩ := h.mappages (by have := hk.top; have := hk.pos; omega)
      hk.phys hk.phys_lt hk.perm (hnone k List.mem_cons_self)
    rw [Mmu.setupkvmLoop, hmap, Except.ok_bind] at hloop
    rcases hr with rfl | rfl
    · -- `mappages` returned 0: the rest of `kmap` on the directory it left
      obtain ⟨h₁, -, hframe⟩ := hspec rfl
      have hnone₁ : ∀ k' ∈ ks, ∀ j < npages k'.virt k'.size, s₁.entry pgdir (page k'.virt j) = none := by
        intro k' hk' j hj
        rw [hframe _ fun i hi => (hk.not_samePage (hfits k' (List.mem_cons_of_mem _ hk'))
          (hbefore.1 k' hk') hi hj)]
        exact hnone k' (List.mem_cons_of_mem _ hk') j hj
      obtain ⟨h', hframe'⟩ := PageDir.setupkvmLoop ks s₁ s' h₁
        (fun k' hk' => hfits k' (List.mem_cons_of_mem _ hk')) hbefore.2 hnone₁ hloop
      refine ⟨h', fun va hva => ?_⟩
      rw [hframe' va fun k' hk' => hva k' (List.mem_cons_of_mem _ hk'),
        hframe va (hva k List.mem_cons_self)]
    · -- -1: `setupkvm` gives up
      cases hloop

/-- A directory `setupkvm` returns, from a free list of distinct kernel pages and the kernel's
layout, is well formed and maps no page below `KERNBASE`. -/
theorem setupkvm_pageDir {s s' : Machine} {pgdir : Nat} (hs : FreePages s) (ht : KernelText s.data)
    (h : setupkvm s = .ok (some pgdir, s')) :
    PageDir s' pgdir ∧ ∀ va < KERNBASE, s'.entry pgdir va = none := by
  cases hfree : s.free with
  | nil =>
    -- no page for the directory: 0
    rw [setupkvm, kalloc, hfree] at h
    cases h
  | cons f rest =>
    obtain ⟨hk, hpage⟩ := hs.page f (by rw [hfree]; exact List.mem_cons_self)
    have hclear := Kpage.memset (s := { s with free := rest }) hpage
    rw [Nat.sub_add_cancel hk] at hclear
    obtain ⟨h₁, hnone₁⟩ := hs.cleared hfree
    -- the cleared directory, by name only: its memory is never unfolded
    generalize hs₁ : { s with free := rest }.withPhys (write s.phys (f - KERNBASE) PGSIZE 0) = s₁
      at hclear h₁ hnone₁
    have hdata : s₁.data = s.data := by
      rw [← hs₁, Machine.withPhys_data]
    have hphystop : ¬ DEVSPACE < P2V PHYSTOP := by decide
    rw [setupkvm, kalloc, hfree] at h
    dsimp only at h
    rw [hclear, Except.ok_bind, if_neg hphystop, hdata] at h
    -- the loop over `kmap`: on `false`, `freevm` and 0
    cases hloop : Mmu.setupkvmLoop f (kmap s.data) s₁ with
    | error e =>
      rw [hloop] at h
      cases h
    | ok res =>
      obtain ⟨ok, s₂⟩ := res
      rw [hloop, Except.ok_bind] at h
      cases ok with
      | false =>
        obtain ⟨_, -, hret⟩ := (Except.bind_eq_ok _ _ _).mp h
        cases hret
      | true =>
        cases h
        obtain ⟨h₂, hframe⟩ := PageDir.setupkvmLoop (kmap s.data) s₁ s' h₁ ht.fits ht.before
          (fun _ _ _ _ => hnone₁ _) hloop
        exact ⟨h₂, fun va hva => (hframe va (ht.user hva)).trans (hnone₁ va)⟩

end Xv6.Mmu
