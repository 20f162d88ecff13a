import Xv6.Proc.Table
import Xv6.Lib.Tally
import Mathlib.Data.Multiset.UnionInter

/-!
# The process tree and the pages of the process table

Two invariants of every run of the process table. `Tree`: `initproc` stays active, and every
other live process (one `fork` made `RUNNABLE` and `wait` has not reaped) has an active
parent, because `exit` hands the children to `initproc` in the same critical section in
which the parent becomes a `ZOMBIE`. `Owned`: the free list and the pages the slots hold
(kernel stacks, and the address spaces of live processes) are all different pages, so no
page is on the free list twice and `wait` frees each kernel stack and address space exactly
once.

Each step is classified once: most steps only reschedule (`Proc.Resched`), `allocproc`,
`fork`'s outcomes and `wait`'s reaping change one slot, and `exit` is the one step of its
own kind.
-/

namespace Xv6.Procs

open Finset

/-- The pages a slot holds: its kernel stack, and its address space while it is live. A
kernel stack of `0` is none. -/
def Proc.pages (pr : Proc) : Multiset Nat :=
  (if pr.kstack = 0 then 0 else {pr.kstack}) +
    if pr.state.live then (pr.pgdir : Multiset Nat) else 0

theorem Proc.Resched.trans {pr pr' pr'' : Proc} (h : pr.Resched pr') (h' : pr'.Resched pr'') :
    pr.Resched pr'' :=
  ⟨h'.parent.trans h.parent, h'.active.trans h.active, h'.live.trans h.live,
    h'.kstack.trans h.kstack, h'.pgdir.trans h.pgdir⟩

namespace Kernel

/-- The pages the process table holds. -/
def held (k : Kernel) : Multiset Nat := ∑ p, (k.proc p).pages

theorem resched_setProc (k : Kernel) {p : Fin NPROC} {pr : Proc} (h : (k.proc p).Resched pr)
    (q : Fin NPROC) : (k.proc q).Resched ((k.setProc p pr).proc q) := by
  by_cases hq : q = p
  · subst hq
    simpa using h
  · rw [setProc_proc_of_ne _ _ hq]
    exact .refl _

theorem resched_wakeup1 (k : Kernel) (ch : Chan) (q : Fin NPROC) :
    (k.proc q).Resched ((k.wakeup1 ch).proc q) :=
  resched_wake ch (k.proc q)

theorem resched_wakeParent (k : Kernel) (c q : Fin NPROC) :
    (k.proc q).Resched ((k.wakeParent c).proc q) := by
  unfold wakeParent
  split
  · exact k.resched_wakeup1 _ q
  · exact .refl _

theorem resched_reparent (k : Kernel) (c q : Fin NPROC) :
    (adopt c (k.proc q)).Resched ((k.reparent c).proc q) := by
  unfold reparent
  split
  · exact resched_wake _ _
  · exact .refl _

theorem resched_kill (k : Kernel) (pid : Int32) (q : Fin NPROC) :
    (k.proc q).Resched ((k.kill pid).2.proc q) := by
  unfold kill
  split
  · exact k.resched_setProc (Proc.resched_doKill _) q
  · exact .refl _

/-- A slot of the table after `exit`: every child of `c` is `initproc`'s, no page changes
hands, the exiting process is a zombie and every other slot keeps the kind of its state. -/
theorem exit_proc {k k' : Kernel} {c : Fin NPROC} (h : k.exit c = .ok k') (q : Fin NPROC) :
    (k'.proc q).parent = (adopt c (k.proc q)).parent ∧
    (k'.proc q).kstack = (k.proc q).kstack ∧ (k'.proc q).pgdir = (k.proc q).pgdir ∧
    (k'.proc c).state = .zombie ∧
    (q ≠ c → (k'.proc q).state.active = (k.proc q).state.active ∧
      (k'.proc q).state.live = (k.proc q).state.live) := by
  unfold exit at h
  split at h
  · cases h
  · cases h
    -- `q` in the table after `wakeParent`, `reparent` and `zombify` in turn
    have hw := k.resched_wakeParent c q
    have hr := (k.wakeParent c).resched_reparent c q
    have hz : ∀ q', q' ≠ c → (((k.wakeParent c).reparent c).zombify c).proc q' =
        ((k.wakeParent c).reparent c).proc q' := fun q' hq' => setProc_proc_of_ne _ _ hq'
    have hpar : (adopt c ((k.wakeParent c).proc q)).parent = (adopt c (k.proc q)).parent := by
      rw [adopt_parent, adopt_parent, hw.parent]
    have hks : (((k.wakeParent c).reparent c).proc q).kstack = (k.proc q).kstack :=
      hr.kstack.trans ((adopt_kstack c _).trans hw.kstack)
    have hpg : (((k.wakeParent c).reparent c).proc q).pgdir = (k.proc q).pgdir :=
      hr.pgdir.trans ((adopt_pgdir c _).trans hw.pgdir)
    refine ⟨?_, ?_, ?_, by simp [zombify], fun hq => ?_⟩
    · by_cases hq : q = c
      · subst hq
        rw [zombify, setProc_proc_self]
        exact hr.parent.trans hpar
      · rw [hz q hq]
        exact hr.parent.trans hpar
    · by_cases hq : q = c
      · subst hq
        rw [zombify, setProc_proc_self]
        exact hks
      · rw [hz q hq]
        exact hks
    · by_cases hq : q = c
      · subst hq
        rw [zombify, setProc_proc_self]
        exact hpg
      · rw [hz q hq]
        exact hpg
    · rw [hz q hq, hr.active, hr.live, adopt_state]
      exact ⟨hw.active, hw.live⟩

end Kernel

/-! ### The process tree -/

/-- Process-tree integrity: `initproc` is active, and every other live process has a parent,
which is active. -/
structure Tree (k : Kernel) : Prop where
  init_active : (k.proc initproc).state.active
  parent_active : ∀ p, p ≠ initproc → (k.proc p).state.live →
    ∃ q, (k.proc p).parent = some q ∧ (k.proc q).state.active

theorem tree_boot (b : Boot) : Tree (Kernel.boot b) where
  init_active := by simp [Kernel.boot]
  parent_active p hp hl := by simp [Kernel.boot, hp, Proc.unused] at hl

section Tree

variable {k k' : Kernel}

/-- Steps that only reschedule keep the tree. -/
theorem Tree.resched (ht : Tree k) (h : ∀ q, (k.proc q).Resched (k'.proc q)) : Tree k' where
  init_active := by
    rw [(h initproc).active]
    exact ht.init_active
  parent_active p hp hl := by
    rw [(h p).live] at hl
    obtain ⟨q, hq, ha⟩ := ht.parent_active p hp hl
    exact ⟨q, by rw [(h p).parent, hq], by rw [(h q).active]; exact ha⟩

/-- A step that changes one inactive slot keeps the tree if the slot, once live, has an
active parent. -/
theorem Tree.update (ht : Tree k) (p : Fin NPROC) (pr : Proc)
    (hproc : k'.proc = Function.update k.proc p pr) (hp : (k.proc p).state.active = false)
    (hpr : pr.state.live → ∃ c, pr.parent = some c ∧ (k.proc c).state.active) : Tree k' := by
  -- an active slot is not the one that changes
  have hne : ∀ q, (k.proc q).state.active → q ≠ p := by
    rintro q hq rfl
    rw [hp] at hq
    cases hq
  have hother : ∀ q, q ≠ p → k'.proc q = k.proc q := by
    intro q hq
    rw [hproc, Function.update_of_ne hq]
  refine ⟨?_, fun q hq hl => ?_⟩
  · rw [hother _ (hne _ ht.init_active)]
    exact ht.init_active
  · by_cases hqp : q = p
    · subst hqp
      rw [hproc, Function.update_self] at hl
      obtain ⟨c, hc, ha⟩ := hpr hl
      refine ⟨c, by rw [hproc, Function.update_self]; exact hc, ?_⟩
      rw [hother c (hne c ha)]
      exact ha
    · rw [hother q hqp] at hl ⊢
      obtain ⟨r, hr, ha⟩ := ht.parent_active q hq hl
      exact ⟨r, hr, by rw [hother r (hne r ha)]; exact ha⟩

theorem Tree.exit (ht : Tree k) {c : Fin NPROC} (hrun : (k.proc c).state = .running)
    (h : k.exit c = .ok k') : Tree k' := by
  have hc : c ≠ initproc := by
    rintro rfl
    simp [Kernel.exit] at h
  have hact : ∀ q, q ≠ c → (k'.proc q).state.active = (k.proc q).state.active :=
    fun q hq => ((Kernel.exit_proc h q).2.2.2.2 hq).1
  have hinit : (k'.proc initproc).state.active := by
    rw [hact _ hc.symm]
    exact ht.init_active
  refine ⟨hinit, fun q hq hl => ?_⟩
  -- `q` was live before: `c` was running, and every other slot kept the kind of its state
  have hl₀ : (k.proc q).state.live := by
    by_cases hqc : q = c
    · subst hqc
      rw [hrun]
      rfl
    · rw [← ((Kernel.exit_proc h q).2.2.2.2 hqc).2]
      exact hl
  obtain ⟨r, hr, ha⟩ := ht.parent_active q hq hl₀
  rw [(Kernel.exit_proc h q).1, adopt_parent, hr]
  -- the parent was `c` itself, whose children are now `initproc`'s, or another active slot
  by_cases hrc : r = c
  · subst hrc
    exact ⟨initproc, by simp, hinit⟩
  · exact ⟨r, by simp [hrc], by rw [hact r hrc]; exact ha⟩

theorem Tree.step (ht : Tree k) (h : Step k k') : Tree k' := by
  cases h with
  | allocproc c p hrun hp =>
    exact ht.update p _ rfl (by simp [Kernel.firstUnused_spec hp])
      (by simp)
  | kstackFail p hp hk =>
    exact ht.update p _ rfl (by simp [hp]) (by simp)
  | copyFail p r rest m hp hk hm =>
    exact ht.update p _ rfl (by simp [hp]) (by simp)
  | forkOk c p r rest n hrun hp hk hn hlen =>
    exact ht.update p _ rfl (by simp [hp])
      (fun _ => ⟨c, rfl, by simp [hrun]⟩)
  | exit c hrun h => exact ht.exit hrun h
  | wait c hrun =>
    rcases Kernel.wait_cases k c with ⟨p, hp, hw⟩ | ⟨-, -, hw⟩ | ⟨-, -, -, hw⟩ <;> rw [hw]
    · -- the reaped zombie was inactive, and its cleared slot is not live
      exact ht.update p _ rfl (by simp [(Kernel.zombieChild_spec hp).2])
        (by simp [Proc.clear])
    · exact ht
    · exact ht.resched (k.resched_setProc
        (Proc.resched_of_active (by simp [hrun]) rfl rfl rfl rfl))
  | kill c pid hrun => exact ht.resched (k.resched_kill pid)
  | schedule p hp =>
    exact ht.resched (k.resched_setProc
      (Proc.resched_of_active (by simp [hp]) rfl rfl rfl rfl))
  | yield p hp =>
    exact ht.resched (k.resched_setProc
      (Proc.resched_of_active (by simp [hp]) rfl rfl rfl rfl))
  | sleep p n hp =>
    exact ht.resched (k.resched_setProc
      (Proc.resched_of_active (by simp [hp]) rfl rfl rfl rfl))
  | wakeup n => exact ht.resched (k.resched_wakeup1 _)

theorem tree_of_reach {b : Boot} {k : Kernel} (h : Reach b k) : Tree k := by
  induction h with
  | refl => exact tree_boot b
  | tail _ hs ih => exact ih.step hs

end Tree

/-! ### The pages of the process table -/

/-- Every page is in one place: the free list and the pages the slots hold are all
different pages and none is `0`; a slot that is not live has no kernel stack, and a live one
has one. -/
structure Owned (k : Kernel) : Prop where
  nodup : ((k.kmem : Multiset Nat) + k.held).Nodup
  zero : 0 ∉ (k.kmem : Multiset Nat) + k.held
  kstack_idle : ∀ p, (k.proc p).state.live = false → (k.proc p).kstack = 0
  kstack_live : ∀ p, (k.proc p).state.live → (k.proc p).kstack ≠ 0

theorem Boot.kstack_ne_zero (b : Boot) : b.kstack ≠ 0 := by
  intro h
  exact b.ne_zero (h ▸ List.mem_cons_self)

theorem held_boot (b : Boot) : (Kernel.boot b).held = {b.kstack} + (b.pgdir : Multiset Nat) := by
  rw [Kernel.held, Finset.sum_eq_single initproc]
  · simp [Kernel.boot, Proc.pages, b.kstack_ne_zero]
  · intro q _ hq
    simp [Kernel.boot, hq, Proc.pages, Proc.unused]
  · simp

theorem owned_boot (b : Boot) : Owned (Kernel.boot b) := by
  -- the free list and the first process's pages are the boot pages
  have hpages : ((Kernel.boot b).kmem : Multiset Nat) + (Kernel.boot b).held =
      ((b.kstack :: (b.pgdir ++ b.free) : List Nat) : Multiset Nat) := by
    rw [held_boot]
    simp only [Kernel.boot, ← Multiset.coe_add, ← Multiset.cons_coe]
    rw [Multiset.singleton_add, add_comm, Multiset.cons_add]
  refine ⟨?_, ?_, fun q hq => ?_, fun q hq => ?_⟩
  · rw [hpages, Multiset.coe_nodup]
    exact b.nodup
  · rw [hpages, Multiset.mem_coe]
    exact b.ne_zero
  · by_cases hi : q = initproc
    · subst hi
      simp [Kernel.boot] at hq
    · simp [Kernel.boot, hi, Proc.unused]
  · by_cases hi : q = initproc
    · subst hi
      simpa [Kernel.boot] using b.kstack_ne_zero
    · simp [Kernel.boot, hi, Proc.unused] at hq

section Owned

variable {k k' : Kernel}

/-- A step that moves no page, and keeps every slot live or not, keeps the pages in place. -/
theorem Owned.frame (ho : Owned k) (hm : k'.kmem = k.kmem)
    (h : ∀ q, (k'.proc q).kstack = (k.proc q).kstack ∧
      (k'.proc q).state.live = (k.proc q).state.live ∧ (k'.proc q).pgdir = (k.proc q).pgdir) :
    Owned k' := by
  have hheld : k'.held = k.held :=
    Finset.sum_congr rfl fun q _ => by simp only [Proc.pages, (h q).1, (h q).2.1, (h q).2.2]
  refine ⟨?_, ?_, fun q hq => ?_, fun q hq => ?_⟩
  · rw [hm, hheld]
    exact ho.nodup
  · rw [hm, hheld]
    exact ho.zero
  · rw [(h q).1]
    exact ho.kstack_idle q (by rw [← (h q).2.1]; exact hq)
  · rw [(h q).1]
    exact ho.kstack_live q (by rw [← (h q).2.1]; exact hq)

theorem Owned.resched (ho : Owned k) (hm : k'.kmem = k.kmem)
    (h : ∀ q, (k.proc q).Resched (k'.proc q)) : Owned k' :=
  ho.frame hm fun q => ⟨(h q).kstack, (h q).live, (h q).pgdir⟩

/-- A step that changes one slot keeps every page in one place if the new free list and the
slot's new pages are among the old free list and the slot's old pages. -/
theorem Owned.update (ho : Owned k) (p : Fin NPROC) (pr : Proc)
    (hproc : k'.proc = Function.update k.proc p pr)
    (hle : (k'.kmem : Multiset Nat) + pr.pages ≤ (k.kmem : Multiset Nat) + (k.proc p).pages)
    (hidle : pr.state.live = false → pr.kstack = 0) (hlive : pr.state.live → pr.kstack ≠ 0) :
    Owned k' := by
  -- the two tables hold the same pages in every other slot
  have h' : k'.held = pr.pages + ∑ q ∈ univ.erase p, (k.proc q).pages := by
    rw [Kernel.held, hproc]
    exact Tally.sum_update_eq Proc.pages k.proc p pr
  have h : k.held = (k.proc p).pages + ∑ q ∈ univ.erase p, (k.proc q).pages :=
    (add_sum_erase univ _ (mem_univ p)).symm
  have hsub : (k'.kmem : Multiset Nat) + k'.held ≤ (k.kmem : Multiset Nat) + k.held := by
    rw [h', h, ← add_assoc, ← add_assoc]
    exact add_le_add_left hle _
  have hother : ∀ q, q ≠ p → k'.proc q = k.proc q := by
    intro q hq
    rw [hproc, Function.update_of_ne hq]
  refine ⟨Multiset.nodup_of_le hsub ho.nodup, fun h0 => ho.zero (Multiset.mem_of_le hsub h0),
    fun q hq => ?_, fun q hq => ?_⟩
  · by_cases hqp : q = p
    · subst hqp
      rw [hproc, Function.update_self] at hq ⊢
      exact hidle hq
    · rw [hother q hqp] at hq ⊢
      exact ho.kstack_idle q hq
  · by_cases hqp : q = p
    · subst hqp
      rw [hproc, Function.update_self] at hq ⊢
      exact hlive hq
    · rw [hother q hqp] at hq ⊢
      exact ho.kstack_live q hq

/-- `exit` moves no page: the exiting process stays live as a zombie. -/
theorem Owned.exit (ho : Owned k) {c : Fin NPROC} (hrun : (k.proc c).state = .running)
    (h : k.exit c = .ok k') : Owned k' := by
  have hm : k'.kmem = k.kmem := by
    unfold Kernel.exit at h
    split at h
    · cases h
    · cases h
      unfold Kernel.wakeParent Kernel.reparent
      split <;> split <;> rfl
  refine ho.frame hm fun q => ⟨(Kernel.exit_proc h q).2.1, ?_, (Kernel.exit_proc h q).2.2.1⟩
  by_cases hq : q = c
  · subst hq
    rw [(Kernel.exit_proc h q).2.2.2.1, hrun]
    rfl
  · exact ((Kernel.exit_proc h q).2.2.2.2 hq).2

/-- What `wait` puts on the free list when it reaps a live slot: its kernel stack and its
address space. -/
theorem reap_kmem {k : Kernel} {p : Fin NPROC} (hl : (k.proc p).state.live)
    (hk : (k.proc p).kstack ≠ 0) :
    ((k.reap p).kmem : Multiset Nat) = k.kmem + (k.proc p).pages := by
  have h₁ : (k.proc p).pages = {(k.proc p).kstack} + ((k.proc p).pgdir : Multiset Nat) := by
    simp [Proc.pages, hl, hk]
  have h₂ : (k.reap p).kmem = (k.proc p).pgdir.reverse ++ (k.proc p).kstack :: k.kmem := by
    simp [Kernel.reap, freevm_eq, kfree]
  rw [h₁, h₂, ← Multiset.coe_add, Multiset.coe_reverse, ← Multiset.cons_coe,
    Multiset.singleton_add, Multiset.add_cons, Multiset.add_cons, add_comm]

/-- `wait` hands the zombie's kernel stack and address space, and nothing else, to the free
list. -/
theorem Owned.reap (ho : Owned k) {p : Fin NPROC} (hz : (k.proc p).state = .zombie) :
    Owned (k.reap p) := by
  have hl : (k.proc p).state.live := by simp [hz]
  refine ho.update p _ rfl (le_of_eq ?_) (fun _ => rfl) (by simp [Proc.clear])
  have h₁ : (k.proc p).clear.pages = 0 := by simp [Proc.pages, Proc.clear]
  rw [h₁, add_zero, reap_kmem hl (ho.kstack_live p hl)]

theorem Owned.step (ho : Owned k) (h : Step k k') : Owned k' := by
  cases h with
  | allocproc c p hrun hp =>
    -- the slot goes from `UNUSED` to `EMBRYO`: it holds no page either way
    have hu := Kernel.firstUnused_spec hp
    refine ho.update p _ rfl (le_of_eq ?_) (fun _ => ho.kstack_idle p (by simp [hu]))
      (by simp)
    simp [Kernel.allocproc, Proc.pages, hu]
  | kstackFail p hp hk =>
    refine ho.update p _ rfl ?_ (fun _ => rfl) (by simp)
    simp [Kernel.kstackFail, Proc.pages]
  | copyFail p r rest m hp hk hm =>
    -- `copyuvm` gave back at most what it took; `kfree` gives back the kernel stack
    refine ho.update p _ rfl ?_ (fun _ => rfl) (by simp)
    have hle : ((r :: m : List Nat) : Multiset Nat) ≤ ((r :: rest : List Nat) : Multiset Nat) :=
      Multiset.coe_le.mpr ((List.subperm_cons r).mpr hm)
    simpa [Kernel.copyFail, kfree, Proc.pages, hk] using le_add_right hle
  | forkOk c p r rest n hrun hp hk hn hlen =>
    -- the child's kernel stack and address space come off the free list
    have hr : r ≠ 0 := by
      rintro rfl
      exact ho.zero (Multiset.mem_add.mpr (.inl (by simp [hk])))
    have hidle := ho.kstack_idle p (by simp [hp])
    refine ho.update p _ rfl (le_of_eq ?_) (by simp [Proc.spawn]) (fun _ => hr)
    have h₁ : ((k.proc p).spawn c r (rest.take n)).pages = {r} + ↑(rest.take n) := by
      simp [Proc.pages, Proc.spawn, hr]
    have h₂ : (k.proc p).pages = 0 := by simp [Proc.pages, hidle, hp]
    have h₃ : (k.forkOk c p r (rest.take n) (rest.drop n)).kmem = rest.drop n := rfl
    rw [h₁, h₂, h₃, hk, add_zero]
    conv_rhs => rw [← List.take_append_drop n rest]
    rw [← Multiset.cons_coe, ← Multiset.coe_add, Multiset.singleton_add, Multiset.add_cons,
      add_comm]
  | exit c hrun h => exact ho.exit hrun h
  | wait c hrun =>
    rcases Kernel.wait_cases k c with ⟨p, hp, hw⟩ | ⟨-, -, hw⟩ | ⟨-, -, -, hw⟩ <;> rw [hw]
    · exact ho.reap (Kernel.zombieChild_spec hp).2
    · exact ho
    · exact ho.resched rfl (k.resched_setProc
        (Proc.resched_of_active (by simp [hrun]) rfl rfl rfl rfl))
  | kill c pid hrun => exact ho.resched (k.kill_kmem pid) (k.resched_kill pid)
  | schedule p hp =>
    exact ho.resched rfl (k.resched_setProc
      (Proc.resched_of_active (by simp [hp]) rfl rfl rfl rfl))
  | yield p hp =>
    exact ho.resched rfl (k.resched_setProc
      (Proc.resched_of_active (by simp [hp]) rfl rfl rfl rfl))
  | sleep p n hp =>
    exact ho.resched rfl (k.resched_setProc
      (Proc.resched_of_active (by simp [hp]) rfl rfl rfl rfl))
  | wakeup n => exact ho.resched rfl (k.resched_wakeup1 _)

theorem owned_of_reach {b : Boot} {k : Kernel} (h : Reach b k) : Owned k := by
  induction h with
  | refl => exact owned_boot b
  | tail _ hs ih => exact ih.step hs

end Owned

/-! ### `wait` -/

/-- What one pass of `wait` by `c` does. It returns the pid of a zombie child `p` of `c`,
after which `p` is `UNUSED` and the kernel stack and address space that `p` held, which
were neither free nor held by another slot, are on the free list. Or it returns `-1` and
changes nothing, which it does exactly when `c` has no zombie child and has no child or was
killed. Or it sleeps, when `c` has children, none of them a zombie, and was not killed. -/
structure WaitSpec (k : Kernel) (c : Fin NPROC) : Prop where
  ret : ∀ v k', k.wait c = .ret v k' →
    (∃ p, (k.proc p).parent = some c ∧ (k.proc p).state = .zombie ∧ v = (k.proc p).pid ∧
      (k'.proc p).state = .unused ∧ (k'.proc p).kstack = 0 ∧
      (k'.kmem : Multiset Nat) = k.kmem + (k.proc p).pages ∧
      Disjoint (k.proc p).pages (k.kmem + ∑ q ∈ univ.erase p, (k.proc q).pages)) ∨
    (v = -1 ∧ k' = k ∧ k.zombieChild c = none ∧
      (k.hasKids c = false ∨ (k.proc c).killed = true))
  sleep : ∀ k', k.wait c = .sleep k' →
    k.zombieChild c = none ∧ k.hasKids c = true ∧ (k.proc c).killed = false

theorem Owned.waitSpec {k : Kernel} (ho : Owned k) (c : Fin NPROC) : WaitSpec k c := by
  refine ⟨fun v k' hret => ?_, fun k' hsl => ?_⟩
  · rcases Kernel.wait_cases k c with ⟨p, hp, hw⟩ | ⟨hz, hf, hw⟩ | ⟨-, -, -, hw⟩ <;>
      rw [hw] at hret <;> cases hret
    · obtain ⟨hpar, hzom⟩ := Kernel.zombieChild_spec hp
      have hl : (k.proc p).state.live := by simp [hzom]
      -- the reaped pages are one summand of the free list and the held pages, which are
      -- all different
      have hnodup :
          ((k.proc p).pages + (k.kmem + ∑ q ∈ univ.erase p, (k.proc q).pages)).Nodup := by
        have h := ho.nodup
        rw [Kernel.held, ← add_sum_erase univ _ (mem_univ p)] at h
        rwa [add_left_comm]
      refine .inl ⟨p, hpar, hzom, rfl, by simp [Kernel.reap, Proc.clear],
        by simp [Kernel.reap, Proc.clear], reap_kmem hl (ho.kstack_live p hl), ?_⟩
      exact (Multiset.nodup_add.mp hnodup).2.2
    · exact .inr ⟨rfl, rfl, hz, hf⟩
  · rcases Kernel.wait_cases k c with ⟨p, -, hw⟩ | ⟨-, -, hw⟩ | ⟨hz, hkids, hkill, -⟩
    · rw [hw] at hsl
      cases hsl
    · rw [hw] at hsl
      cases hsl
    · exact ⟨hz, hkids, hkill⟩

/-- Process-tree integrity over every run: `initproc` stays active and every other live
process has an active parent; every page is in one place; and `wait` returns a pid only by
reaping a zombie child, freeing its kernel stack and address space exactly once, and
returns `-1` exactly when the caller has no zombie child and has no child or was killed. -/
theorem processTree_of_reach {b : Boot} {k : Kernel} (h : Reach b k) :
    Tree k ∧ Owned k ∧ ∀ c, WaitSpec k c :=
  ⟨tree_of_reach h, owned_of_reach h, (owned_of_reach h).waitSpec⟩

/-- A machine with four pages: the first process's kernel stack and page directory, and
two free pages. -/
def Boot.small : Boot := ⟨4096, [8192], [12288, 16384], by decide, by decide⟩

theorem processTree_boot :
    Tree (Kernel.boot Boot.small) ∧ Owned (Kernel.boot Boot.small) ∧
      ∀ c, WaitSpec (Kernel.boot Boot.small) c :=
  processTree_of_reach .refl

/-- A killed parent with a zombie child is not told `-1`: `initproc` forks a child, the child
kills `initproc` and exits, and `initproc`'s `wait` reaps it and returns its pid 2. -/
theorem wait_reaps_for_killed_caller :
    ∃ k, Reach Boot.small k ∧ (k.proc initproc).state = .running ∧
      (k.proc initproc).killed = true ∧ k.hasKids initproc = true ∧
      ∃ k', k.wait initproc = .ret 2 k' := by
  let slot : Fin NPROC := ⟨1, by decide⟩
  let k₀ := Kernel.boot Boot.small
  let k₁ := k₀.setProc initproc { k₀.proc initproc with state := .running }
  let k₂ := k₁.allocproc slot
  let k₃ := k₂.forkOk initproc slot 12288 ([16384].take 1) ([16384].drop 1)
  let k₄ := k₃.setProc slot { k₃.proc slot with state := .running }
  let k₅ := (k₄.kill 1).2
  let k₆ := ((k₅.wakeParent slot).reparent slot).zombify slot
  have hrun : Reach Boot.small k₆ :=
    .tail (.tail (.tail (.tail (.tail (.single
      (Step.schedule k₀ initproc (by decide +kernel)))
      (Step.allocproc k₁ initproc slot (by decide +kernel) (by decide +kernel)))
      (Step.forkOk k₂ initproc slot 12288 [16384] 1 (by decide +kernel) (by decide +kernel) rfl
        Nat.one_pos (by decide)))
      (Step.schedule k₃ slot (by decide +kernel)))
      (Step.kill k₄ slot 1 (by decide +kernel)))
      (Step.exit k₅ slot (by decide +kernel) (by rw [Kernel.exit, if_neg (by decide)]))
  have hz : k₆.zombieChild initproc = some slot := by decide +kernel
  have hpid : (k₆.proc slot).pid = 2 := by decide +kernel
  refine ⟨k₆, hrun, by decide +kernel, by decide +kernel, by decide +kernel, k₆.reap slot, ?_⟩
  rw [Kernel.wait_of_zombieChild hz, hpid]

end Xv6.Procs
