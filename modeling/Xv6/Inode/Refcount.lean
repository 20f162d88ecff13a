import Xv6.Inode.Cache
import Xv6.Lib.Tally
import Mathlib.Algebra.BigOperators.Group.Finset.Piecewise

/-!
# Inode references over every run

Every reachable kernel keeps each entry's `ref` equal to the references held to it: by open
files, by current directories whose reference has not been put, by the pointers calls hold
and by the `iput`s in progress of such pointers. No two entries somebody refers to cache the
same inode. So when `iput` finds `ref == 1` at its check, its own reference is the only one:
no open file, no other current directory and no other call refers to the entry
(`Inv.sole_of_ref_eq_one`); `Xv6.Inode.Freeing` carries that to the step that frees it.
-/

namespace Xv6.Inodes

open Finset

namespace Proc

/-- The current directory whose reference the process still holds. -/
def cwdRef (pr : Proc) : Option (Fin NINODE) := if pr.stale then none else pr.cwd

theorem cwdRef_eq {pr : Proc} {e : Fin NINODE} (hcwd : pr.cwd = some e) (hfresh : pr.stale = false) :
    pr.cwdRef = some e := by
  simp [cwdRef, hcwd, hfresh]

/-- The pointer that the process's `iput` of a pointer it held is putting. -/
def putting (pr : Proc) : Option (Fin NINODE) :=
  match pr.iput with
  | some u => if u.ofCwd then none else some u.ip
  | none => none

/-- The references to entry `e` that the process holds. -/
def refs (pr : Proc) (e : Fin NINODE) : Nat :=
  (if pr.cwdRef = some e then 1 else 0) + pr.held.count e + if pr.putting = some e then 1 else 0

/-- What a process keeps true: one that does not run holds nothing, and its `iput` of the
current directory puts the reference it still holds. -/
structure WF (pr : Proc) : Prop where
  idle : pr.state ≠ .runnable → pr.cwd = none ∧ pr.stale = false ∧ pr.held = [] ∧ pr.iput = none
  ofCwd : ∀ u, pr.iput = some u → u.ofCwd = true → pr.cwd = some u.ip ∧ pr.stale = false

@[simp] theorem cwdRef_setHeld (pr : Proc) (l : List (Fin NINODE)) :
    ({ pr with held := l } : Proc).cwdRef = pr.cwdRef := rfl

@[simp] theorem putting_setHeld (pr : Proc) (l : List (Fin NINODE)) :
    ({ pr with held := l } : Proc).putting = pr.putting := rfl

theorem refs_congr {pr pr' : Proc} (hc : pr'.cwdRef = pr.cwdRef) (hh : pr'.held = pr.held)
    (hp : pr'.putting = pr.putting) : pr'.refs = pr.refs := by
  funext g
  rw [refs, refs, hc, hh, hp]

/-- The call gets one more pointer. -/
theorem refs_hold (pr : Proc) (e g : Fin NINODE) :
    ({ pr with held := e :: pr.held } : Proc).refs g = pr.refs g + if g = e then 1 else 0 := by
  have : (e :: pr.held).count g = pr.held.count g + if g = e then 1 else 0 := by
    rw [List.count_cons]
    by_cases h : g = e
    · subst h
      simp
    · simp [h, Ne.symm h]
  unfold refs
  rw [this, cwdRef_setHeld, putting_setHeld]
  omega

/-- The call gives one of its pointers away. -/
theorem refs_unhold (pr : Proc) {e : Fin NINODE} (h : e ∈ pr.held) (g : Fin NINODE) :
    ({ pr with held := pr.held.erase e } : Proc).refs g + (if g = e then 1 else 0) =
      pr.refs g := by
  have hpos := List.count_pos_iff.mpr h
  unfold refs
  rw [List.count_erase, cwdRef_setHeld, putting_setHeld]
  by_cases hg : g = e
  · subst hg
    simp only [beq_self_eq_true, if_true]
    omega
  · simp [hg, Ne.symm hg]

/-- `sys_chdir` sets the current directory whose reference `iput` has put. -/
theorem refs_setCwd (pr : Proc) (h : pr.stale = true) (e g : Fin NINODE) :
    ({ pr with cwd := some e, stale := false } : Proc).refs g =
      pr.refs g + if g = e then 1 else 0 := by
  have hc : pr.cwdRef = none := by simp [cwdRef, h]
  have hc' : ({ pr with cwd := some e, stale := false } : Proc).cwdRef = some e := rfl
  have hp : ({ pr with cwd := some e, stale := false } : Proc).putting = pr.putting := rfl
  unfold refs
  rw [hc, hc', hp]
  by_cases hg : g = e
  · subst hg
    simp only [if_true, reduceCtorEq, if_false]
    omega
  · simp [Ne.symm hg, hg]

/-- The call hands a pointer it holds to its `iput`. -/
theorem refs_handIput (pr : Proc) {e : Fin NINODE} (he : e ∈ pr.held) (hnone : pr.iput = none)
    (g : Fin NINODE) :
    ({ pr with held := pr.held.erase e, iput := some ⟨e, .acquire, false⟩ } : Proc).refs g =
      pr.refs g := by
  have h := pr.refs_unhold he g
  have hp₀ : pr.putting = none := by simp [putting, hnone]
  have hc : ({ pr with held := pr.held.erase e, iput := some ⟨e, .acquire, false⟩ } : Proc).cwdRef =
      pr.cwdRef := rfl
  have hp : ({ pr with held := pr.held.erase e, iput := some ⟨e, .acquire, false⟩ } :
      Proc).putting = some e := rfl
  unfold refs at h ⊢
  rw [cwdRef_setHeld, putting_setHeld, hp₀] at h
  rw [hc, hp, hp₀]
  by_cases hg : g = e
  · subst hg
    simp only [if_true, reduceCtorEq, if_false] at h ⊢
    omega
  · simp only [hg, if_false, Option.some.injEq, Ne.symm hg, reduceCtorEq] at h ⊢
    omega

/-- `iput` returns: the reference it drops is the one it was handed, or the current
directory's. -/
theorem refs_endIput {pr : Proc} (hwf : pr.WF) {u : Iput} (hu : pr.iput = some u) (g : Fin NINODE) :
    ({ pr with iput := none, stale := u.ofCwd || pr.stale } : Proc).refs g +
      (if g = u.ip then 1 else 0) = pr.refs g := by
  have hp : ({ pr with iput := none, stale := u.ofCwd || pr.stale } : Proc).putting = none := rfl
  have hh : ({ pr with iput := none, stale := u.ofCwd || pr.stale } : Proc).held = pr.held := rfl
  unfold refs
  rw [hp, hh]
  by_cases hc : u.ofCwd = false
  · have hc' : ({ pr with iput := none, stale := u.ofCwd || pr.stale } : Proc).cwdRef =
        pr.cwdRef := by simp [cwdRef, hc]
    have hp₀ : pr.putting = some u.ip := by simp [putting, hu, hc]
    rw [hc', hp₀]
    by_cases hg : g = u.ip
    · subst hg
      simp only [if_true, reduceCtorEq, if_false]
    · simp only [hg, if_false, Option.some.injEq, Ne.symm hg, reduceCtorEq]
  · simp only [Bool.not_eq_false] at hc
    obtain ⟨hcwd, hst⟩ := hwf.ofCwd u hu hc
    have hc' : ({ pr with iput := none, stale := u.ofCwd || pr.stale } : Proc).cwdRef = none := by
      simp [cwdRef, hc]
    have hc₀ : pr.cwdRef = some u.ip := by simp [cwdRef, hcwd, hst]
    have hp₀ : pr.putting = none := by simp [putting, hu, hc]
    rw [hc', hc₀, hp₀]
    by_cases hg : g = u.ip
    · subst hg
      simp only [if_true, reduceCtorEq, if_false]
      omega
    · simp only [hg, if_false, Option.some.injEq, Ne.symm hg, reduceCtorEq]

theorem one_le_refs_of_cwdRef {pr : Proc} {e : Fin NINODE} (h : pr.cwdRef = some e) :
    1 ≤ pr.refs e := by
  unfold refs
  rw [if_pos h]
  omega

theorem one_le_refs_of_held {pr : Proc} {e : Fin NINODE} (h : e ∈ pr.held) : 1 ≤ pr.refs e := by
  have := List.count_pos_iff.mpr h
  unfold refs
  omega

theorem one_le_refs_of_putting {pr : Proc} {e : Fin NINODE} (h : pr.putting = some e) :
    1 ≤ pr.refs e := by
  unfold refs
  rw [if_pos h]
  omega

/-- A process that does not run holds no reference. -/
theorem refs_eq_zero {pr : Proc} (hwf : pr.WF) (hrun : pr.state ≠ .runnable) (e : Fin NINODE) :
    pr.refs e = 0 := by
  obtain ⟨hc, hs, hh, hi⟩ := hwf.idle hrun
  simp [refs, cwdRef, putting, hc, hh, hi]

end Proc

namespace Kernel

/-- The open files whose inode is entry `e`. -/
def fileRefs (k : Kernel) (e : Fin NINODE) : Nat := ∑ f, if k.file f = some e then 1 else 0

/-- All references to entry `e`. -/
def refs (k : Kernel) (e : Fin NINODE) : Nat := k.fileRefs e + ∑ p, (k.proc p).refs e

variable {k k' : Kernel}

theorem refs_of (hf : k'.file = k.file) (hp : k'.proc = k.proc) : k'.refs = k.refs := by
  funext e
  unfold refs fileRefs
  rw [hf, hp]

/-- Changing one process changes the references by the difference of its own. -/
theorem refs_setProc (k : Kernel) (p : Fin NPROC) (pr : Proc) (e : Fin NINODE) :
    (k.setProc p pr).refs e + (k.proc p).refs e = k.refs e + pr.refs e := by
  have h := Tally.sum_update_add (fun _ pr => pr.refs e) k.proc p pr
  beta_reduce at h
  unfold refs fileRefs
  rw [setProc_proc, setProc_file]
  omega

/-- Changing one file changes the references by the difference of its own. -/
theorem refs_setFile (k : Kernel) (f : Fin NFILE) (o : Option (Fin NINODE)) (e : Fin NINODE) :
    (k.setFile f o).refs e + (if k.file f = some e then 1 else 0) =
      k.refs e + if o = some e then 1 else 0 := by
  have h := Tally.sum_update_add (fun _ o => if o = some e then 1 else 0) k.file f o
  beta_reduce at h
  unfold refs fileRefs
  rw [setFile_proc, setFile_file]
  omega

theorem refs_le (k : Kernel) (p : Fin NPROC) (e : Fin NINODE) : (k.proc p).refs e ≤ k.refs e := by
  have := Finset.single_le_sum (f := fun p => (k.proc p).refs e) (fun _ _ => Nat.zero_le _)
    (Finset.mem_univ p)
  unfold refs
  omega

/-- One process's and one file's references to an entry are at most all of them. -/
theorem refs_file_add_le (k : Kernel) (p : Fin NPROC) {f : Fin NFILE} {e : Fin NINODE}
    (hf : k.file f = some e) : 1 + (k.proc p).refs e ≤ k.refs e := by
  have h₁ := Finset.single_le_sum (f := fun f => if k.file f = some e then 1 else 0)
    (fun _ _ => Nat.zero_le _) (Finset.mem_univ f)
  have h₂ := Finset.single_le_sum (f := fun p => (k.proc p).refs e) (fun _ _ => Nat.zero_le _)
    (Finset.mem_univ p)
  rw [if_pos hf] at h₁
  unfold refs fileRefs
  omega

/-- Two processes' references to one entry are at most all of them. -/
theorem refs_add_le (k : Kernel) {p q : Fin NPROC} (hpq : p ≠ q) (e : Fin NINODE) :
    (k.proc p).refs e + (k.proc q).refs e ≤ k.refs e := by
  have := Tally.add_le_sum (fun p => (k.proc p).refs e) hpq
  unfold refs
  omega

theorem refs_hold (k : Kernel) (p : Fin NPROC) (e g : Fin NINODE) :
    (k.hold p e).refs g = k.refs g + if g = e then 1 else 0 := by
  have h := k.refs_setProc p { k.proc p with held := e :: (k.proc p).held } g
  rw [Proc.refs_hold] at h
  rw [hold_eq]
  omega

theorem refs_unhold (k : Kernel) (p : Fin NPROC) {e : Fin NINODE} (he : e ∈ (k.proc p).held)
    (g : Fin NINODE) : (k.unhold p e).refs g + (if g = e then 1 else 0) = k.refs g := by
  have h := k.refs_setProc p { k.proc p with held := (k.proc p).held.erase e } g
  have h' := (k.proc p).refs_unhold he g
  rw [unhold_eq]
  dsimp only at h ⊢
  omega

/-- `sys_chdir` sets the current directory whose reference `iput` has put. -/
theorem refs_setCwd (k : Kernel) (p : Fin NPROC) (hstale : (k.proc p).stale = true)
    (e g : Fin NINODE) : (k.setCwd p (some e)).refs g = k.refs g + if g = e then 1 else 0 := by
  have h := k.refs_setProc p { k.proc p with cwd := some e, stale := false } g
  have h' := (k.proc p).refs_setCwd hstale e g
  rw [setCwd_eq]
  dsimp only at h ⊢
  omega

end Kernel

/-- No two entries somebody refers to cache the same inode. -/
def Unique (ic : Fin NINODE → Inode) : Prop :=
  ∀ e e', 0 < (ic e).ref → 0 < (ic e').ref → (ic e).dev = (ic e').dev →
    (ic e).inum = (ic e').inum → e = e'

namespace Unique

variable {ic : Fin NINODE → Inode}

/-- An entry that keeps its inode, and is referred to only if it was, keeps the others apart. -/
theorem setInode (hu : Unique ic) {e : Fin NINODE} {ip : Inode} (hdev : ip.dev = (ic e).dev)
    (hinum : ip.inum = (ic e).inum) (hpos : 0 < ip.ref → 0 < (ic e).ref) :
    Unique (Function.update ic e ip) := by
  have hkeep (x : Fin NINODE) : 0 < (Function.update ic e ip x).ref → 0 < (ic x).ref ∧
      (Function.update ic e ip x).dev = (ic x).dev ∧
      (Function.update ic e ip x).inum = (ic x).inum := by
    by_cases hx : x = e
    · subst hx
      simpa [hdev, hinum] using hpos
    · simp [Function.update_of_ne hx]
  intro x y hx hy hd hi
  obtain ⟨hx₀, hxd, hxi⟩ := hkeep x hx
  obtain ⟨hy₀, hyd, hyi⟩ := hkeep y hy
  exact hu x y hx₀ hy₀ (by rw [← hxd, ← hyd, hd]) (by rw [← hxi, ← hyi, hi])

/-- `iget` recycles an entry for an inode no entry somebody refers to caches. -/
theorem recycle (hu : Unique ic) {e : Fin NINODE} {dev inum : Nat}
    (hnone : ∀ x, Kernel.caches (ic x) dev inum = false) :
    Unique (Function.update ic e ((ic e).recycle dev inum)) := by
  have hother (x : Fin NINODE) (hx : x ≠ e) (hpos : 0 < (ic x).ref) (hd : (ic x).dev = dev)
      (hi : (ic x).inum = inum) : False := by
    have := hnone x
    simp [Kernel.caches, hpos, hd, hi] at this
  intro x y hx hy hd hi
  by_cases hxe : x = e
  · by_cases hye : y = e
    · rw [hxe, hye]
    · subst hxe
      simp only [Function.update_self, Function.update_of_ne hye] at hy hd hi
      exact (hother y hye hy hd.symm hi.symm).elim
  · by_cases hye : y = e
    · subst hye
      simp only [Function.update_self, Function.update_of_ne hxe] at hx hd hi
      exact (hother x hxe hx hd hi).elim
    · simp only [Function.update_of_ne hxe, Function.update_of_ne hye] at hx hy hd hi
      exact hu x y hx hy hd hi

end Unique

/-- The inode-cache invariant. -/
structure Inv (k : Kernel) : Prop where
  acct : ∀ e, (k.icache e).ref = k.refs e
  unique : Unique k.icache
  wf : ∀ p, (k.proc p).WF

theorem inv_boot (disk : Nat → Nat → DInode) : Inv (Kernel.boot disk) where
  acct e := by
    have hp (p : Fin NPROC) : ((Kernel.boot disk).proc p).refs e =
        if p = ⟨0, by decide⟩ ∧ e = ⟨0, by decide⟩ then 1 else 0 := by
      by_cases hp : p.val = 0
      · have : p = ⟨0, by decide⟩ := Fin.ext hp
        subst this
        by_cases he : e = ⟨0, by decide⟩
        · subst he
          rfl
        · simp [Kernel.boot, Proc.refs, Proc.cwdRef, Proc.putting, Ne.symm he, he]
      · have : p ≠ ⟨0, by decide⟩ := fun h => hp (by rw [h])
        simp [Kernel.boot, hp, this, Proc.refs, Proc.cwdRef, Proc.putting, Proc.unused]
    simp only [Kernel.refs, Kernel.fileRefs, hp]
    by_cases he : e = ⟨0, by decide⟩
    · subst he
      simp [Kernel.boot, ROOTDEV, Finset.sum_ite_eq']
    · have : e.val ≠ 0 := fun h => he (Fin.ext h)
      simp [Kernel.boot, he, this, Inode.zero]
  unique x y hx hy _ _ := by
    have hx₀ : x.val = 0 := by
      by_contra h
      simp [Kernel.boot, h, Inode.zero] at hx
    have hy₀ : y.val = 0 := by
      by_contra h
      simp [Kernel.boot, h, Inode.zero] at hy
    exact Fin.ext (hx₀.trans hy₀.symm)
  wf p := by
    by_cases hp : p.val = 0
    · refine ⟨fun h => ?_, fun u hu => ?_⟩ <;> simp [Kernel.boot, hp] at *
    · refine ⟨fun _ => ?_, fun u hu => ?_⟩ <;> simp [Kernel.boot, hp, Proc.unused] at *

/-! ### What each step keeps -/

section Steps

variable {k k' : Kernel} {p : Fin NPROC}

/-- A running process keeps its shape when its call gets or drops pointers. -/
theorem Proc.WF.setHeld {pr : Proc} (hwf : pr.WF) (hrun : pr.state = .runnable)
    (l : List (Fin NINODE)) : ({ pr with held := l } : Proc).WF :=
  ⟨fun h => absurd hrun h, hwf.ofCwd⟩

theorem wf_setProc (hwf : ∀ q, (k.proc q).WF) {pr : Proc} (hpr : pr.WF) (q : Fin NPROC) :
    ((k.setProc p pr).proc q).WF := by
  by_cases hq : q = p
  · subst hq
    simpa using hpr
  · simpa [Function.update_of_ne hq] using hwf q

/-- A step that changes each entry's `ref` as it changes the references held to it, and keeps
the entries apart and the processes in shape, keeps the invariant. -/
theorem Inv.of_delta (hk : Inv k) {x y : Fin NINODE → Nat}
    (href : ∀ g, (k'.icache g).ref + x g = (k.icache g).ref + y g)
    (hrefs : ∀ g, k'.refs g + x g = k.refs g + y g) (hu : Unique k'.icache)
    (hwf : ∀ q, (k'.proc q).WF) : Inv k' where
  acct g := by
    have h₁ := href g
    have h₂ := hrefs g
    have h₃ := hk.acct g
    omega
  unique := hu
  wf := hwf

/-- Changing an entry's lock, validity or copy of the on-disk inode keeps the invariant. -/
theorem Inv.setInode (hk : Inv k) {e : Fin NINODE} {ip : Inode} (hr : ip.ref = (k.icache e).ref)
    (hd : ip.dev = (k.icache e).dev) (hi : ip.inum = (k.icache e).inum) :
    Inv (k.setInode e ip) := by
  refine hk.of_delta (x := fun _ => 0) (y := fun _ => 0) (fun g => ?_) (fun g => ?_)
    (hk.unique.setInode hd hi fun h => hr ▸ h) (fun q => by simpa using hk.wf q)
  · by_cases hg : g = e
    · subst hg
      simp [hr]
    · simp [Function.update_of_ne hg]
  · rw [Kernel.refs_of (Kernel.setInode_file k e ip) (Kernel.setInode_proc k e ip)]

theorem Inv.setDisk (hk : Inv k) (dev inum : Nat) (d : DInode) : Inv (k.setDisk dev inum d) :=
  ⟨hk.acct, hk.unique, hk.wf⟩

/-- Changing a process into one with the same references keeps the invariant. -/
theorem Inv.setProc (hk : Inv k) {pr : Proc} (hrefs : ∀ g, pr.refs g = (k.proc p).refs g)
    (hpr : pr.WF) : Inv (k.setProc p pr) := by
  refine hk.of_delta (x := fun _ => 0) (y := fun _ => 0) (fun _ => rfl) (fun g => ?_) hk.unique
    (wf_setProc hk.wf hpr)
  have := k.refs_setProc p pr g
  rw [hrefs] at this
  omega

/-- An `iput` moving on to its next phase keeps the invariant. -/
theorem Inv.setPhase (hk : Inv k) {u : Iput} (hrun : (k.proc p).state = .runnable)
    (hu : (k.proc p).iput = some u) (ph : Phase) : Inv (k.setPhase p u ph) := by
  refine hk.setProc (fun g => ?_) ⟨fun h => absurd hrun h, fun v hv hc => ?_⟩
  · simp [Proc.refs, Proc.cwdRef, Proc.putting, hu]
  · simp only [Option.some.injEq] at hv
    subst hv
    exact (hk.wf p).ofCwd u hu hc

/-- A call that gets one more pointer to `e`, counted in `e`'s `ref`, keeps the invariant. -/
theorem Inv.hold (hk : Inv k) {k₁ : Kernel} {e : Fin NINODE} (hrun : (k.proc p).state = .runnable)
    (hfile : k₁.file = k.file) (hproc : k₁.proc = k.proc) (hu : Unique k₁.icache)
    (href : ∀ g, (k₁.icache g).ref = (k.icache g).ref + if g = e then 1 else 0) :
    Inv (k₁.hold p e) := by
  have hp : k₁.proc p = k.proc p := by rw [hproc]
  have hwf₁ (q : Fin NPROC) : (k₁.proc q).WF := by
    rw [hproc]
    exact hk.wf q
  refine hk.of_delta (x := fun _ => 0) (y := fun g => if g = e then 1 else 0) (fun g => ?_)
    (fun g => ?_) hu ?_
  · simp [href g]
  · have h₁ := k₁.refs_setProc p { k₁.proc p with held := e :: (k₁.proc p).held } g
    rw [Proc.refs_hold, Kernel.refs_of hfile hproc] at h₁
    rw [Kernel.hold_eq]
    omega
  · rw [Kernel.hold_eq]
    exact wf_setProc hwf₁ ((hwf₁ p).setHeld (by rw [hp]; exact hrun) _)

theorem Inv.iget (hk : Inv k) (hrun : (k.proc p).state = .runnable) {dev inum : Nat}
    {e : Fin NINODE} {k₁ : Kernel} (h : k.iget dev inum = .ok (e, k₁)) : Inv (k₁.hold p e) := by
  rcases Kernel.iget_ok h with ⟨hc, rfl⟩ | ⟨hc, he, rfl⟩
  · -- the entry that caches the inode gets one more reference
    have hpos : 0 < (k.icache e).ref := by
      have := Kernel.caches_of_cached hc
      simp only [Kernel.caches, Bool.and_eq_true, decide_eq_true_eq] at this
      exact this.1.1
    refine hk.hold hrun rfl rfl (hk.unique.setInode rfl rfl fun _ => hpos) fun g => ?_
    by_cases hg : g = e
    · subst hg
      simp
    · simp [hg]
  · -- no entry caches it: the first one nobody refers to is recycled
    have h0 := Kernel.ref_of_empty he
    refine hk.hold hrun rfl rfl (hk.unique.recycle (Kernel.not_caches_of_cached hc)) fun g => ?_
    by_cases hg : g = e
    · subst hg
      simp [Inode.recycle, h0]
    · simp [hg]

theorem Inv.idup (hk : Inv k) (hrun : (k.proc p).state = .runnable) {e : Fin NINODE}
    (hpos : 0 < (k.icache e).ref) : Inv ((k.idup e).hold p e) := by
  refine hk.hold hrun rfl rfl (hk.unique.setInode rfl rfl fun _ => hpos) fun g => ?_
  by_cases hg : g = e
  · subst hg
    simp [Kernel.idup]
  · simp [Kernel.idup, hg]

theorem Inv.ilock (hk : Inv k) {e : Fin NINODE} (h : k.ilock p e = .ok k') : Inv k' := by
  dsimp only [Kernel.ilock] at h
  split at h
  · cases h
  split at h
  · cases h
    exact hk.setInode rfl rfl rfl
  split at h
  · cases h
  · cases h
    exact hk.setInode rfl rfl rfl

theorem Inv.iunlock (hk : Inv k) {e : Fin NINODE} (h : k.iunlock p e = .ok k') : Inv k' := by
  dsimp only [Kernel.iunlock] at h
  split at h
  · cases h
  · cases h
    exact hk.setInode rfl rfl rfl

theorem Inv.setNlink (hk : Inv k) (e : Fin NINODE) (n : Nat) : Inv (k.setNlink e n) := by
  have h : Inv (k.setInode e { k.icache e with nlink := n }) := hk.setInode rfl rfl rfl
  exact h.setDisk _ _ _

/-- The call hands a pointer it holds to its `iput`. -/
theorem Inv.iput (hk : Inv k) (hrun : (k.proc p).state = .runnable) {e : Fin NINODE}
    (hheld : e ∈ (k.proc p).held) (hnone : (k.proc p).iput = none) :
    Inv ((k.unhold p e).startIput p ⟨e, .acquire, false⟩) := by
  simp only [Kernel.startIput_eq, Kernel.unhold_eq, Kernel.setProc_setProc, Kernel.setProc_proc,
    Function.update_self]
  refine hk.setProc ((k.proc p).refs_handIput hheld hnone) ⟨fun h => absurd hrun h, ?_⟩
  intro v hv hc
  simp only [Option.some.injEq] at hv
  subst hv
  cases hc

/-- `exit` or `sys_chdir` puts the current directory. -/
theorem Inv.iputCwd (hk : Inv k) (hrun : (k.proc p).state = .runnable) {e : Fin NINODE}
    (hcwd : (k.proc p).cwd = some e) (hfresh : (k.proc p).stale = false)
    (hnone : (k.proc p).iput = none) : Inv (k.startIput p ⟨e, .acquire, true⟩) := by
  rw [Kernel.startIput_eq]
  refine hk.setProc (fun g => ?_) ⟨fun h => absurd hrun h, fun v hv _ => ?_⟩
  · simp [Proc.refs, Proc.cwdRef, Proc.putting, hnone]
  · simp only [Option.some.injEq] at hv
    subst hv
    exact ⟨hcwd, hfresh⟩

/-- `iput` drops its reference: the entry's `ref` and the process's references both lose it. -/
theorem Inv.drop (hk : Inv k) (hrun : (k.proc p).state = .runnable) {u : Iput}
    (hu : (k.proc p).iput = some u) :
    Inv ((k.setInode u.ip { k.icache u.ip with ref := (k.icache u.ip).ref - 1 }).endIput p
      u.ofCwd) := by
  have hpr := Proc.refs_endIput (hk.wf p) hu
  have hpos : 1 ≤ (k.icache u.ip).ref := by
    have h₁ := hpr u.ip
    have h₂ := k.refs_le p u.ip
    rw [if_pos rfl] at h₁
    rw [hk.acct u.ip]
    omega
  refine hk.of_delta (x := fun g => if g = u.ip then 1 else 0) (y := fun _ => 0) (fun g => ?_)
    (fun g => ?_) (hk.unique.setInode rfl rfl fun _ => by omega) ?_
  · by_cases hg : g = u.ip
    · subst hg
      simp only [Kernel.endIput, Kernel.setProc_icache, Kernel.setInode_icache,
        Function.update_self, if_true]
      omega
    · simp [Kernel.endIput, hg]
  · have h := (k.setInode u.ip { k.icache u.ip with ref := (k.icache u.ip).ref - 1 }).refs_setProc
      p { k.proc p with iput := none, stale := u.ofCwd || (k.proc p).stale } g
    rw [Kernel.refs_of (Kernel.setInode_file _ _ _) (Kernel.setInode_proc _ _ _),
      Kernel.setInode_proc] at h
    have := hpr g
    simp only [Kernel.endIput, Kernel.setInode_proc]
    dsimp only at h ⊢
    omega
  · unfold Kernel.endIput
    exact wf_setProc (fun q => by simpa using hk.wf q)
      ⟨fun h => absurd (by simpa using hrun) h, fun v hv => by simp at hv⟩

theorem Inv.iputStep (hk : Inv k) (hrun : (k.proc p).state = .runnable) {u : Iput}
    (hu : (k.proc p).iput = some u) : Inv (k.iputStep p u) := by
  obtain ⟨e, ph, c⟩ := u
  cases ph with
  | acquire =>
    show Inv ((k.setInode e { k.icache e with lock := some p }).setPhase p ⟨e, .acquire, c⟩ .check)
    exact (hk.setInode (by rfl) (by rfl) (by rfl)).setPhase hrun hu _
  | check =>
    simp only [Kernel.iputStep]
    split
    · exact hk.setPhase hrun hu _
    · exact hk.setPhase hrun hu _
  | free =>
    show Inv (((k.setInode e { k.icache e with type := 0, valid := false }).setDisk
      (k.icache e).dev (k.icache e).inum ⟨0, (k.icache e).nlink⟩).setPhase p ⟨e, .free, c⟩ .release)
    exact ((hk.setInode (by rfl) (by rfl) (by rfl)).setDisk _ _ _).setPhase hrun hu _
  | release =>
    show Inv ((k.setInode e { k.icache e with lock := none }).setPhase p ⟨e, .release, c⟩ .drop)
    exact (hk.setInode (by rfl) (by rfl) (by rfl)).setPhase hrun hu _
  | drop => exact hk.drop hrun hu

/-- `sys_open` hands a pointer it holds to the file. -/
theorem Inv.fileOpen (hk : Inv k) (hrun : (k.proc p).state = .runnable) {f : Fin NFILE}
    {e : Fin NINODE} (hheld : e ∈ (k.proc p).held) (hf : k.file f = none) :
    Inv ((k.setFile f (some e)).unhold p e) := by
  refine hk.of_delta (x := fun _ => 0) (y := fun _ => 0) (fun _ => rfl) (fun g => ?_) hk.unique ?_
  · have h₁ := (k.setFile f (some e)).refs_unhold p (by simpa using hheld) g
    have h₂ := k.refs_setFile f (some e) g
    rw [hf] at h₂
    by_cases hg : g = e
    · subst hg
      simp at h₁ h₂ ⊢
      omega
    · simp [hg, Ne.symm hg] at h₁ h₂ ⊢
      omega
  · rw [Kernel.unhold_eq]
    exact wf_setProc (fun q => by simpa using hk.wf q)
      (by simpa using (hk.wf p).setHeld hrun ((k.proc p).held.erase e))

/-- `fileclose` takes the pointer of the file that lost its last reference. -/
theorem Inv.fileClose (hk : Inv k) (hrun : (k.proc p).state = .runnable) {f : Fin NFILE}
    {e : Fin NINODE} (hf : k.file f = some e) : Inv ((k.setFile f none).hold p e) := by
  refine hk.of_delta (x := fun _ => 0) (y := fun _ => 0) (fun _ => rfl) (fun g => ?_) hk.unique ?_
  · have h₁ := (k.setFile f none).refs_hold p e g
    have h₂ := k.refs_setFile f none g
    rw [hf] at h₂
    by_cases hg : g = e
    · subst hg
      simp at h₁ h₂ ⊢
      omega
    · simp [hg, Ne.symm hg] at h₁ h₂ ⊢
      omega
  · rw [Kernel.hold_eq]
    exact wf_setProc (fun q => by simpa using hk.wf q)
      (by simpa using (hk.wf p).setHeld hrun (e :: (k.proc p).held))

/-- `sys_chdir` makes a pointer it holds the current directory. -/
theorem Inv.chdir (hk : Inv k) (hrun : (k.proc p).state = .runnable) {e : Fin NINODE}
    (hheld : e ∈ (k.proc p).held) (hstale : (k.proc p).stale = true) :
    Inv ((k.unhold p e).setCwd p (some e)) := by
  refine hk.of_delta (x := fun _ => 0) (y := fun _ => 0) (fun _ => rfl) (fun g => ?_) hk.unique ?_
  · have h₁ := (k.unhold p e).refs_setCwd p (by simpa using hstale) e g
    have h₂ := k.refs_unhold p hheld g
    omega
  · simp only [Kernel.setCwd_eq, Kernel.unhold_eq, Kernel.setProc_setProc, Kernel.setProc_proc,
      Function.update_self]
    refine wf_setProc hk.wf ⟨fun h => absurd hrun h, fun v hv hc => ?_⟩
    -- an `iput` of the current directory would have found it not yet put
    have := ((hk.wf p).ofCwd v hv hc).2
    rw [hstale] at this
    cases this

/-- `exit` clears the current directory it has put, and the process becomes a zombie. -/
theorem Inv.exitCwd (hk : Inv k) (hstale : (k.proc p).stale = true)
    (hheld : (k.proc p).held = []) (hnone : (k.proc p).iput = none) : Inv (k.exitCwd p) := by
  rw [Kernel.exitCwd_eq]
  refine hk.setProc (fun g => ?_) ⟨fun _ => ⟨rfl, rfl, hheld, hnone⟩, fun v hv => ?_⟩
  · simp [Proc.refs, Proc.cwdRef, Proc.putting, hstale, hheld, hnone]
  · simp [hnone] at hv

/-- `fork` gives the new process a reference to the current directory. -/
theorem Inv.fork (hk : Inv k) {c : Fin NPROC} {e : Fin NINODE} (hc : (k.proc c).state = .unused)
    (hcwd : (k.proc p).cwd = some e) (hfresh : (k.proc p).stale = false) :
    Inv ((k.idup e).setProc c ⟨.runnable, some e, false, [], none⟩) := by
  have hc₀ : (k.proc c).refs = fun _ => 0 := by
    funext g
    exact Proc.refs_eq_zero (hk.wf c) (by simp [hc]) g
  have hpos : 0 < (k.icache e).ref := by
    have h₁ : 1 ≤ (k.proc p).refs e :=
      Proc.one_le_refs_of_cwdRef (Proc.cwdRef_eq hcwd hfresh)
    have h₂ := k.refs_le p e
    rw [hk.acct e]
    omega
  refine hk.of_delta (x := fun _ => 0) (y := fun g => if g = e then 1 else 0) (fun g => ?_)
    (fun g => ?_) (hk.unique.setInode rfl rfl fun _ => hpos)
    (wf_setProc (fun q => by simpa [Kernel.idup] using hk.wf q)
      ⟨fun h => absurd rfl h, fun v hv => by cases hv⟩)
  · by_cases hg : g = e
    · subst hg
      simp [Kernel.idup]
    · simp [Kernel.idup, hg]
  · have h := (k.idup e).refs_setProc c ⟨.runnable, some e, false, [], none⟩ g
    have hr : (k.idup e).refs = k.refs :=
      Kernel.refs_of (Kernel.setInode_file k e _) (Kernel.setInode_proc k e _)
    -- the new process holds the one reference to the directory, where it held none
    have hnew : (⟨.runnable, some e, false, [], none⟩ : Proc).refs g = if g = e then 1 else 0 := by
      by_cases hg : g = e
      · subst hg
        simp [Proc.refs, Proc.cwdRef, Proc.putting]
      · simp [Proc.refs, Proc.cwdRef, Proc.putting, Ne.symm hg, hg]
    have hold : ((k.idup e).proc c).refs g = 0 := by
      rw [show (k.idup e).proc = k.proc from rfl, hc₀]
    rw [hr, hnew, hold] at h
    omega

theorem Inv.reap (hk : Inv k) {c : Fin NPROC} (hz : (k.proc c).state = .zombie) :
    Inv (k.setProc c Proc.unused) :=
  hk.setProc (fun g => by
      rw [Proc.refs_eq_zero (hk.wf c) (by simp [hz]) g]
      simp [Proc.unused, Proc.refs, Proc.cwdRef, Proc.putting])
    ⟨fun _ => ⟨rfl, rfl, rfl, rfl⟩, fun v hv => by cases hv⟩

end Steps

/-- Every step keeps the invariant. -/
theorem Inv.step {k k' : Kernel} (hk : Inv k) (hs : Step k k') : Inv k' := by
  cases hs with
  | iget p dev inum hrun _ _ h => exact hk.iget hrun h
  | idup p e hrun _ hheld =>
    refine hk.idup hrun ?_
    rw [hk.acct e]
    exact Nat.lt_of_lt_of_le (Proc.one_le_refs_of_held hheld) (k.refs_le p e)
  | idupCwd p e hrun _ hcwd hfresh =>
    refine hk.idup hrun ?_
    rw [hk.acct e]
    exact Nat.lt_of_lt_of_le
      (Proc.one_le_refs_of_cwdRef (Proc.cwdRef_eq hcwd hfresh)) (k.refs_le p e)
  | ilock p e _ _ _ h => exact hk.ilock h
  | iunlock p e _ _ h => exact hk.iunlock h
  | setNlink p e n _ _ _ _ => exact hk.setNlink e n
  | ialloc p dev type hrun _ h h' =>
    obtain ⟨-, rfl⟩ := Kernel.ialloc_ok h
    exact (hk.setDisk _ _ _).iget hrun h'
  | iput p e hrun hheld hnone => exact hk.iput hrun hheld hnone
  | iputCwd p e hrun hcwd hfresh hnone => exact hk.iputCwd hrun hcwd hfresh hnone
  | iputStep p u hrun hu _ => exact hk.iputStep hrun hu
  | fileOpen p f e hrun _ hheld hf => exact hk.fileOpen hrun hheld hf
  | fileClose p f e hrun _ hf => exact hk.fileClose hrun hf
  | chdir p e hrun _ hheld hstale => exact hk.chdir hrun hheld hstale
  | exit p _ hstale hheld hnone => exact hk.exitCwd hstale hheld hnone
  | fork p c e _ _ hc hcwd hfresh => exact hk.fork hc hcwd hfresh
  | reap c hz => exact hk.reap hz

theorem inv_of_reach {disk : Nat → Nat → DInode} {k : Kernel}
    (hreach : Relation.ReflTransGen Step (Kernel.boot disk) k) : Inv k := by
  induction hreach with
  | refl => exact inv_boot disk
  | tail _ hs ih => exact ih.step hs

/-! ### What holds over every run -/

namespace Kernel

/-- The pointers to entry `e`: open files' `f->ip`, processes' `cwd`, the pointers calls hold
in local variables, and those the calls' `iput`s are putting. -/
def pointers (k : Kernel) (e : Fin NINODE) : Nat :=
  k.fileRefs e + ∑ p, ((if (k.proc p).cwd = some e then 1 else 0) + (k.proc p).held.count e +
    if (k.proc p).putting = some e then 1 else 0)

/-- Where no current directory has been put and not yet set again, the references to an entry
are the pointers to it. -/
theorem refs_eq_pointers {k : Kernel} (h : ∀ p, (k.proc p).stale = false) (e : Fin NINODE) :
    k.refs e = k.pointers e := by
  have hp (p : Fin NPROC) : (k.proc p).refs e = (if (k.proc p).cwd = some e then 1 else 0) +
      (k.proc p).held.count e + if (k.proc p).putting = some e then 1 else 0 := by
    simp only [Proc.refs, Proc.cwdRef, h p, Bool.false_eq_true, if_false]
  unfold refs pointers
  rw [Finset.sum_congr rfl fun p _ => hp p]

theorem two_le_pointers (k : Kernel) (p : Fin NPROC) {e : Fin NINODE}
    (hcwd : (k.proc p).cwd = some e) (hheld : e ∈ (k.proc p).held) : 2 ≤ k.pointers e := by
  have h₁ := Finset.single_le_sum (f := fun p => (if (k.proc p).cwd = some e then 1 else 0) +
    (k.proc p).held.count e + if (k.proc p).putting = some e then 1 else 0)
    (fun _ _ => Nat.zero_le _) (Finset.mem_univ p)
  have h₂ := List.count_pos_iff.mpr hheld
  rw [if_pos hcwd] at h₁
  unfold pointers
  omega

end Kernel

/-- An `iput` in progress holds a reference to its entry: the current directory's, or the
pointer it was handed. -/
theorem Inv.one_le_refs_of_iput {k : Kernel} (hk : Inv k) {p : Fin NPROC} {u : Iput}
    (hu : (k.proc p).iput = some u) :
    (u.ofCwd = true ∧ (k.proc p).cwdRef = some u.ip) ∨
      (u.ofCwd = false ∧ (k.proc p).putting = some u.ip) := by
  cases hc : u.ofCwd
  · exact .inr ⟨rfl, by simp [Proc.putting, hu, hc]⟩
  · obtain ⟨hcwd, hst⟩ := (hk.wf p).ofCwd u hu hc
    exact .inl ⟨rfl, by simp [Proc.cwdRef, hcwd, hst]⟩

/-- When an `iput` finds `ref == 1`, its own reference is the only one to the entry. -/
theorem Inv.sole_of_ref_eq_one {k : Kernel} (hk : Inv k) {p : Fin NPROC} {u : Iput}
    (hu : (k.proc p).iput = some u) (h1 : (k.icache u.ip).ref = 1) :
    (∀ f, k.file f ≠ some u.ip) ∧
      (∀ q, (k.proc q).cwdRef = some u.ip → q = p ∧ u.ofCwd = true) ∧
      (∀ q, u.ip ∉ (k.proc q).held) ∧
      (∀ q v, (k.proc q).iput = some v → v.ip = u.ip → q = p) := by
  have htot : k.refs u.ip = 1 := by rw [← hk.acct u.ip, h1]
  -- the references of the `iput`'s own process: its own, and nothing else
  have hown : (k.proc p).refs u.ip = 1 := by
    have := k.refs_le p u.ip
    rcases hk.one_le_refs_of_iput hu with ⟨-, h⟩ | ⟨-, h⟩
    · have := Proc.one_le_refs_of_cwdRef h
      omega
    · have := Proc.one_le_refs_of_putting h
      omega
  -- any other process holding a reference would make two
  have hother (q : Fin NPROC) (hq : 1 ≤ (k.proc q).refs u.ip) : q = p := by
    by_contra hqp
    have := k.refs_add_le hqp u.ip
    omega
  refine ⟨fun f hf => ?_, fun q hq => ?_, fun q hq => ?_, fun q v hv he => ?_⟩
  · have := k.refs_file_add_le p hf
    omega
  · have hqp := hother q (Proc.one_le_refs_of_cwdRef hq)
    subst hqp
    refine ⟨rfl, ?_⟩
    rcases hk.one_le_refs_of_iput hu with ⟨hc, -⟩ | ⟨-, hput⟩
    · exact hc
    · -- the current directory's reference and the one handed to `iput` would make two
      unfold Proc.refs at hown
      rw [if_pos hq, if_pos hput] at hown
      omega
  · have hqp := hother q (Proc.one_le_refs_of_held hq)
    subst hqp
    have := List.count_pos_iff.mpr hq
    unfold Proc.refs at hown
    rcases hk.one_le_refs_of_iput hu with ⟨-, h⟩ | ⟨-, h⟩
    · rw [if_pos h] at hown
      omega
    · rw [if_pos h] at hown
      omega
  · rcases hk.one_le_refs_of_iput hv with ⟨-, h⟩ | ⟨-, h⟩
    · rw [he] at h
      exact hother q (Proc.one_le_refs_of_cwdRef h)
    · rw [he] at h
      exact hother q (Proc.one_le_refs_of_putting h)

/-- The disk `mkfs` leaves for the root directory, as `ilock` reads it. -/
def rootDisk : Nat → Nat → DInode := fun _ _ => ⟨T_DIR, 1⟩

/-- Process 0 in `sys_chdir("/")`, once `namei` has got the root again. -/
def chdirNamei : Kernel :=
  ((Kernel.boot rootDisk).idup ⟨0, NINODE_pos⟩).hold ⟨0, NPROC_pos⟩ ⟨0, NINODE_pos⟩

/-- Process 0 in `sys_chdir("/")` once `iput(curproc->cwd)` has returned, with
`curproc->cwd = ip` still to come. -/
def chdirWindow : Kernel :=
  let u : Iput := ⟨⟨0, NINODE_pos⟩, .acquire, true⟩
  ((((chdirNamei.startIput ⟨0, NPROC_pos⟩ u).iputStep ⟨0, NPROC_pos⟩ u).iputStep ⟨0, NPROC_pos⟩
    { u with phase := .check }).iputStep ⟨0, NPROC_pos⟩ { u with phase := .release }).iputStep
    ⟨0, NPROC_pos⟩ { u with phase := .drop }

theorem chdirWindow_reach : Relation.ReflTransGen Step (Kernel.boot rootDisk) chdirWindow := by
  let p₀ : Fin NPROC := ⟨0, by decide⟩
  let u : Iput := ⟨⟨0, by decide⟩, .acquire, true⟩
  let k₂ := chdirNamei.startIput p₀ u
  let k₃ := k₂.iputStep p₀ u
  let k₄ := k₃.iputStep p₀ { u with phase := .check }
  let k₅ := k₄.iputStep p₀ { u with phase := .release }
  have h₁ : Step (Kernel.boot rootDisk) chdirNamei := .iget _ p₀ ROOTDEV ROOTINO rfl rfl (by decide) rfl
  have h₂ : Step chdirNamei k₂ := .iputCwd _ p₀ u.ip rfl rfl rfl rfl
  have h₃ : Step k₂ k₃ := .iputStep _ p₀ u rfl rfl fun _ => rfl
  have h₄ : Step k₃ k₄ := .iputStep _ p₀ { u with phase := .check } rfl rfl nofun
  have h₅ : Step k₄ k₅ := .iputStep _ p₀ { u with phase := .release } rfl rfl nofun
  have h₆ : Step k₅ chdirWindow := .iputStep _ p₀ { u with phase := .drop } rfl rfl nofun
  exact (((((Relation.ReflTransGen.single h₁).tail h₂).tail h₃).tail h₄).tail h₅).tail h₆

end Xv6.Inodes
