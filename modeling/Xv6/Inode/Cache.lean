import Xv6.Param
import Mathlib.Logic.Relation
import Mathlib.Data.List.FinRange

/-!
# The inode cache

`icache` keeps `NINODE` in-memory inodes. `iget` finds the entry that caches an inode, or
recycles one nobody refers to, and counts a reference; `idup` counts another; `iput` drops
one, and when it drops the last reference to a valid inode with no links it first truncates
and frees the inode on disk. `ilock` takes an entry's sleep-lock and reads the inode from
disk if the entry is not valid.

An entry is referred to by open files (`f->ip`), by processes' current directories and by
the pointers system calls hold in local variables. One step is one critical section: under
`icache.lock` for `ref`, `dev` and `inum`, or under the entry's sleep-lock for the fields it
protects. Which pointer a call gets or drops next is left open: a step is any of these
operations on a pointer the process holds, so the calls of `namex`, `create`, `sys_open`,
`sys_link`, `sys_unlink`, `sys_chdir`, `exec`, `fileclose`, `fork` and `exit` are among the
runs. `iget` comes from `namex`, for the root or an entry of a directory it has locked, so the
inode has links; or from `ialloc`, for the inode it has just allocated. A process whose `iput`
is in progress does nothing else until it returns. The inode's size and blocks (`itrunc`,
`bmap`) are not modelled here.
-/

namespace Xv6.Inodes

/-- `T_DIR`. -/
def T_DIR : Nat := 1

/-- `NINODES`: the inodes `mkfs` puts on the disk (`sb.ninodes`). -/
def NINODES : Nat := 200

/-- The fields of `struct dinode` that `ilock` reads and `iupdate` writes, less the device
numbers, the size and the block addresses. -/
structure DInode where
  type : Nat
  nlink : Nat

/-- `struct inode`, less the device numbers, the size and the block addresses; `lock` is the
process that holds `ip->lock`. -/
structure Inode where
  dev : Nat
  inum : Nat
  ref : Nat
  lock : Option (Fin NPROC)
  valid : Bool
  type : Nat
  nlink : Nat

/-- An entry of the zeroed `icache`. -/
def Inode.zero : Inode := ⟨0, 0, 0, none, false, 0, 0⟩

/-- The fields `iget` sets on the entry it recycles. -/
def Inode.recycle (ip : Inode) (dev inum : Nat) : Inode :=
  { ip with dev := dev, inum := inum, ref := 1, valid := false }

/-- Where a call of `iput` is. -/
inductive Phase where
  /-- `acquiresleep(&ip->lock)` is next -/
  | acquire
  /-- the test of `ip->valid && ip->nlink == 0`, and the read of `ip->ref`, are next -/
  | check
  /-- `ip->ref` was 1: `itrunc`, `ip->type = 0`, `iupdate` and `ip->valid = 0` are next -/
  | free
  /-- `releasesleep(&ip->lock)` is next -/
  | release
  /-- `ip->ref--` under `icache.lock` is next -/
  | drop
  deriving DecidableEq

/-- An `iput` in progress, of the entry `ip`: the process's current directory when `ofCwd`
holds (`exit`, `sys_chdir`), otherwise a pointer the call held. -/
structure Iput where
  ip : Fin NINODE
  phase : Phase
  ofCwd : Bool

/-- `enum procstate`, with `EMBRYO`, `SLEEPING` and `RUNNING` counted as runnable. -/
inductive ProcState where
  | unused
  | runnable
  | zombie
  deriving DecidableEq

/-- The part of `struct proc` that refers to inodes, and the pointers of the call it runs. -/
structure Proc where
  state : ProcState
  cwd : Option (Fin NINODE)
  /-- `iput(curproc->cwd)` has returned and `curproc->cwd` is not yet set again -/
  stale : Bool
  /-- the pointers the call in progress holds in its local variables -/
  held : List (Fin NINODE)
  iput : Option Iput

/-- A process table entry nobody runs. -/
def Proc.unused : Proc := ⟨.unused, none, false, [], none⟩

/-- `icache`, the on-disk inodes of each device, the inode of each open file, and the process
table. -/
structure Kernel where
  icache : Fin NINODE → Inode
  disk : Nat → Nat → DInode
  file : Fin NFILE → Option (Fin NINODE)
  proc : Fin NPROC → Proc

/-- The kernel once `userinit` has made the first process, whose current directory
`namei("/")` got by `iget(ROOTDEV, ROOTINO)` into the first entry, on the disk `disk`. -/
def Kernel.boot (disk : Nat → Nat → DInode) : Kernel where
  icache e := if e.val = 0 then { Inode.zero with dev := ROOTDEV, inum := ROOTINO, ref := 1 }
    else Inode.zero
  disk := disk
  file _ := none
  proc p :=
    if p.val = 0 then ⟨.runnable, some ⟨0, by decide⟩, false, [], none⟩ else Proc.unused

namespace Kernel

def setInode (k : Kernel) (e : Fin NINODE) (ip : Inode) : Kernel :=
  { k with icache := Function.update k.icache e ip }

def setProc (k : Kernel) (p : Fin NPROC) (pr : Proc) : Kernel :=
  { k with proc := Function.update k.proc p pr }

def setFile (k : Kernel) (f : Fin NFILE) (o : Option (Fin NINODE)) : Kernel :=
  { k with file := Function.update k.file f o }

/-- Write an on-disk inode (`iupdate`, or `ialloc`'s `log_write`). -/
def setDisk (k : Kernel) (dev inum : Nat) (d : DInode) : Kernel :=
  { k with disk := Function.update k.disk dev (Function.update (k.disk dev) inum d) }

/-- The call of process `p` gets pointer `e`. -/
def hold (k : Kernel) (p : Fin NPROC) (e : Fin NINODE) : Kernel :=
  k.setProc p { k.proc p with held := e :: (k.proc p).held }

/-- The call of process `p` gives pointer `e` away. -/
def unhold (k : Kernel) (p : Fin NPROC) (e : Fin NINODE) : Kernel :=
  k.setProc p { k.proc p with held := (k.proc p).held.erase e }

/-- `curproc->cwd = o`. -/
def setCwd (k : Kernel) (p : Fin NPROC) (o : Option (Fin NINODE)) : Kernel :=
  k.setProc p { k.proc p with cwd := o, stale := false }

/-- Process `p` starts the `iput` `u`. -/
def startIput (k : Kernel) (p : Fin NPROC) (u : Iput) : Kernel :=
  k.setProc p { k.proc p with iput := some u }

/-- `exit`'s `curproc->cwd = 0`, and the process becomes a zombie. -/
def exitCwd (k : Kernel) (p : Fin NPROC) : Kernel :=
  k.setProc p { k.proc p with state := .zombie, cwd := none, stale := false }

section Updates

variable (k : Kernel) (e : Fin NINODE) (ip : Inode) (p : Fin NPROC) (pr : Proc)
  (f : Fin NFILE) (o : Option (Fin NINODE))

@[simp] theorem setInode_icache : (k.setInode e ip).icache = Function.update k.icache e ip := rfl
@[simp] theorem setInode_proc : (k.setInode e ip).proc = k.proc := rfl
@[simp] theorem setInode_file : (k.setInode e ip).file = k.file := rfl
@[simp] theorem setInode_disk : (k.setInode e ip).disk = k.disk := rfl
@[simp] theorem setProc_disk : (k.setProc p pr).disk = k.disk := rfl
@[simp] theorem setFile_disk : (k.setFile f o).disk = k.disk := rfl
@[simp] theorem setProc_proc : (k.setProc p pr).proc = Function.update k.proc p pr := rfl
@[simp] theorem setProc_icache : (k.setProc p pr).icache = k.icache := rfl
@[simp] theorem setProc_file : (k.setProc p pr).file = k.file := rfl
@[simp] theorem setFile_file : (k.setFile f o).file = Function.update k.file f o := rfl
@[simp] theorem setFile_icache : (k.setFile f o).icache = k.icache := rfl
@[simp] theorem setFile_proc : (k.setFile f o).proc = k.proc := rfl
@[simp] theorem setDisk_icache (dev inum : Nat) (d : DInode) :
    (k.setDisk dev inum d).icache = k.icache := rfl
@[simp] theorem setDisk_proc (dev inum : Nat) (d : DInode) : (k.setDisk dev inum d).proc = k.proc :=
  rfl
@[simp] theorem setDisk_file (dev inum : Nat) (d : DInode) : (k.setDisk dev inum d).file = k.file :=
  rfl

theorem disk_setDisk (dev inum : Nat) (d : DInode) (dev' inum' : Nat) :
    (k.setDisk dev inum d).disk dev' inum' = if dev' = dev ∧ inum' = inum then d else k.disk dev' inum' := by
  unfold setDisk
  by_cases hd : dev' = dev
  · subst hd
    by_cases hi : inum' = inum
    · subst hi
      simp
    · simp [hi]
  · simp [hd]

@[simp] theorem setProc_setProc (pr' : Proc) : (k.setProc p pr).setProc p pr' = k.setProc p pr' := by
  unfold setProc
  rw [Function.update_idem]

@[simp] theorem hold_eq :
    k.hold p e = k.setProc p { k.proc p with held := e :: (k.proc p).held } := rfl
@[simp] theorem unhold_eq :
    k.unhold p e = k.setProc p { k.proc p with held := (k.proc p).held.erase e } := rfl
@[simp] theorem setCwd_eq : k.setCwd p o = k.setProc p { k.proc p with cwd := o, stale := false } :=
  rfl
@[simp] theorem startIput_eq (u : Iput) :
    k.startIput p u = k.setProc p { k.proc p with iput := some u } := rfl
@[simp] theorem exitCwd_eq :
    k.exitCwd p = k.setProc p { k.proc p with state := .zombie, cwd := none, stale := false } := rfl

end Updates

/-! ### `iget`, `idup`, `ilock`, `iunlock` -/

/-- `iget`'s test of each entry: it caches the inode and somebody refers to it. -/
def caches (ip : Inode) (dev inum : Nat) : Bool := 0 < ip.ref && ip.dev == dev && ip.inum == inum

/-- `iget`'s scan for the entry that caches the inode. -/
def cached (k : Kernel) (dev inum : Nat) : Option (Fin NINODE) :=
  (List.finRange NINODE).find? fun e => caches (k.icache e) dev inum

/-- `iget`'s `empty`: the first entry nobody refers to. -/
def empty (k : Kernel) : Option (Fin NINODE) :=
  (List.finRange NINODE).find? fun e => (k.icache e).ref == 0

/-- `iget(dev, inum)`: one more reference to the entry that caches the inode, or else to a
recycled one. -/
def iget (k : Kernel) (dev inum : Nat) : Except String (Fin NINODE × Kernel) :=
  match k.cached dev inum with
  | some e => .ok (e, k.setInode e { k.icache e with ref := (k.icache e).ref + 1 })
  | none =>
    match k.empty with
    | some e => .ok (e, k.setInode e ((k.icache e).recycle dev inum))
    | none => .error "iget: no inodes"

section Iget

variable {k k₁ : Kernel} {dev inum : Nat} {e : Fin NINODE}

/-- What `iget` can do: count one more reference to the entry caching the inode, or recycle
the first entry nobody refers to when none caches it. -/
theorem iget_ok (h : k.iget dev inum = .ok (e, k₁)) :
    (k.cached dev inum = some e ∧
        k₁ = k.setInode e { k.icache e with ref := (k.icache e).ref + 1 }) ∨
      (k.cached dev inum = none ∧ k.empty = some e ∧
        k₁ = k.setInode e ((k.icache e).recycle dev inum)) := by
  unfold iget at h
  split at h
  · rename_i e' he
    simp only [Except.ok.injEq, Prod.mk.injEq] at h
    obtain ⟨rfl, rfl⟩ := h
    exact .inl ⟨he, rfl⟩
  · rename_i hc
    split at h
    · rename_i e' he
      simp only [Except.ok.injEq, Prod.mk.injEq] at h
      obtain ⟨rfl, rfl⟩ := h
      exact .inr ⟨hc, he, rfl⟩
    · cases h

theorem caches_of_cached (h : k.cached dev inum = some e) : caches (k.icache e) dev inum = true :=
  by simpa using List.find?_some h

theorem not_caches_of_cached (h : k.cached dev inum = none) (x : Fin NINODE) :
    caches (k.icache x) dev inum = false := by
  simpa using List.find?_eq_none.mp h x (List.mem_finRange x)

theorem ref_of_empty (h : k.empty = some e) : (k.icache e).ref = 0 := by
  simpa using List.find?_some h

end Iget

/-- `idup(ip)`. -/
def idup (k : Kernel) (e : Fin NINODE) : Kernel :=
  k.setInode e { k.icache e with ref := (k.icache e).ref + 1 }

/-- `ilock(ip)` by process `p`, once the sleep-lock is free: take it, and read the inode if
the entry is not valid. -/
def ilock (k : Kernel) (p : Fin NPROC) (e : Fin NINODE) : Except String Kernel :=
  let ip := k.icache e
  if ip.ref < 1 then .error "ilock"
  else if ip.valid then .ok (k.setInode e { ip with lock := some p })
  else
    let d := k.disk ip.dev ip.inum
    if d.type = 0 then .error "ilock: no type"
    else .ok (k.setInode e
      { ip with lock := some p, type := d.type, nlink := d.nlink, valid := true })

/-- `iunlock(ip)` by process `p`. -/
def iunlock (k : Kernel) (p : Fin NPROC) (e : Fin NINODE) : Except String Kernel :=
  let ip := k.icache e
  if ip.lock ≠ some p ∨ ip.ref < 1 then .error "iunlock"
  else .ok (k.setInode e { ip with lock := none })

/-- `ip->nlink = n; iupdate(ip);` by the holder of the sleep-lock (`sys_link`, `sys_unlink`,
`create`). -/
def setNlink (k : Kernel) (e : Fin NINODE) (n : Nat) : Kernel :=
  let ip := k.icache e
  (k.setInode e { ip with nlink := n }).setDisk ip.dev ip.inum ⟨ip.type, n⟩

/-- `ialloc(dev, type)`'s scan for a free on-disk inode, from inode 1. -/
def freeInum (k : Kernel) (dev : Nat) : Option Nat :=
  (List.range' 1 (NINODES - 1)).find? fun inum => (k.disk dev inum).type == 0

/-- `ialloc(dev, type)` up to its `iget`: mark a free on-disk inode allocated. -/
def ialloc (k : Kernel) (dev type : Nat) : Except String (Nat × Kernel) :=
  match k.freeInum dev with
  | some inum => .ok (inum, k.setDisk dev inum ⟨type, 0⟩)
  | none => .error "ialloc: no inodes"

/-- What `ialloc` can do: write a free on-disk inode, allocated with no links. -/
theorem ialloc_ok {k k₁ : Kernel} {dev type inum : Nat} (h : k.ialloc dev type = .ok (inum, k₁)) :
    (k.disk dev inum).type = 0 ∧ k₁ = k.setDisk dev inum ⟨type, 0⟩ := by
  unfold ialloc at h
  split at h
  · rename_i inum' hfree
    simp only [Except.ok.injEq, Prod.mk.injEq] at h
    obtain ⟨rfl, rfl⟩ := h
    exact ⟨by simpa using List.find?_some hfree, rfl⟩
  · cases h

/-! ### `iput` -/

/-- Process `p` moves to the next phase of its `iput`. -/
def setPhase (k : Kernel) (p : Fin NPROC) (u : Iput) (ph : Phase) : Kernel :=
  k.setProc p { k.proc p with iput := some { u with phase := ph } }

/-- `iput` returns: a current directory put stays in `curproc->cwd` until the caller sets it. -/
def endIput (k : Kernel) (p : Fin NPROC) (ofCwd : Bool) : Kernel :=
  k.setProc p { k.proc p with iput := none, stale := ofCwd || (k.proc p).stale }

/-- One step of the `iput` `u` of process `p`. -/
def iputStep (k : Kernel) (p : Fin NPROC) (u : Iput) : Kernel :=
  let ip := k.icache u.ip
  match u.phase with
  | .acquire => (k.setInode u.ip { ip with lock := some p }).setPhase p u .check
  | .check =>
    -- `ip->valid && ip->nlink == 0`, then `r = ip->ref` under `icache.lock`, and `r == 1`
    if ip.valid && ip.nlink == 0 && ip.ref == 1 then k.setPhase p u .free
    else k.setPhase p u .release
  | .free =>
    -- `itrunc(ip); ip->type = 0; iupdate(ip); ip->valid = 0;`
    (((k.setInode u.ip { ip with type := 0, valid := false }).setDisk ip.dev ip.inum
      ⟨0, ip.nlink⟩)).setPhase p u .release
  | .release => (k.setInode u.ip { ip with lock := none }).setPhase p u .drop
  | .drop => (k.setInode u.ip { ip with ref := ip.ref - 1 }).endIput p u.ofCwd

end Kernel

/-- A step of one process, or `wait` reaping a zombie. A process takes a step only while it
runs, and does nothing else while its `iput` is in progress; `acquiresleep` waits while another
holds the lock. -/
inductive Step : Kernel → Kernel → Prop where
  /-- `namex`'s `iget` of the root or of the inode `dirlookup` found in the locked directory:
  a linked inode, whose link count `sys_unlink` lowers only after it erased the entry -/
  | iget (k : Kernel) (p : Fin NPROC) (dev inum : Nat) {e : Fin NINODE} {k₁ : Kernel}
      (hrun : (k.proc p).state = .runnable) (hnone : (k.proc p).iput = none)
      (hlink : 1 ≤ (k.disk dev inum).nlink) (h : k.iget dev inum = .ok (e, k₁)) :
      Step k (k₁.hold p e)
  /-- `idup` of a pointer the call holds -/
  | idup (k : Kernel) (p : Fin NPROC) (e : Fin NINODE)
      (hrun : (k.proc p).state = .runnable) (hnone : (k.proc p).iput = none)
      (hheld : e ∈ (k.proc p).held) :
      Step k ((k.idup e).hold p e)
  /-- `namex`'s `idup(myproc()->cwd)` -/
  | idupCwd (k : Kernel) (p : Fin NPROC) (e : Fin NINODE)
      (hrun : (k.proc p).state = .runnable) (hnone : (k.proc p).iput = none)
      (hcwd : (k.proc p).cwd = some e) (hfresh : (k.proc p).stale = false) :
      Step k ((k.idup e).hold p e)
  | ilock (k : Kernel) (p : Fin NPROC) (e : Fin NINODE) {k' : Kernel}
      (hrun : (k.proc p).state = .runnable) (hnone : (k.proc p).iput = none)
      (hfree : (k.icache e).lock = none) (h : k.ilock p e = .ok k') : Step k k'
  | iunlock (k : Kernel) (p : Fin NPROC) (e : Fin NINODE) {k' : Kernel}
      (hrun : (k.proc p).state = .runnable) (hnone : (k.proc p).iput = none)
      (h : k.iunlock p e = .ok k') : Step k k'
  /-- `sys_link`, `sys_unlink` or `create` sets the link count of an inode it holds and has
  locked -/
  | setNlink (k : Kernel) (p : Fin NPROC) (e : Fin NINODE) (n : Nat)
      (hrun : (k.proc p).state = .runnable) (hnone : (k.proc p).iput = none)
      (hheld : e ∈ (k.proc p).held) (hlock : (k.icache e).lock = some p) :
      Step k (k.setNlink e n)
  /-- `ialloc`: a free on-disk inode marked allocated, and `return iget(dev, inum)` -/
  | ialloc (k : Kernel) (p : Fin NPROC) (dev type : Nat) {inum : Nat} {e : Fin NINODE}
      {k₁ k₂ : Kernel} (hrun : (k.proc p).state = .runnable) (hnone : (k.proc p).iput = none)
      (h : k.ialloc dev type = .ok (inum, k₁)) (h' : k₁.iget dev inum = .ok (e, k₂)) :
      Step k (k₂.hold p e)
  /-- `iput` of a pointer the call holds -/
  | iput (k : Kernel) (p : Fin NPROC) (e : Fin NINODE)
      (hrun : (k.proc p).state = .runnable) (hheld : e ∈ (k.proc p).held)
      (hnone : (k.proc p).iput = none) :
      Step k ((k.unhold p e).startIput p ⟨e, .acquire, false⟩)
  /-- `iput(curproc->cwd)` in `exit` or `sys_chdir` -/
  | iputCwd (k : Kernel) (p : Fin NPROC) (e : Fin NINODE)
      (hrun : (k.proc p).state = .runnable) (hcwd : (k.proc p).cwd = some e)
      (hfresh : (k.proc p).stale = false) (hnone : (k.proc p).iput = none) :
      Step k (k.startIput p ⟨e, .acquire, true⟩)
  | iputStep (k : Kernel) (p : Fin NPROC) (u : Iput)
      (hrun : (k.proc p).state = .runnable) (hu : (k.proc p).iput = some u)
      (hfree : u.phase = .acquire → (k.icache u.ip).lock = none) :
      Step k (k.iputStep p u)
  /-- `sys_open`'s `f->ip = ip` into a file `filealloc` gave -/
  | fileOpen (k : Kernel) (p : Fin NPROC) (f : Fin NFILE) (e : Fin NINODE)
      (hrun : (k.proc p).state = .runnable) (hnone : (k.proc p).iput = none)
      (hheld : e ∈ (k.proc p).held) (hf : k.file f = none) :
      Step k ((k.setFile f (some e)).unhold p e)
  /-- `fileclose` of the last reference to an inode file: `ff = *f`, then `iput(ff.ip)` -/
  | fileClose (k : Kernel) (p : Fin NPROC) (f : Fin NFILE) (e : Fin NINODE)
      (hrun : (k.proc p).state = .runnable) (hnone : (k.proc p).iput = none)
      (hf : k.file f = some e) :
      Step k ((k.setFile f none).hold p e)
  /-- `sys_chdir`'s `curproc->cwd = ip` -/
  | chdir (k : Kernel) (p : Fin NPROC) (e : Fin NINODE)
      (hrun : (k.proc p).state = .runnable) (hnone : (k.proc p).iput = none)
      (hheld : e ∈ (k.proc p).held) (hstale : (k.proc p).stale = true) :
      Step k ((k.unhold p e).setCwd p (some e))
  /-- `exit`'s `curproc->cwd = 0`, and the process becomes a zombie -/
  | exit (k : Kernel) (p : Fin NPROC)
      (hrun : (k.proc p).state = .runnable) (hstale : (k.proc p).stale = true)
      (hheld : (k.proc p).held = []) (hnone : (k.proc p).iput = none) :
      Step k (k.exitCwd p)
  /-- `fork`'s `np->cwd = idup(curproc->cwd)` for an unused process `c`, which then runs -/
  | fork (k : Kernel) (p c : Fin NPROC) (e : Fin NINODE)
      (hrun : (k.proc p).state = .runnable) (hnone : (k.proc p).iput = none)
      (hc : (k.proc c).state = .unused) (hcwd : (k.proc p).cwd = some e)
      (hfresh : (k.proc p).stale = false) :
      Step k ((k.idup e).setProc c ⟨.runnable, some e, false, [], none⟩)
  | reap (k : Kernel) (c : Fin NPROC) (hz : (k.proc c).state = .zombie) :
      Step k (k.setProc c Proc.unused)

end Xv6.Inodes
