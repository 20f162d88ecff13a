import Xv6.Param
import Mathlib.Logic.Relation
import Mathlib.Data.List.FinRange
import Mathlib.Data.Fin.Tuple.Basic

/-!
# The process table

`ptable` holds `NPROC` slots. `allocproc` turns the first `UNUSED` slot into an `EMBRYO`
and gives it pid `nextpid++`; `fork` then allocates its kernel stack and copies the
caller's address space, and either makes the child `RUNNABLE` with the caller as parent or
puts the slot back to `UNUSED`. `exit` wakes the parent, passes the caller's children to
`initproc` and leaves the caller `ZOMBIE`; `wait` reaps the first `ZOMBIE` child, frees its
kernel stack and address space and clears the slot, or fails, or sleeps. `kill(pid)` marks
the first slot whose pid matches and wakes it.

One step is one critical section under `ptable.lock`, or one of `fork`'s steps outside it.
`fork`'s steps are not tied to the process that ran `allocproc`: any `EMBRYO` slot may be
completed, by any running process, which only adds runs. Pages are physical addresses, `0`
for none. A slot's address space is the list of pages `freevm(p->pgdir)` frees, in the
order it frees them; `copyuvm` is left open except for what it takes from and gives back to
the free list.
-/

namespace Xv6.Procs

/-- `enum procstate`. -/
inductive ProcState where
  | unused
  | embryo
  | sleeping
  | runnable
  | running
  | zombie
  deriving DecidableEq, Repr

/-- What a process sleeps on: `wait` sleeps on the process itself, every other sleeper on
some other address (a buffer, a pipe, the log, `ticks`). -/
inductive Chan where
  | proc (p : Fin NPROC)
  | other (n : Nat)
  deriving DecidableEq

/-- The fields of `struct proc` that `allocproc`, `fork`, `exit`, `wait` and `kill` read and
write. `pgdir` is the list of pages of `p->pgdir`, empty for a null pointer. -/
structure Proc where
  state : ProcState
  pid : Int32
  parent : Option (Fin NPROC)
  killed : Bool
  chan : Option Chan
  kstack : Nat
  pgdir : List Nat

/-- A zeroed slot of `ptable`. -/
def Proc.unused : Proc := ⟨.unused, 0, none, false, none, 0, []⟩

/-- `ptable.proc`, `nextpid` and `kmem.freelist`. -/
structure Kernel where
  proc : Fin NPROC → Proc
  nextpid : Int32
  kmem : List Nat

/-- The slot `userinit` gives the first process, the first one `allocproc` finds. -/
def initproc : Fin NPROC := ⟨0, NPROC_pos⟩

/-- The pages `kinit1` and `kinit2` put on the free list, after `userinit` has taken the
first process's kernel stack and address space: distinct page addresses, none zero. -/
structure Boot where
  kstack : Nat
  pgdir : List Nat
  free : List Nat
  nodup : (kstack :: (pgdir ++ free)).Nodup
  ne_zero : 0 ∉ kstack :: (pgdir ++ free)

/-- The table once `userinit` has run: `initproc` is `RUNNABLE` with pid 1. -/
def Kernel.boot (b : Boot) : Kernel where
  proc p := if p = initproc then ⟨.runnable, 1, none, false, none, b.kstack, b.pgdir⟩
    else Proc.unused
  nextpid := 2
  kmem := b.free

/-- `kfree(v)`: the page goes on the head of the free list. -/
def kfree (m : List Nat) (v : Nat) : List Nat := v :: m

/-- `freevm`: every page of the address space is freed, in order. -/
def freevm (m : List Nat) (pages : List Nat) : List Nat := pages.foldl kfree m

theorem freevm_eq (m pages : List Nat) : freevm m pages = pages.reverse ++ m := by
  induction pages generalizing m with
  | nil => rfl
  | cons v pages ih => simp [freevm, kfree] at ih ⊢; rw [ih]

/-- A process is active (can have children and run system calls) in these states. -/
def ProcState.active : ProcState → Bool
  | .unused => false
  | .embryo => false
  | .sleeping => true
  | .runnable => true
  | .running => true
  | .zombie => false

/-- A process is live in these states: `fork` has made it `RUNNABLE`, with a parent and a
page table `p->pgdir`, and `wait` has not yet reaped it. -/
def ProcState.live : ProcState → Bool
  | .unused => false
  | .embryo => false
  | .sleeping => true
  | .runnable => true
  | .running => true
  | .zombie => true

/-- `wakeup1`'s test on one slot. -/
def wake (ch : Chan) (pr : Proc) : Proc :=
  if pr.state = .sleeping ∧ pr.chan = some ch then { pr with state := .runnable } else pr

/-- The child `fork` makes in slot `pr`: kernel stack `r`, address space `pages`, parent
`c`, `RUNNABLE`. -/
def Proc.spawn (pr : Proc) (c : Fin NPROC) (r : Nat) (pages : List Nat) : Proc :=
  { pr with state := .runnable, kstack := r, pgdir := pages, parent := some c }

/-- The fields `wait` clears in the slot it reaps. -/
def Proc.clear (pr : Proc) : Proc :=
  { pr with pid := 0, parent := none, killed := false, state := .unused, kstack := 0 }

/-- What `kill` does to the slot it finds. -/
def Proc.doKill (pr : Proc) : Proc :=
  { pr with killed := true, state := if pr.state = .sleeping then .runnable else pr.state }

/-- `exit`'s loop on one slot: a child of `c` passes to `initproc`. -/
def adopt (c : Fin NPROC) (pr : Proc) : Proc :=
  if pr.parent = some c then { pr with parent := some initproc } else pr

/-- Two versions of a slot that differ at most in what scheduling changes: the state among
the active ones, the channel and `killed`. -/
structure Proc.Resched (pr pr' : Proc) : Prop where
  parent : pr'.parent = pr.parent
  active : pr'.state.active = pr.state.active
  live : pr'.state.live = pr.state.live
  kstack : pr'.kstack = pr.kstack
  pgdir : pr'.pgdir = pr.pgdir

theorem Proc.Resched.refl (pr : Proc) : pr.Resched pr := ⟨rfl, rfl, rfl, rfl, rfl⟩

@[simp] theorem ProcState.active_unused : ProcState.unused.active = false := rfl
@[simp] theorem ProcState.active_embryo : ProcState.embryo.active = false := rfl
@[simp] theorem ProcState.active_sleeping : ProcState.sleeping.active = true := rfl
@[simp] theorem ProcState.active_runnable : ProcState.runnable.active = true := rfl
@[simp] theorem ProcState.active_running : ProcState.running.active = true := rfl
@[simp] theorem ProcState.active_zombie : ProcState.zombie.active = false := rfl
@[simp] theorem ProcState.live_unused : ProcState.unused.live = false := rfl
@[simp] theorem ProcState.live_embryo : ProcState.embryo.live = false := rfl
@[simp] theorem ProcState.live_sleeping : ProcState.sleeping.live = true := rfl
@[simp] theorem ProcState.live_runnable : ProcState.runnable.live = true := rfl
@[simp] theorem ProcState.live_running : ProcState.running.live = true := rfl
@[simp] theorem ProcState.live_zombie : ProcState.zombie.live = true := rfl

theorem ProcState.live_of_active {s : ProcState} (h : s.active) : s.live := by
  cases s <;> simp_all [ProcState.active, ProcState.live]

/-- A slot moved between two active states, its pages and parent left alone. -/
theorem Proc.resched_of_active {pr pr' : Proc} (h : pr.state.active) (h' : pr'.state.active)
    (hpar : pr'.parent = pr.parent) (hk : pr'.kstack = pr.kstack) (hpg : pr'.pgdir = pr.pgdir) :
    pr.Resched pr' :=
  ⟨hpar, by rw [h, h'], by rw [ProcState.live_of_active h, ProcState.live_of_active h'], hk, hpg⟩

theorem resched_wake (ch : Chan) (pr : Proc) : pr.Resched (wake ch pr) := by
  unfold wake
  split
  · next h => exact Proc.resched_of_active (by simp [h.1, ProcState.active]) rfl rfl rfl rfl
  · exact .refl pr

theorem Proc.resched_doKill (pr : Proc) : pr.Resched pr.doKill := by
  unfold Proc.doKill
  split
  · next h => exact ⟨rfl, by simp [h, ProcState.active], by simp [h, ProcState.live], rfl, rfl⟩
  · exact ⟨rfl, rfl, rfl, rfl, rfl⟩

@[simp] theorem adopt_state (c : Fin NPROC) (pr : Proc) : (adopt c pr).state = pr.state := by
  unfold adopt; split <;> rfl

@[simp] theorem adopt_kstack (c : Fin NPROC) (pr : Proc) : (adopt c pr).kstack = pr.kstack := by
  unfold adopt; split <;> rfl

@[simp] theorem adopt_pgdir (c : Fin NPROC) (pr : Proc) : (adopt c pr).pgdir = pr.pgdir := by
  unfold adopt; split <;> rfl

theorem adopt_parent (c : Fin NPROC) (pr : Proc) :
    (adopt c pr).parent = if pr.parent = some c then some initproc else pr.parent := by
  unfold adopt; split <;> rfl

namespace Kernel

def setProc (k : Kernel) (p : Fin NPROC) (pr : Proc) : Kernel :=
  { k with proc := Function.update k.proc p pr }

@[simp] theorem setProc_proc_self (k : Kernel) (p : Fin NPROC) (pr : Proc) :
    (k.setProc p pr).proc p = pr := by simp [setProc]

theorem setProc_proc_of_ne (k : Kernel) {p q : Fin NPROC} (pr : Proc) (h : q ≠ p) :
    (k.setProc p pr).proc q = k.proc q := by simp [setProc, h]

@[simp] theorem setProc_nextpid (k : Kernel) (p : Fin NPROC) (pr : Proc) :
    (k.setProc p pr).nextpid = k.nextpid := rfl

@[simp] theorem setProc_kmem (k : Kernel) (p : Fin NPROC) (pr : Proc) :
    (k.setProc p pr).kmem = k.kmem := rfl

/-- The slot `allocproc`'s scan stops at. -/
def firstUnused (k : Kernel) : Option (Fin NPROC) :=
  Fin.find? fun p => (k.proc p).state == .unused

/-- `allocproc` up to `release(&ptable.lock)`: `p->state = EMBRYO; p->pid = nextpid++`. -/
def allocproc (k : Kernel) (p : Fin NPROC) : Kernel :=
  { k.setProc p { k.proc p with state := .embryo, pid := k.nextpid } with
    nextpid := k.nextpid + 1 }

/-- `allocproc`'s `kalloc` of the kernel stack failed: `p->kstack` is `0` and the slot is
`UNUSED` again, its pid and `killed` left as they were. -/
def kstackFail (k : Kernel) (p : Fin NPROC) : Kernel :=
  k.setProc p { k.proc p with state := .unused, kstack := 0 }

/-- `fork`'s `copyuvm` failed after the kernel stack `r` was allocated: `kfree(np->kstack)`,
`np->kstack = 0`, `np->pgdir = 0` and `np->state = UNUSED`; `m` is the free list that
`copyuvm` left. -/
def copyFail (k : Kernel) (p : Fin NPROC) (r : Nat) (m : List Nat) : Kernel :=
  { k.setProc p { k.proc p with state := .unused, kstack := 0, pgdir := [] } with
    kmem := kfree m r }

/-- `fork` succeeded: the child has the kernel stack `r`, the address space `pages`, the
caller `c` as parent, and is `RUNNABLE`; `m` is the free list left. -/
def forkOk (k : Kernel) (c p : Fin NPROC) (r : Nat) (pages m : List Nat) : Kernel :=
  { k.setProc p ((k.proc p).spawn c r pages) with kmem := m }

/-- `wakeup1(chan)`. -/
def wakeup1 (k : Kernel) (ch : Chan) : Kernel :=
  { k with proc := fun p => wake ch (k.proc p) }

/-- `wakeup1(curproc->parent)`; a null parent wakes nobody. -/
def wakeParent (k : Kernel) (c : Fin NPROC) : Kernel :=
  match (k.proc c).parent with
  | some q => k.wakeup1 (.proc q)
  | none => k

/-- The child `wait`'s scan stops at: the first `ZOMBIE` slot whose parent is `c`. -/
def zombieChild (k : Kernel) (c : Fin NPROC) : Option (Fin NPROC) :=
  Fin.find? fun p => (k.proc p).parent == some c && (k.proc p).state == .zombie

/-- Every child of `c` passes to `initproc`. -/
def adoptAll (k : Kernel) (c : Fin NPROC) : Kernel :=
  { k with proc := fun p => adopt c (k.proc p) }

/-- `exit`'s loop: every child of `c` passes to `initproc`, and `initproc` is woken when
one of them is already a zombie. -/
def reparent (k : Kernel) (c : Fin NPROC) : Kernel :=
  if (k.zombieChild c).isSome then (k.adoptAll c).wakeup1 (.proc initproc) else k.adoptAll c

/-- `curproc->state = ZOMBIE`. -/
def zombify (k : Kernel) (c : Fin NPROC) : Kernel :=
  k.setProc c { k.proc c with state := .zombie }

/-- `exit` from the point where it takes `ptable.lock`; the files and the current directory
it lets go of are the business of `Xv6.Files` and `Xv6.Inodes`. -/
def exit (k : Kernel) (c : Fin NPROC) : Except String Kernel :=
  if c = initproc then .error "init exiting"
  else .ok (((k.wakeParent c).reparent c).zombify c)

/-- `havekids` once the scan found no zombie child. -/
def hasKids (k : Kernel) (c : Fin NPROC) : Bool :=
  (List.finRange NPROC).any fun p => (k.proc p).parent == some c

/-- `wait`'s reaping of `p`: `kfree(p->kstack)`, `freevm(p->pgdir)`, and the fields it
clears. `p->pgdir` itself is left as it was. -/
def reap (k : Kernel) (p : Fin NPROC) : Kernel :=
  { k.setProc p (k.proc p).clear with
    kmem := freevm (kfree k.kmem (k.proc p).kstack) (k.proc p).pgdir }

end Kernel

/-- How one pass of `wait`'s loop ends: it returns a value, or the caller sleeps and scans
again once woken. -/
inductive Waited where
  | ret (v : Int32) (k : Kernel)
  | sleep (k : Kernel)

/-- The table after the pass. -/
def Waited.kernel : Waited → Kernel
  | .ret _ k => k
  | .sleep k => k

@[simp] theorem Waited.kernel_ret (v : Int32) (k : Kernel) : (Waited.ret v k).kernel = k := rfl

namespace Kernel

/-- One pass of `wait`'s loop, called by `c`. -/
def wait (k : Kernel) (c : Fin NPROC) : Waited :=
  match k.zombieChild c with
  | some p => .ret (k.proc p).pid (k.reap p)
  | none =>
    if !k.hasKids c || (k.proc c).killed then .ret (-1) k
    else .sleep (k.setProc c { k.proc c with chan := some (.proc c), state := .sleeping })

/-- The slot `kill`'s scan stops at: the first one whose pid matches, whatever its state. -/
def pidSlot (k : Kernel) (pid : Int32) : Option (Fin NPROC) :=
  Fin.find? fun p => (k.proc p).pid == pid

/-- `kill(pid)` and the value it returns. -/
def kill (k : Kernel) (pid : Int32) : Int32 × Kernel :=
  match k.pidSlot pid with
  | some p => (0, k.setProc p (k.proc p).doKill)
  | none => (-1, k)

end Kernel

/-- One critical section of the process table. `c` is the process that runs the call. -/
inductive Step : Kernel → Kernel → Prop
  | allocproc (k : Kernel) (c p : Fin NPROC) (hrun : (k.proc c).state = .running)
      (hp : k.firstUnused = some p) : Step k (k.allocproc p)
  | kstackFail (k : Kernel) (p : Fin NPROC) (hp : (k.proc p).state = .embryo)
      (hk : k.kmem = []) : Step k (k.kstackFail p)
  | copyFail (k : Kernel) (p : Fin NPROC) (r : Nat) (rest m : List Nat)
      (hp : (k.proc p).state = .embryo) (hk : k.kmem = r :: rest) (hm : m.Subperm rest) :
      Step k (k.copyFail p r m)
  | forkOk (k : Kernel) (c p : Fin NPROC) (r : Nat) (rest : List Nat) (n : Nat)
      (hrun : (k.proc c).state = .running) (hp : (k.proc p).state = .embryo)
      (hk : k.kmem = r :: rest) (hn : 0 < n) (hlen : n ≤ rest.length) :
      Step k (k.forkOk c p r (rest.take n) (rest.drop n))
  | exit (k : Kernel) (c : Fin NPROC) {k' : Kernel} (hrun : (k.proc c).state = .running)
      (h : k.exit c = .ok k') : Step k k'
  | wait (k : Kernel) (c : Fin NPROC) (hrun : (k.proc c).state = .running) :
      Step k (k.wait c).kernel
  | kill (k : Kernel) (c : Fin NPROC) (pid : Int32) (hrun : (k.proc c).state = .running) :
      Step k (k.kill pid).2
  | schedule (k : Kernel) (p : Fin NPROC) (h : (k.proc p).state = .runnable) :
      Step k (k.setProc p { k.proc p with state := .running })
  | yield (k : Kernel) (p : Fin NPROC) (h : (k.proc p).state = .running) :
      Step k (k.setProc p { k.proc p with state := .runnable })
  | sleep (k : Kernel) (p : Fin NPROC) (n : Nat) (h : (k.proc p).state = .running) :
      Step k (k.setProc p { k.proc p with state := .sleeping, chan := some (.other n) })
  | wakeup (k : Kernel) (n : Nat) : Step k (k.wakeup1 (.other n))

/-- The states reachable from `userinit`'s table. -/
def Reach (b : Boot) (k : Kernel) : Prop := Relation.ReflTransGen Step (Kernel.boot b) k

end Xv6.Procs

namespace Xv6.Procs.Kernel

theorem firstUnused_spec {k : Kernel} {p : Fin NPROC} (h : k.firstUnused = some p) :
    (k.proc p).state = .unused := by
  simpa using (Fin.find?_eq_some_iff.mp h).1

theorem zombieChild_spec {k : Kernel} {c p : Fin NPROC} (h : k.zombieChild c = some p) :
    (k.proc p).parent = some c ∧ (k.proc p).state = .zombie := by
  simpa using (Fin.find?_eq_some_iff.mp h).1

theorem zombieChild_eq_none {k : Kernel} {c : Fin NPROC} :
    k.zombieChild c = none ↔ ∀ p, (k.proc p).parent = some c → (k.proc p).state ≠ .zombie := by
  simp [zombieChild]

/-- The three ways one pass of `wait` ends: it reaps the first zombie child, it fails, or it
sleeps. -/
theorem wait_cases (k : Kernel) (c : Fin NPROC) :
    (∃ p, k.zombieChild c = some p ∧ k.wait c = .ret (k.proc p).pid (k.reap p)) ∨
    (k.zombieChild c = none ∧ (k.hasKids c = false ∨ (k.proc c).killed = true) ∧
      k.wait c = .ret (-1) k) ∨
    (k.zombieChild c = none ∧ k.hasKids c = true ∧ (k.proc c).killed = false ∧
      k.wait c = .sleep (k.setProc c { k.proc c with chan := some (.proc c), state := .sleeping })) := by
  unfold wait
  split
  · next p hp => exact .inl ⟨p, hp, rfl⟩
  · next hp =>
    split
    · next h =>
      refine .inr (.inl ⟨hp, ?_, rfl⟩)
      simpa using h
    · next h =>
      simp only [Bool.or_eq_true, Bool.not_eq_eq_eq_not, Bool.not_true, not_or,
        Bool.not_eq_true] at h
      exact .inr (.inr ⟨hp, by simpa using h.1, h.2, rfl⟩)

theorem wait_of_zombieChild {k : Kernel} {c p : Fin NPROC} (h : k.zombieChild c = some p) :
    k.wait c = .ret (k.proc p).pid (k.reap p) := by
  unfold wait
  split
  · next p' hp' =>
    rw [h] at hp'
    cases hp'
    rfl
  · next hp' =>
    rw [h] at hp'
    cases hp'

theorem kill_of_pidSlot {k : Kernel} {x : Int32} {p : Fin NPROC} (h : k.pidSlot x = some p) :
    k.kill x = (0, k.setProc p (k.proc p).doKill) := by
  unfold kill
  split
  · next p' hp' =>
    rw [h] at hp'
    cases hp'
    rfl
  · next hp' =>
    rw [h] at hp'
    cases hp'

theorem wakeParent_of_parent {k : Kernel} {c q : Fin NPROC} (h : (k.proc c).parent = some q) :
    k.wakeParent c = k.wakeup1 (.proc q) := by
  simp [wakeParent, h]

theorem kill_kmem (k : Kernel) (pid : Int32) : (k.kill pid).2.kmem = k.kmem := by
  unfold kill
  split <;> rfl

end Xv6.Procs.Kernel
