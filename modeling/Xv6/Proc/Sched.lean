import Xv6.Proc.Table

/-!
# The scheduler, and `ptable.lock` across `swtch`

Each CPU runs `scheduler`: it takes `ptable.lock`, walks `ptable.proc` in order, and at each
`RUNNABLE` slot sets `c->proc`, marks the process `RUNNING` and `swtch`es to it. The process
comes back inside `sched`, or the first time in `forkret`, still holding `ptable.lock`, and
releases it. To give the CPU up, `yield`, `sleep` and `exit` take `ptable.lock`, set the
process's state to `RUNNABLE`, `SLEEPING` or `ZOMBIE` and call `sched`, whose `swtch` returns
into the scheduler; the scheduler clears `c->proc` and goes on with its walk, still holding the
lock, and releases it when the walk ends. So the lock is held across `swtch` both ways and
passes between a CPU's scheduler and the process it runs.

Every other change of a process's state is made to a process that is not running: under the
lock, `allocproc` (`UNUSED` to `EMBRYO`), `fork` (`EMBRYO` to `RUNNABLE`), `wakeup1` and `kill`
(`SLEEPING` to `RUNNABLE`) and `wait` (`ZOMBIE` to `UNUSED`); and without it, the way back from
`EMBRYO` to `UNUSED` when `allocproc` finds no kernel stack or `fork` cannot copy the memory.

In every reachable state (`Inv`) the lock is held by the one CPU in a part of this code that
holds it, and a CPU with a current process is running it or is in `sched`'s window, holding
the lock. Hence no process is the current process of two CPUs, every `RUNNING` process is some
CPU's, and a CPU whose process is not `RUNNING` holds the lock (`no_process_on_two_cpus`).

Only the control flow that touches `ptable.lock`, `c->proc` and `p->state` is modelled; what a
process does with the lock held besides changing states, `switchuvm`, and interrupts and
`ncli` (`Xv6.Lock.Spin`) are left out. The state `userinit` leaves has slot 0 `RUNNABLE`.
-/

namespace Xv6.Scheduler

open Xv6.Procs (ProcState)

variable {κ : Type} {n : Nat}

/-- Where a CPU is. -/
inductive At (n : Nat) where
  /-- at the top of `scheduler`'s loop, before `acquire(&ptable.lock)` -/
  | idle
  /-- in `scheduler`'s walk at `ptable.proc[i]`, holding `ptable.lock` -/
  | scan (i : Nat)
  /-- back in `scheduler` from `swtch`, with `c->proc` still `p` -/
  | back (p : Fin n)
  /-- running `c->proc` and holding `ptable.lock` -/
  | locked
  /-- running `c->proc` without it -/
  | run
  deriving DecidableEq

/-- Whether a CPU at `a` holds `ptable.lock`. -/
def At.holds : At n → Bool
  | .idle => false
  | .scan _ => true
  | .back _ => true
  | .locked => true
  | .run => false

/-- How a process gives its CPU up: `yield`, `sleep` or `exit`, each of which sets its state
under `ptable.lock` and calls `sched`. -/
inductive Leave where
  | yield
  | sleep
  | exit
  deriving DecidableEq

/-- The state each leaves the process in. -/
def Leave.state : Leave → ProcState
  | .yield => .runnable
  | .sleep => .sleeping
  | .exit => .zombie

theorem Leave.state_ne_running (l : Leave) : l.state ≠ .running := by
  cases l <;> decide

/-- `p->state` of each slot, `c->proc` and the place of each CPU, and the CPU that holds
`ptable.lock`. -/
structure Sched (κ : Type) (n : Nat) where
  state : Fin n → ProcState
  proc : κ → Option (Fin n)
  pc : κ → At n
  lock : Option κ

/-- After `userinit`: slot 0 is `RUNNABLE`, every CPU is about to enter its scheduler loop. -/
def init : Sched κ n :=
  ⟨fun p => if p.val = 0 then .runnable else .unused, fun _ => none, fun _ => .idle, none⟩

namespace Sched

/-- Slot `p` goes to state `st`. -/
def setState (s : Sched κ n) (p : Fin n) (st : ProcState) : Sched κ n :=
  { s with state := Function.update s.state p st }

/-- `ptable.lock` is now held by `o`. -/
def setLock (s : Sched κ n) (o : Option κ) : Sched κ n := { s with lock := o }

/-- `c->proc = o`. -/
def setProc [DecidableEq κ] (s : Sched κ n) (c : κ) (o : Option (Fin n)) : Sched κ n :=
  { s with proc := Function.update s.proc c o }

/-- CPU `c` goes to `a`. -/
def setPc [DecidableEq κ] (s : Sched κ n) (c : κ) (a : At n) : Sched κ n :=
  { s with pc := Function.update s.pc c a }

variable (s : Sched κ n)

@[simp] theorem setState_state (p : Fin n) (st : ProcState) :
    (s.setState p st).state = Function.update s.state p st := rfl
@[simp] theorem setState_proc (p : Fin n) (st : ProcState) : (s.setState p st).proc = s.proc :=
  rfl
@[simp] theorem setState_pc (p : Fin n) (st : ProcState) : (s.setState p st).pc = s.pc := rfl
@[simp] theorem setState_lock (p : Fin n) (st : ProcState) : (s.setState p st).lock = s.lock :=
  rfl
@[simp] theorem setLock_state (o : Option κ) : (s.setLock o).state = s.state := rfl
@[simp] theorem setLock_proc (o : Option κ) : (s.setLock o).proc = s.proc := rfl
@[simp] theorem setLock_pc (o : Option κ) : (s.setLock o).pc = s.pc := rfl
@[simp] theorem setLock_lock (o : Option κ) : (s.setLock o).lock = o := rfl

variable [DecidableEq κ] (c : κ)

@[simp] theorem setProc_state (o : Option (Fin n)) : (s.setProc c o).state = s.state := rfl
@[simp] theorem setProc_proc (o : Option (Fin n)) :
    (s.setProc c o).proc = Function.update s.proc c o := rfl
@[simp] theorem setProc_pc (o : Option (Fin n)) : (s.setProc c o).pc = s.pc := rfl
@[simp] theorem setProc_lock (o : Option (Fin n)) : (s.setProc c o).lock = s.lock := rfl
@[simp] theorem setPc_state (a : At n) : (s.setPc c a).state = s.state := rfl
@[simp] theorem setPc_proc (a : At n) : (s.setPc c a).proc = s.proc := rfl
@[simp] theorem setPc_pc (a : At n) : (s.setPc c a).pc = Function.update s.pc c a := rfl
@[simp] theorem setPc_lock (a : At n) : (s.setPc c a).lock = s.lock := rfl

end Sched

section Steps

variable [DecidableEq κ]

/-- The steps of the CPUs; each is one CPU's. -/
inductive Step : Sched κ n → Sched κ n → Prop
  /-- `acquire(&ptable.lock)` at the top of the scheduler's loop -/
  | acquire (s : Sched κ n) (c : κ) (hpc : s.pc c = .idle) (hfree : s.lock = none) :
      Step s ((s.setPc c (.scan 0)).setLock (some c))
  /-- `if(p->state != RUNNABLE) continue;` -/
  | skip (s : Sched κ n) (c : κ) (i : Nat) (hi : i < n) (hpc : s.pc c = .scan i)
      (hst : s.state ⟨i, hi⟩ ≠ .runnable) : Step s (s.setPc c (.scan (i + 1)))
  /-- `c->proc = p; switchuvm(p); p->state = RUNNING; swtch(&(c->scheduler), p->context);`:
  the process comes back in `sched` or `forkret`, holding the lock -/
  | swtch (s : Sched κ n) (c : κ) (i : Nat) (hi : i < n) (hpc : s.pc c = .scan i)
      (hst : s.state ⟨i, hi⟩ = .runnable) :
      Step s (((s.setProc c (some ⟨i, hi⟩)).setState ⟨i, hi⟩ .running).setPc c .locked)
  /-- the end of the walk: `release(&ptable.lock)` -/
  | release (s : Sched κ n) (c : κ) (hpc : s.pc c = .scan n) :
      Step s ((s.setPc c .idle).setLock none)
  /-- `switchkvm(); c->proc = 0;` once `swtch` returns, then the walk's `p++` -/
  | resume (s : Sched κ n) (c : κ) (p : Fin n) (hpc : s.pc c = .back p) :
      Step s ((s.setProc c none).setPc c (.scan (p.val + 1)))
  /-- the running process's `acquire(&ptable.lock)` -/
  | acquireProc (s : Sched κ n) (c : κ) (hpc : s.pc c = .run) (hfree : s.lock = none) :
      Step s ((s.setPc c .locked).setLock (some c))
  /-- its `release(&ptable.lock)`, such as the one after `sched` returns or in `forkret` -/
  | releaseProc (s : Sched κ n) (c : κ) (hpc : s.pc c = .locked) :
      Step s ((s.setPc c .run).setLock none)
  /-- `allocproc` under the lock: `p->state = EMBRYO` -/
  | allocproc (s : Sched κ n) (c : κ) (q : Fin n) (hpc : s.pc c = .locked)
      (hq : s.state q = .unused) : Step s (s.setState q .embryo)
  /-- `allocproc` without a kernel stack, or `fork` without a copy of the memory, after the
  lock is released: `p->state = UNUSED` -/
  | unembryo (s : Sched κ n) (c : κ) (q : Fin n) (hpc : s.pc c = .run)
      (hq : s.state q = .embryo) : Step s (s.setState q .unused)
  /-- `fork` under the lock: `np->state = RUNNABLE` -/
  | fork (s : Sched κ n) (c : κ) (q : Fin n) (hpc : s.pc c = .locked)
      (hq : s.state q = .embryo) : Step s (s.setState q .runnable)
  /-- `wakeup1` or `kill` of a sleeping process -/
  | wakeup (s : Sched κ n) (c : κ) (q : Fin n) (hpc : s.pc c = .locked)
      (hq : s.state q = .sleeping) : Step s (s.setState q .runnable)
  /-- `wait` reaping a zombie child: `p->state = UNUSED` -/
  | reap (s : Sched κ n) (c : κ) (q : Fin n) (hpc : s.pc c = .locked)
      (hq : s.state q = .zombie) : Step s (s.setState q .unused)
  /-- `yield`, `sleep` or `exit`: the state, then `sched`'s `swtch(&p->context,
  mycpu()->scheduler)` -/
  | sched (s : Sched κ n) (c : κ) (p : Fin n) (l : Leave) (hpc : s.pc c = .locked)
      (hp : s.proc c = some p) : Step s ((s.setState p l.state).setPc c (.back p))

/-- The states the CPUs reach from `init`. -/
def Reach (s : Sched κ n) : Prop := Relation.ReflTransGen Step init s

end Steps

/-! ### What every run keeps -/

/-- What the place `a` of a CPU says of its `c->proc`, `o`: none in the scheduler's loop, the
process it switched away from once `swtch` returns (no longer `RUNNING`), and a `RUNNING`
process while it runs one. It reads the states only through which are `RUNNING`. -/
def Fits (state : Fin n → ProcState) : At n → Option (Fin n) → Prop
  | .idle, o => o = none
  | .scan i, o => o = none ∧ i ≤ n
  | .back p, o => o = some p ∧ state p ≠ .running
  | .locked, o => ∃ p, o = some p ∧ state p = .running
  | .run, o => ∃ p, o = some p ∧ state p = .running

/-- Two tables with the same `RUNNING` processes fit the same places. -/
theorem Fits.of_running {st st' : Fin n → ProcState} {a : At n} {o : Option (Fin n)}
    (h : Fits st a o) (hst : ∀ p, st' p = .running ↔ st p = .running) : Fits st' a o := by
  cases a with
  | idle => exact h
  | scan i => exact h
  | back p => exact ⟨h.1, fun hr => h.2 ((hst p).mp hr)⟩
  | locked =>
    obtain ⟨p, hp, hr⟩ := h
    exact ⟨p, hp, (hst p).mpr hr⟩
  | run =>
    obtain ⟨p, hp, hr⟩ := h
    exact ⟨p, hp, (hst p).mpr hr⟩

/-- A place fits whatever happens to the states of processes other than its own. -/
theorem Fits.of_eq {st st' : Fin n → ProcState} {a : At n} {o : Option (Fin n)}
    (h : Fits st a o) (hst : ∀ p, o = some p → st' p = st p) : Fits st' a o := by
  cases a with
  | idle => exact h
  | scan i => exact h
  | back p => exact ⟨h.1, by rw [hst p h.1]; exact h.2⟩
  | locked =>
    obtain ⟨p, hp, hr⟩ := h
    exact ⟨p, hp, by rw [hst p hp]; exact hr⟩
  | run =>
    obtain ⟨p, hp, hr⟩ := h
    exact ⟨p, hp, by rw [hst p hp]; exact hr⟩

/-- A place with a process is `sched`'s window, with the process no longer `RUNNING`, or
runs it. -/
theorem Fits.some_cases {st : Fin n → ProcState} {a : At n} {p : Fin n}
    (h : Fits st a (some p)) :
    (a = .back p ∧ st p ≠ .running) ∨ ((a = .locked ∨ a = .run) ∧ st p = .running) := by
  cases a with
  | idle => cases h
  | scan i => cases h.1
  | back q =>
    cases h.1
    exact .inl ⟨rfl, h.2⟩
  | locked =>
    obtain ⟨q, hq, hr⟩ := h
    cases hq
    exact .inr ⟨.inl rfl, hr⟩
  | run =>
    obtain ⟨q, hq, hr⟩ := h
    cases hq
    exact .inr ⟨.inr rfl, hr⟩

/-- What holds in every reachable state (module doc). -/
structure Inv (s : Sched κ n) : Prop where
  lock : ∀ c, s.lock = some c ↔ (s.pc c).holds = true
  cpu : ∀ c, Fits s.state (s.pc c) (s.proc c)
  running : ∀ p, s.state p = .running → ∃ c, s.proc c = some p
  unique : ∀ c d p, s.proc c = some p → s.proc d = some p → c = d

section Invariant

variable {s : Sched κ n}

theorem Inv.init : Inv (init : Sched κ n) := by
  refine ⟨fun c => ?_, fun c => rfl, fun p hp => ?_, fun c d p hc _ => ?_⟩
  · exact ⟨fun h => (by cases h), fun h => (by cases h)⟩
  · -- `userinit` leaves slot 0 `RUNNABLE` and no slot `RUNNING`
    have : (if p.val = 0 then ProcState.runnable else .unused) = .running := hp
    split at this <;> cases this
  · cases hc

/-- Only the CPU named in `ptable.lock` is in a place that holds it. -/
theorem Inv.holds_eq (h : Inv s) {c d : κ} (hc : (s.pc c).holds = true)
    (hd : (s.pc d).holds = true) : d = c := by
  have h1 := (h.lock c).mpr hc
  have h2 := (h.lock d).mpr hd
  rw [h1] at h2
  exact (Option.some.inj h2).symm

theorem Inv.not_holds (h : Inv s) (hfree : s.lock = none) (d : κ) : (s.pc d).holds = false := by
  cases hd : (s.pc d).holds with
  | false => rfl
  | true =>
    have := (h.lock d).mpr hd
    rw [hfree] at this
    cases this

/-- A change of state of a slot that is not `RUNNING` to one that is not either, made by any
CPU, keeps the invariant. -/
theorem Inv.setState_quiet (h : Inv s) {q : Fin n} {st : ProcState}
    (hq : s.state q ≠ .running) (hst : st ≠ .running) : Inv (s.setState q st) := by
  have hrun : ∀ p, Function.update s.state q st p = .running ↔ s.state p = .running := by
    intro p
    by_cases hpq : p = q
    · subst hpq
      rw [Function.update_self]
      exact ⟨fun h' => absurd h' hst, fun h' => absurd h' hq⟩
    · rw [Function.update_of_ne hpq]
  exact ⟨h.lock, fun c => (h.cpu c).of_running hrun, fun p hp => h.running p ((hrun p).mp hp),
    h.unique⟩

/-- While a CPU walks the table, holding the lock, a process that is not `RUNNING` is no
CPU's `c->proc`: a CPU back from `swtch` with it would hold the lock too. -/
theorem Inv.proc_ne (h : Inv s) {c d : κ} {i : Nat} {p : Fin n} (hpc : s.pc c = .scan i)
    (hp : s.state p ≠ .running) : s.proc d ≠ some p := by
  intro hd
  have hfit := h.cpu d
  rw [hd] at hfit
  rcases hfit.some_cases with ⟨hback, -⟩ | ⟨-, hr⟩
  · have hdc := h.holds_eq (c := c) (d := d) (by rw [hpc]; rfl) (by rw [hback]; rfl)
    rw [hdc, hpc] at hback
    cases hback
  · exact hp hr

variable [DecidableEq κ]

/-- Setting `c->proc` to `o` keeps each process some CPU's at most, when no other CPU has
the process `o` names. -/
theorem unique_update {proc : κ → Option (Fin n)}
    (hu : ∀ c d p, proc c = some p → proc d = some p → c = d) (c : κ) (o : Option (Fin n))
    (hfree : ∀ p, o = some p → ∀ d, d ≠ c → proc d ≠ some p) :
    ∀ d e p, Function.update proc c o d = some p → Function.update proc c o e = some p →
      d = e := by
  intro d e p hd he
  by_cases hdc : d = c
  · by_cases hec : e = c
    · rw [hdc, hec]
    · rw [hdc, Function.update_self] at hd
      rw [Function.update_of_ne hec] at he
      exact absurd he (hfree p hd e hec)
  · rw [Function.update_of_ne hdc] at hd
    by_cases hec : e = c
    · rw [hec, Function.update_self] at he
      exact absurd hd (hfree p he d hdc)
    · rw [Function.update_of_ne hec] at he
      exact hu d e p hd he

/-- A step of CPU `c` keeps the invariant when it moves `c` to `a` with `c->proc = o`, leaves
the other CPUs where they are and with their processes' states, puts the lock with the CPUs in
holding places, and `c`'s place fits `o`; when every process `RUNNING` after it is `o` or some
other CPU's, and no other CPU has `o`. -/
theorem Inv.update (h : Inv s) {s' : Sched κ n} (c : κ) {a : At n} {o : Option (Fin n)}
    (hpc : s'.pc = Function.update s.pc c a) (hproc : s'.proc = Function.update s.proc c o)
    (hlock : ∀ d, s'.lock = some d ↔ (Function.update s.pc c a d).holds = true)
    (hst : ∀ d q, d ≠ c → s.proc d = some q → s'.state q = s.state q)
    (hc : Fits s'.state a o)
    (hrun : ∀ q, s'.state q = .running → o = some q ∨ ∃ d, d ≠ c ∧ s.proc d = some q)
    (hfree : ∀ q, o = some q → ∀ d, d ≠ c → s.proc d ≠ some q) : Inv s' := by
  refine ⟨by rw [hpc]; exact hlock, fun d => ?_, fun q hq => ?_, ?_⟩
  · rw [hpc, hproc]
    by_cases hdc : d = c
    · subst hdc
      rw [Function.update_self, Function.update_self]
      exact hc
    · rw [Function.update_of_ne hdc, Function.update_of_ne hdc]
      exact (h.cpu d).of_eq (hst d · hdc)
  · rw [hproc]
    rcases hrun q hq with ho | ⟨d, hdc, hd⟩
    · exact ⟨c, by rw [Function.update_self, ho]⟩
    · exact ⟨d, by rw [Function.update_of_ne hdc, hd]⟩
  · rw [hproc]
    exact unique_update h.unique c o hfree

/-- A step that moves only CPU `c` and the lock keeps the invariant when the lock goes with
the holding places and `c`'s process fits its new place. -/
theorem Inv.move (h : Inv s) (c : κ) (a : At n) (o : Option κ)
    (hlock : ∀ d, o = some d ↔ (Function.update s.pc c a d).holds = true)
    (hc : Fits s.state a (s.proc c)) : Inv ((s.setPc c a).setLock o) := by
  refine h.update c rfl (Function.update_eq_self c s.proc).symm hlock (fun _ _ _ _ => rfl) hc
    (fun q hq => ?_) (fun q hq d hdc hd => hdc (h.unique d c q hd hq))
  obtain ⟨d, hd⟩ := h.running q hq
  by_cases hdc : d = c
  · subst hdc
    exact .inl hd
  · exact .inr ⟨d, hdc, hd⟩

/-- The lock stays where it is when `c` moves between two places alike in holding it. -/
theorem Inv.lock_update (h : Inv s) (c : κ) (a : At n) (ha : a.holds = (s.pc c).holds)
    (d : κ) : s.lock = some d ↔ (Function.update s.pc c a d).holds = true := by
  by_cases hdc : d = c
  · subst hdc
    rw [Function.update_self, ha]
    exact h.lock d
  · rw [Function.update_of_ne hdc]
    exact h.lock d

/-- The lock goes to `c` when it was free and `c` moves to a place that holds it. -/
theorem Inv.lock_take (h : Inv s) (hfree : s.lock = none) (c : κ) (a : At n)
    (ha : a.holds = true) (d : κ) :
    some c = some d ↔ (Function.update s.pc c a d).holds = true := by
  by_cases hdc : d = c
  · subst hdc
    rw [Function.update_self, ha]
    simp
  · rw [Function.update_of_ne hdc, h.not_holds hfree d]
    simp [Ne.symm hdc]

/-- The lock is free once `c`, which held it, moves to a place that does not hold it. -/
theorem Inv.lock_free (h : Inv s) (c : κ) (a : At n) (hc : (s.pc c).holds = true)
    (ha : a.holds = false) (d : κ) :
    (none : Option κ) = some d ↔ (Function.update s.pc c a d).holds = true := by
  by_cases hdc : d = c
  · subst hdc
    rw [Function.update_self, ha]
    simp
  · -- `c` held the lock, so no other CPU did
    rw [Function.update_of_ne hdc]
    exact ⟨fun h' => (by cases h'), fun hd => absurd (h.holds_eq hc hd) hdc⟩

theorem Inv.acquire (h : Inv s) {c : κ} (hpc : s.pc c = .idle) (hfree : s.lock = none) :
    Inv ((s.setPc c (.scan 0)).setLock (some c)) := by
  have hc := h.cpu c
  rw [hpc] at hc
  exact h.move c _ _ (h.lock_take hfree c _ rfl) ⟨hc, Nat.zero_le n⟩

theorem Inv.skip (h : Inv s) {c : κ} {i : Nat} (hi : i < n) (hpc : s.pc c = .scan i) :
    Inv (s.setPc c (.scan (i + 1))) := by
  have hc := h.cpu c
  rw [hpc] at hc
  exact h.move c _ s.lock (h.lock_update c _ (by rw [hpc]; rfl)) ⟨hc.1, hi⟩

theorem Inv.release (h : Inv s) {c : κ} (hpc : s.pc c = .scan n) :
    Inv ((s.setPc c .idle).setLock none) := by
  have hc := h.cpu c
  rw [hpc] at hc
  exact h.move c _ _ (h.lock_free c .idle (by rw [hpc]; rfl) rfl) hc.1

theorem Inv.acquireProc (h : Inv s) {c : κ} (hpc : s.pc c = .run) (hfree : s.lock = none) :
    Inv ((s.setPc c .locked).setLock (some c)) := by
  have hc := h.cpu c
  rw [hpc] at hc
  exact h.move c _ _ (h.lock_take hfree c _ rfl) hc

theorem Inv.releaseProc (h : Inv s) {c : κ} (hpc : s.pc c = .locked) :
    Inv ((s.setPc c .run).setLock none) := by
  have hc := h.cpu c
  rw [hpc] at hc
  exact h.move c _ _ (h.lock_free c .run (by rw [hpc]; rfl) rfl) hc

theorem Inv.swtch (h : Inv s) {c : κ} {i : Nat} (hi : i < n) (hpc : s.pc c = .scan i)
    (hst : s.state ⟨i, hi⟩ = .runnable) :
    Inv (((s.setProc c (some ⟨i, hi⟩)).setState ⟨i, hi⟩ .running).setPc c .locked) := by
  have hc := h.cpu c
  rw [hpc] at hc
  -- the process is `RUNNABLE`, so no CPU has it
  have hfree : ∀ d, s.proc d ≠ some ⟨i, hi⟩ := fun d => h.proc_ne hpc (by rw [hst]; decide)
  refine h.update c rfl rfl (h.lock_update c .locked (by rw [hpc]; rfl))
    (fun d q _ hd => Function.update_of_ne (fun (hq : q = ⟨i, hi⟩) => hfree d (hq ▸ hd)) _ _)
    ⟨_, rfl, by simp⟩ (fun q hq => ?_) (fun q hq d _ => hq ▸ hfree d)
  by_cases hqi : q = ⟨i, hi⟩
  · exact .inl (by rw [hqi])
  · have hq' : Function.update s.state ⟨i, hi⟩ .running q = .running := hq
    rw [Function.update_of_ne hqi] at hq'
    obtain ⟨d, hd⟩ := h.running q hq'
    -- `c` is walking the table, so it has no process
    have hdc : d ≠ c := fun hdc => by rw [hdc, hc.1] at hd; cases hd
    exact .inr ⟨d, hdc, hd⟩

theorem Inv.resume (h : Inv s) {c : κ} {p : Fin n} (hpc : s.pc c = .back p) :
    Inv ((s.setProc c none).setPc c (.scan (p.val + 1))) := by
  have hc := h.cpu c
  rw [hpc] at hc
  refine h.update c rfl rfl (h.lock_update c _ (by rw [hpc]; rfl)) (fun _ _ _ _ => rfl)
    ⟨rfl, p.isLt⟩ (fun q hq => ?_) (fun q hq => by cases hq)
  obtain ⟨d, hd⟩ := h.running q hq
  -- the process `c` switched away from is no longer `RUNNING`
  have hdc : d ≠ c := by
    rintro rfl
    rw [hc.1] at hd
    cases hd
    exact hc.2 hq
  exact .inr ⟨d, hdc, hd⟩

theorem Inv.sched (h : Inv s) {c : κ} {p : Fin n} (l : Leave) (hpc : s.pc c = .locked)
    (hp : s.proc c = some p) : Inv ((s.setState p l.state).setPc c (.back p)) := by
  -- `p` is `c`'s alone
  have hother : ∀ d q, d ≠ c → s.proc d = some q → q ≠ p :=
    fun d q hdc hd hqp => hdc (h.unique d c p (hqp ▸ hd) hp)
  have hleft : Function.update s.state p l.state p ≠ .running := by
    rw [Function.update_self]
    exact l.state_ne_running
  refine h.update c rfl (by rw [← hp, Function.update_eq_self]; rfl)
    (h.lock_update c _ (by rw [hpc]; rfl))
    (fun d q hdc hd => Function.update_of_ne (hother d q hdc hd) _ _) ⟨rfl, hleft⟩
    (fun q hq => ?_) (fun q hq d hdc hd => hother d q hdc hd (Option.some.inj hq).symm)
  have hq' : Function.update s.state p l.state q = .running := hq
  have hqp : q ≠ p := fun hqp => hleft (hqp ▸ hq')
  rw [Function.update_of_ne hqp] at hq'
  obtain ⟨d, hd⟩ := h.running q hq'
  have hdc : d ≠ c := fun hdc => hqp (Option.some.inj (hd.symm.trans (hdc ▸ hp)))
  exact .inr ⟨d, hdc, hd⟩

theorem Inv.step (h : Inv s) {s' : Sched κ n} (hs : Step s s') : Inv s' := by
  cases hs with
  | acquire c hpc hfree => exact h.acquire hpc hfree
  | skip c i hi hpc _ => exact h.skip hi hpc
  | swtch c i hi hpc hst => exact h.swtch hi hpc hst
  | release c hpc => exact h.release hpc
  | resume c p hpc => exact h.resume hpc
  | acquireProc c hpc hfree => exact h.acquireProc hpc hfree
  | releaseProc c hpc => exact h.releaseProc hpc
  -- the other changes of state are to processes that are not running
  | allocproc c q _ hq => exact h.setState_quiet (by rw [hq]; decide) (by decide)
  | unembryo c q _ hq => exact h.setState_quiet (by rw [hq]; decide) (by decide)
  | fork c q _ hq => exact h.setState_quiet (by rw [hq]; decide) (by decide)
  | wakeup c q _ hq => exact h.setState_quiet (by rw [hq]; decide) (by decide)
  | reap c q _ hq => exact h.setState_quiet (by rw [hq]; decide) (by decide)
  | sched c p l hpc hp => exact h.sched l hpc hp

theorem inv_of_reach (h : Reach s) : Inv s := by
  induction h with
  | refl => exact Inv.init
  | tail _ hs ih => exact ih.step hs

/-- No process runs on two CPUs: in every reachable state each process is `c->proc` of one
CPU at most, every `RUNNING` process is some CPU's and run there, and a CPU whose process is
not `RUNNING`, being in `sched`'s window, holds `ptable.lock`. -/
theorem no_process_on_two_cpus (h : Reach s) :
    (∀ c d p, s.proc c = some p → s.proc d = some p → c = d) ∧
    (∀ p, s.state p = .running →
      ∃ c, s.proc c = some p ∧ (s.pc c = .locked ∨ s.pc c = .run)) ∧
    (∀ c p, s.proc c = some p → s.state p ≠ .running → s.lock = some c) := by
  have hinv := inv_of_reach h
  refine ⟨hinv.unique, fun p hp => ?_, fun c p hc hp => ?_⟩
  · obtain ⟨c, hc⟩ := hinv.running p hp
    have hfit := hinv.cpu c
    rw [hc] at hfit
    rcases hfit.some_cases with ⟨-, hr⟩ | ⟨hpc, -⟩
    · exact absurd hp hr
    · exact ⟨c, hc, hpc⟩
  · have hfit := hinv.cpu c
    rw [hc] at hfit
    rcases hfit.some_cases with ⟨hpc, -⟩ | ⟨-, hr⟩
    · exact (hinv.lock c).mpr (by rw [hpc]; rfl)
    · exact absurd hr hp

/-- While a process holds `ptable.lock` outside `sched`, every CPU's current process is
`RUNNING`; so the `ZOMBIE` that `wait` reaps under the lock, freeing its kernel stack and page
table, is no CPU's current process. The CPU that ran it kept the lock from `exit`'s `sched`
until its scheduler had cleared `c->proc`. -/
theorem wait_reaps_off_cpu (h : Reach s) {d : κ} (hd : s.pc d = .locked) :
    (∀ c p, s.proc c = some p → s.state p = .running) ∧
    (∀ q, s.state q = .zombie → ∀ c, s.proc c ≠ some q) := by
  have hinv := inv_of_reach h
  have hrun : ∀ c p, s.proc c = some p → s.state p = .running := by
    intro c p hc
    have hfit := hinv.cpu c
    rw [hc] at hfit
    rcases hfit.some_cases with ⟨hback, -⟩ | ⟨-, hr⟩
    · -- `c` would be in `sched`'s window, holding the lock `d` holds
      have hdc := hinv.holds_eq (c := c) (d := d) (by rw [hback]; rfl) (by rw [hd]; rfl)
      rw [hdc, hback] at hd
      cases hd
    · exact hr
  refine ⟨hrun, fun q hq c hc => ?_⟩
  have hr := hrun c q hc
  rw [hq] at hr
  cases hr

end Invariant

/-! ### Running the CPUs -/

section Events

variable [DecidableEq κ]

/-- One step of one CPU, named by what the CPU does. -/
inductive Event (κ : Type) (n : Nat) where
  | acquire (c : κ)
  /-- one pass of the scheduler's inner loop: `continue`, or switch to the slot -/
  | walk (c : κ)
  | release (c : κ)
  | resume (c : κ)
  | acquireProc (c : κ)
  | releaseProc (c : κ)
  | allocproc (c : κ) (q : Fin n)
  | unembryo (c : κ) (q : Fin n)
  | fork (c : κ) (q : Fin n)
  | wakeup (c : κ) (q : Fin n)
  | reap (c : κ) (q : Fin n)
  | sched (c : κ) (l : Leave)

/-- The state after the event, or `none` where the CPU cannot take it. -/
def Event.exec : Event κ n → Sched κ n → Option (Sched κ n)
  | .acquire c, s =>
    if s.pc c = .idle ∧ s.lock = none then some ((s.setPc c (.scan 0)).setLock (some c))
    else none
  | .walk c, s =>
    match s.pc c with
    | .scan i =>
      if hi : i < n then
        if s.state ⟨i, hi⟩ = .runnable then
          some (((s.setProc c (some ⟨i, hi⟩)).setState ⟨i, hi⟩ .running).setPc c .locked)
        else some (s.setPc c (.scan (i + 1)))
      else none
    | _ => none
  | .release c, s => if s.pc c = .scan n then some ((s.setPc c .idle).setLock none) else none
  | .resume c, s =>
    match s.pc c with
    | .back p => some ((s.setProc c none).setPc c (.scan (p.val + 1)))
    | _ => none
  | .acquireProc c, s =>
    if s.pc c = .run ∧ s.lock = none then some ((s.setPc c .locked).setLock (some c)) else none
  | .releaseProc c, s => if s.pc c = .locked then some ((s.setPc c .run).setLock none) else none
  | .allocproc c q, s =>
    if s.pc c = .locked ∧ s.state q = .unused then some (s.setState q .embryo) else none
  | .unembryo c q, s =>
    if s.pc c = .run ∧ s.state q = .embryo then some (s.setState q .unused) else none
  | .fork c q, s =>
    if s.pc c = .locked ∧ s.state q = .embryo then some (s.setState q .runnable) else none
  | .wakeup c q, s =>
    if s.pc c = .locked ∧ s.state q = .sleeping then some (s.setState q .runnable) else none
  | .reap c q, s =>
    if s.pc c = .locked ∧ s.state q = .zombie then some (s.setState q .unused) else none
  | .sched c l, s =>
    match s.proc c with
    | some p => if s.pc c = .locked then some ((s.setState p l.state).setPc c (.back p)) else none
    | none => none

/-- Events in order, `none` at the first one that cannot be taken. -/
def runEvents : List (Event κ n) → Sched κ n → Option (Sched κ n)
  | [], s => some s
  | e :: es, s => (e.exec s).bind (runEvents es)

/-- An event the CPU can take is a step. -/
theorem Event.exec_step {e : Event κ n} {s s' : Sched κ n} (h : e.exec s = some s') :
    Step s s' := by
  cases e with
  | acquire c =>
    simp only [Event.exec] at h
    obtain ⟨⟨hpc, hfree⟩, ⟨⟩⟩ := Option.ite_none_right_eq_some.mp h
    exact .acquire s c hpc hfree
  | walk c =>
    simp only [Event.exec] at h
    split at h
    · rename_i i hpc
      obtain ⟨hi, h⟩ := Option.dite_none_right_eq_some.mp h
      -- the slot is switched to when `RUNNABLE`, and passed over otherwise
      by_cases hst : s.state ⟨i, hi⟩ = .runnable
      · rw [if_pos hst] at h
        cases h
        exact .swtch s c i hi hpc hst
      · rw [if_neg hst] at h
        cases h
        exact .skip s c i hi hpc hst
    · cases h
  | release c =>
    simp only [Event.exec] at h
    obtain ⟨hpc, ⟨⟩⟩ := Option.ite_none_right_eq_some.mp h
    exact .release s c hpc
  | resume c =>
    simp only [Event.exec] at h
    split at h
    · rename_i p hpc
      cases h
      exact .resume s c p hpc
    · cases h
  | acquireProc c =>
    simp only [Event.exec] at h
    obtain ⟨⟨hpc, hfree⟩, ⟨⟩⟩ := Option.ite_none_right_eq_some.mp h
    exact .acquireProc s c hpc hfree
  | releaseProc c =>
    simp only [Event.exec] at h
    obtain ⟨hpc, ⟨⟩⟩ := Option.ite_none_right_eq_some.mp h
    exact .releaseProc s c hpc
  | allocproc c q =>
    simp only [Event.exec] at h
    obtain ⟨⟨hpc, hq⟩, ⟨⟩⟩ := Option.ite_none_right_eq_some.mp h
    exact .allocproc s c q hpc hq
  | unembryo c q =>
    simp only [Event.exec] at h
    obtain ⟨⟨hpc, hq⟩, ⟨⟩⟩ := Option.ite_none_right_eq_some.mp h
    exact .unembryo s c q hpc hq
  | fork c q =>
    simp only [Event.exec] at h
    obtain ⟨⟨hpc, hq⟩, ⟨⟩⟩ := Option.ite_none_right_eq_some.mp h
    exact .fork s c q hpc hq
  | wakeup c q =>
    simp only [Event.exec] at h
    obtain ⟨⟨hpc, hq⟩, ⟨⟩⟩ := Option.ite_none_right_eq_some.mp h
    exact .wakeup s c q hpc hq
  | reap c q =>
    simp only [Event.exec] at h
    obtain ⟨⟨hpc, hq⟩, ⟨⟩⟩ := Option.ite_none_right_eq_some.mp h
    exact .reap s c q hpc hq
  | sched c l =>
    simp only [Event.exec] at h
    split at h
    · rename_i p hp
      obtain ⟨hpc, ⟨⟩⟩ := Option.ite_none_right_eq_some.mp h
      exact .sched s c p l hpc hp
    · cases h

/-- A run of events from a reachable state reaches its end. -/
theorem runEvents_reach {es : List (Event κ n)} {s s' : Sched κ n} (hs : Reach s)
    (h : runEvents es s = some s') : Reach s' := by
  induction es generalizing s with
  | nil =>
    cases h
    exact hs
  | cons e es ih =>
    obtain ⟨t, ht, hrest⟩ := Option.bind_eq_some_iff.mp h
    exact ih (hs.tail (Event.exec_step ht)) hrest

end Events

/-- CPU `false` runs `initproc`, which forks slot 1; CPU `true` walks past slot 0, which is
`RUNNING`, and switches to slot 1. -/
def forkRun : List (Event Bool 5) :=
  [.acquire false, .walk false, .releaseProc false,
    .acquireProc false, .allocproc false 1, .releaseProc false,
    .acquireProc false, .fork false 1, .releaseProc false,
    .acquire true, .walk true, .walk true]

theorem forkRun_isSome : (runEvents forkRun init).isSome := by decide

/-- The state `forkRun` ends in. -/
def forked : Sched Bool 5 := (runEvents forkRun init).get forkRun_isSome

theorem forked_reach : Reach forked :=
  runEvents_reach .refl (Option.some_get forkRun_isSome).symm

theorem no_process_on_two_cpus_forked :
    (∀ c d p, forked.proc c = some p → forked.proc d = some p → c = d) ∧
    (∀ p, forked.state p = .running →
      ∃ c, forked.proc c = some p ∧ (forked.pc c = .locked ∨ forked.pc c = .run)) ∧
    (∀ c p, forked.proc c = some p → forked.state p ≠ .running → forked.lock = some c) :=
  no_process_on_two_cpus forked_reach


theorem wait_reaps_off_cpu_forked :
    (∀ c p, forked.proc c = some p → forked.state p = .running) ∧
    (∀ q, forked.state q = .zombie → ∀ c, forked.proc c ≠ some q) :=
  wait_reaps_off_cpu forked_reach (d := true) (by decide)

end Xv6.Scheduler
