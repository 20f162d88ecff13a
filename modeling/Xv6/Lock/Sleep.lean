import Xv6.Lib.Monitor
import Mathlib.Logic.Relation

/-!
# Sleep-locks

A sleep-lock is a flag under a spinlock. `acquiresleep` sleeps on the lock itself while the flag
is set, and sets it and records the caller's pid once it is clear; `releasesleep` clears both
and wakes the processes asleep on the lock. The spinlock is held from `acquire` to `release`
or to the `sleep` that gives it up atomically, so one step of the system is one such critical
section, as a `Monitor.Sys`. `kill` makes a sleeper runnable without a `wakeup`; it returns to
the wait loop, which does not read `killed`.

A process uses the lock in rounds: it calls `acquiresleep`, holds the lock, and calls
`releasesleep`, as `bread`/`brelse` and `ilock`/`iunlock` do. In every reachable state at most
one process holds the lock, the flag says whether one does and `lk->pid` is its pid, and every
process asleep on the lock finds it held, so none has missed its wakeup (`Inv`).

`holdingsleep` returns the flag and does not compare `lk->pid` with the caller's pid: it says
that some process holds the lock, not that the caller does. The checks of `brelse`, `bwrite`,
`iunlock` and `iderw` therefore panic when the lock is free, but not when another process holds
it; that the caller is the holder comes from the structure of their callers.
-/

namespace Xv6.SleepLocks

open Monitor

/-- `struct sleeplock`, less its spinlock and its name. -/
structure SleepLock where
  locked : Bool
  pid : Int32
  deriving DecidableEq

/-- `initsleeplock`. -/
def initsleeplock : SleepLock := { locked := false, pid := 0 }

/-- The one channel: processes sleep on the lock itself, `sleep(lk, &lk->lk)`. -/
inductive Chan where
  | lk
  deriving DecidableEq

/-- Where a process is with the lock. -/
inductive At where
  | idle
  /-- in `acquiresleep`, in its wait loop -/
  | acquiring
  | holding
  deriving DecidableEq

/-- The channel of the wait loop a process at `a` may sleep in. -/
def At.loop : At → Option Chan
  | .acquiring => some .lk
  | _ => none

/-- One critical section of `acquiresleep` by the process with pid `pid`: the test of
`while (lk->locked) sleep(lk, &lk->lk)`, and once it fails `lk->locked = 1` and
`lk->pid = myproc()->pid`. -/
def acquiresleep (lk : SleepLock) (pid : Int32) : Outcome SleepLock At Chan :=
  if lk.locked then ⟨lk, .acquiring, [], some .lk⟩
  else ⟨{ locked := true, pid := pid }, .holding, [], none⟩

/-- `releasesleep`: `lk->locked = 0`, `lk->pid = 0`, `wakeup(lk)`. -/
def releasesleep (_lk : SleepLock) : Outcome SleepLock At Chan :=
  ⟨{ locked := false, pid := 0 }, .idle, [.lk], none⟩

/-- `holdingsleep`: `r = lk->locked`. -/
def holdingsleep (lk : SleepLock) : Bool := lk.locked

variable {ι : Type}

/-- No process in the lock's code, and the lock as `initsleeplock` leaves it. -/
def init : Sys ι SleepLock At Chan := ⟨initsleeplock, fun _ => .idle, fun _ => none⟩

section Steps

variable [DecidableEq ι]

/-- The steps of processes `ι` on one sleep-lock, `pid i` being the pid of process `i`. -/
inductive Step (pid : ι → Int32) : Sys ι SleepLock At Chan → Sys ι SleepLock At Chan → Prop
  /-- a process calls `acquiresleep` -/
  | call (s : Sys ι SleepLock At Chan) (i : ι) (h : s.pc i = .idle) :
      Step pid s (s.goto i .acquiring)
  /-- a runnable process in `acquiresleep` takes the spinlock and runs its wait loop -/
  | acquiresleep (s : Sys ι SleepLock At Chan) (i : ι) (h : s.pc i = .acquiring)
      (hrun : s.chan i = none) :
      Step pid s (s.exec i (acquiresleep s.shared (pid i)))
  /-- the holder calls `releasesleep` -/
  | releasesleep (s : Sys ι SleepLock At Chan) (i : ι) (h : s.pc i = .holding) :
      Step pid s (s.exec i (releasesleep s.shared))
  /-- `kill` makes a sleeper runnable -/
  | kill (s : Sys ι SleepLock At Chan) (i : ι) : Step pid s (s.wake i)

/-- The states the processes reach from `init`. -/
def Reach (pid : ι → Int32) (s : Sys ι SleepLock At Chan) : Prop :=
  Relation.ReflTransGen (Step pid) init s

end Steps

/-- The reason to sleep on the lock: it is held. -/
def Held (lk : SleepLock) (_ : Chan) : Prop := lk.locked = true

/-- What holds in every reachable state (module doc). -/
structure Inv (pid : ι → Int32) (s : Sys ι SleepLock At Chan) : Prop where
  one : ∀ i j, s.pc i = .holding → s.pc j = .holding → i = j
  locked : s.shared.locked = true ↔ ∃ i, s.pc i = .holding
  pid : ∀ i, s.pc i = .holding → s.shared.pid = pid i
  inLoop : s.InLoop At.loop
  covered : s.Covered Held

variable {pid : ι → Int32} {s : Sys ι SleepLock At Chan}

theorem Inv.init : Inv pid (init : Sys ι SleepLock At Chan) where
  one i _ h := by cases h
  locked := by simp [SleepLocks.init, initsleeplock]
  pid i h := by cases h
  inLoop i c h := by cases h
  covered := covered_none _

/-- A state with the same lock and the same holders keeps the invariant, given its sleepers. -/
theorem Inv.of_holders (h : Inv pid s) {s' : Sys ι SleepLock At Chan}
    (hsh : s'.shared = s.shared) (hpc : ∀ j, s'.pc j = .holding ↔ s.pc j = .holding)
    (hl : s'.InLoop At.loop) (hc : s'.Covered Held) : Inv pid s' where
  one i j hi hj := h.one i j ((hpc i).mp hi) ((hpc j).mp hj)
  locked := by simp only [hsh, hpc, h.locked]
  pid i hi := by rw [hsh]; exact h.pid i ((hpc i).mp hi)
  inLoop := hl
  covered := hc

variable [DecidableEq ι]

theorem Inv.call (h : Inv pid s) {i : ι} (hi : s.pc i = .idle) :
    Inv pid (s.goto i .acquiring) :=
  h.of_holders rfl (fun _ => Sys.update_pc_eq_iff (by rw [hi]; nofun) nofun)
    (h.inLoop.goto (by rw [hi]; rfl) _) (h.covered.goto i _)

/-- A process that finds the lock held goes to sleep on it, with the reason to. -/
theorem Inv.acquiresleep_wait (h : Inv pid s) {i : ι} (hi : s.pc i = .acquiring)
    (hl : s.shared.locked = true) : Inv pid (s.exec i (acquiresleep s.shared (pid i))) := by
  have ho : acquiresleep s.shared (pid i) = ⟨s.shared, .acquiring, [], some .lk⟩ := by
    simp [SleepLocks.acquiresleep, hl]
  rw [ho]
  refine h.of_holders rfl (fun _ => Sys.update_pc_eq_iff (by rw [hi]; nofun) nofun) ?_ ?_
  · exact h.inLoop.exec (fun _ hc => by cases hc; rfl) i
  · refine h.covered.exec ⟨fun _ _ _ hP => hP, ?_⟩ i
    rintro c -
    exact hl

/-- A process that finds the lock free takes it: it is the one holder, under its pid. -/
theorem Inv.acquiresleep_take (h : Inv pid s) {i : ι} (hl : s.shared.locked = false) :
    Inv pid (s.exec i (acquiresleep s.shared (pid i))) := by
  have ho : acquiresleep s.shared (pid i) =
      ⟨{ locked := true, pid := pid i }, .holding, [], none⟩ := by
    simp [SleepLocks.acquiresleep, hl]
  -- no process held the free lock, so `i` is the only holder after it
  have hfree : ∀ j, s.pc j ≠ .holding := fun j hj => by
    simpa [hl] using h.locked.mpr ⟨j, hj⟩
  have hholder : ∀ j, Function.update s.pc i At.holding j = .holding → j = i := by
    intro j hj
    by_contra hji
    rw [Function.update_of_ne hji] at hj
    exact hfree j hj
  rw [ho]
  refine ⟨?_, ?_, ?_, ?_, ?_⟩
  · intro j k hj hk
    rw [hholder j hj, hholder k hk]
  · simp only [Sys.exec_shared, Sys.exec_pc, true_iff]
    exact ⟨i, Function.update_self ..⟩
  · intro j hj
    rw [hholder j hj]
    rfl
  · exact h.inLoop.exec (fun _ hc => by cases hc) i
  · refine h.covered.exec ?_ i
    exact ⟨fun _ _ _ _ => rfl, fun _ hc => by cases hc⟩

/-- The holder's `releasesleep` frees the lock and wakes every sleeper. -/
theorem Inv.releasesleep (h : Inv pid s) {i : ι} (hi : s.pc i = .holding) :
    Inv pid (s.exec i (releasesleep s.shared)) := by
  -- the holder was the only one, and it leaves
  have hnone : ∀ j, Function.update s.pc i At.idle j ≠ .holding := by
    intro j hj
    by_cases hji : j = i
    · subst hji
      simp at hj
    · rw [Function.update_of_ne hji] at hj
      exact hji (h.one j i hj hi)
  refine ⟨?_, ?_, ?_, ?_, ?_⟩
  · intro j _ hj
    exact absurd hj (hnone j)
  · simp only [SleepLocks.releasesleep, Sys.exec_shared, Sys.exec_pc, Bool.false_eq_true,
      false_iff, not_exists]
    exact hnone
  · intro j hj
    exact absurd hj (hnone j)
  · exact h.inLoop.exec (fun _ hc => by cases hc) i
  · refine h.covered.exec ⟨fun c hc => ?_, fun _ hc => by cases hc⟩ i
    cases c
    exact absurd (List.mem_singleton_self _) hc

theorem Inv.kill (h : Inv pid s) (i : ι) : Inv pid (s.wake i) :=
  h.of_holders rfl (fun _ => Iff.rfl) (h.inLoop.wake i) (h.covered.wake i)

theorem Inv.step (h : Inv pid s) {s' : Sys ι SleepLock At Chan} (hs : Step pid s s') :
    Inv pid s' := by
  cases hs with
  | call i hi => exact h.call hi
  | acquiresleep i hi _ =>
    cases hl : s.shared.locked
    · exact h.acquiresleep_take hl
    · exact h.acquiresleep_wait hi hl
  | releasesleep i hi => exact h.releasesleep hi
  | kill i => exact h.kill i

theorem inv_of_reach (h : Reach pid s) : Inv pid s := by
  induction h with
  | refl => exact Inv.init
  | tail _ hs ih => exact ih.step hs

/-- In every reachable state at most one process holds the sleep-lock; `holdingsleep` returns 1
exactly when one does, whichever process calls it, and `lk->pid` is then the holder's pid; and
every process asleep on the lock is in `acquiresleep`'s wait loop and finds the lock held, so
none has missed the `wakeup` of a `releasesleep`. -/
theorem sleeplock_exclusive (h : Reach pid s) :
    (∀ i j, s.pc i = .holding → s.pc j = .holding → i = j) ∧
    (holdingsleep s.shared = true ↔ ∃ i, s.pc i = .holding) ∧
    (∀ i, s.pc i = .holding → s.shared.pid = pid i) ∧
    (∀ i, s.chan i = some .lk → s.pc i = .acquiring ∧ s.shared.locked = true) := by
  have hinv := inv_of_reach h
  refine ⟨hinv.one, hinv.locked, hinv.pid, fun i hi => ⟨?_, hinv.covered i _ hi⟩⟩
  have hl := hinv.inLoop i _ hi
  cases hpc : s.pc i <;> rw [hpc] at hl <;> first | rfl | cases hl

/-- Two processes, `false` with pid 1 and `true` with pid 2. -/
def twoPids : Bool → Int32 := fun i => if i then 2 else 1

/-- Process `false` holds the lock and process `true` sleeps on it. -/
def contended : Sys Bool SleepLock At Chan :=
  let s₁ := ((init : Sys Bool SleepLock At Chan).goto false .acquiring).exec false
    (acquiresleep initsleeplock 1)
  (s₁.goto true .acquiring).exec true (acquiresleep s₁.shared 2)

theorem contended_reach : Reach twoPids contended := by
  have h1 := (Relation.ReflTransGen.refl (r := Step twoPids)
    (a := (init : Sys Bool SleepLock At Chan))).tail (Step.call _ false rfl)
  have h2 := h1.tail (Step.acquiresleep _ false rfl rfl)
  have h3 := h2.tail (Step.call _ true rfl)
  exact h3.tail (Step.acquiresleep _ true rfl rfl)

theorem sleeplock_exclusive_contended :
    (∀ i j, contended.pc i = .holding → contended.pc j = .holding → i = j) ∧
    (holdingsleep contended.shared = true ↔ ∃ i, contended.pc i = .holding) ∧
    (∀ i, contended.pc i = .holding → contended.shared.pid = twoPids i) ∧
    (∀ i, contended.chan i = some .lk →
      contended.pc i = .acquiring ∧ contended.shared.locked = true) :=
  sleeplock_exclusive contended_reach

end Xv6.SleepLocks
