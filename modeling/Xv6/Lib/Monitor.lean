import Mathlib.Logic.Function.Basic
import Mathlib.Data.List.Basic

/-!
Sleep and wakeup on channels.

Processes that share a state under one lock wait for a change of it by sleeping on a channel:
a process that finds the state not to its liking goes to sleep on the channel of what it waits
for, giving up the lock in the same atomic step, and whoever changes that part of the state
wakes the channel, which makes every process asleep on it runnable. A woken process takes the
lock again and looks afresh, so a wakeup too many is harmless. A wakeup too few is not: a
process asleep on a channel whose reason to wait has gone, and which nobody is bound to wake,
has lost its wakeup.

A system of processes is where each one is in its code (`pc`), the shared state, and the
channel each one sleeps on (`chan`). A critical section of one process ends in an `Outcome`:
the shared state after it, where the process is then, the channels it woke, and the channel it
went to sleep on, if it did. The reasons to wait are a predicate `P x c` of the shared state
and a channel, and `Sys.Covered P s` says that every sleeper's reason still holds, that is no
wakeup has been lost. A section keeps it when it keeps the reason of every channel with
sleepers that it does not wake and sleeps only on a channel whose reason holds
(`Sys.Covered.exec`), and so do code that is no process, such as an interrupt handler
(`Sys.Covered.signal`), and a process that wakes without a wakeup (`Sys.Covered.wake`).
-/

namespace Monitor

variable {ι κ : Type*}

/-! ### The sleep table -/

section Wakeup

variable [DecidableEq κ]

/-- `wakeup(c)`: every process asleep on `c` becomes runnable. -/
def wakeup (c : κ) (t : ι → Option κ) : ι → Option κ :=
  fun i => if t i = some c then none else t i

/-- Wake the channels of `cs`, in order. -/
def wakeupAll (cs : List κ) (t : ι → Option κ) : ι → Option κ :=
  cs.foldl (fun t c => wakeup c t) t

@[simp] theorem wakeupAll_nil (t : ι → Option κ) : wakeupAll [] t = t := rfl

@[simp] theorem wakeupAll_cons (c : κ) (cs : List κ) (t : ι → Option κ) :
    wakeupAll (c :: cs) t = wakeupAll cs (wakeup c t) := rfl

theorem wakeupAll_append (cs ds : List κ) (t : ι → Option κ) :
    wakeupAll (cs ++ ds) t = wakeupAll ds (wakeupAll cs t) :=
  List.foldl_append

theorem wakeup_eq_some {c c' : κ} {t : ι → Option κ} {i : ι} :
    wakeup c t i = some c' ↔ t i = some c' ∧ c' ≠ c := by
  unfold wakeup
  split
  · next h =>
    rw [h]
    simp only [reduceCtorEq, false_iff, not_and, Option.some.injEq, not_not]
    exact Eq.symm
  · next h =>
    constructor
    · intro h'
      refine ⟨h', ?_⟩
      rintro rfl
      exact h h'
    · exact And.left

/-- After `wakeupAll cs`, the processes still asleep are those asleep before on a channel
not in `cs`. -/
theorem wakeupAll_eq_some {cs : List κ} {t : ι → Option κ} {i : ι} {c : κ} :
    wakeupAll cs t i = some c ↔ t i = some c ∧ c ∉ cs := by
  induction cs generalizing t with
  | nil => simp
  | cons d cs ih =>
    rw [wakeupAll_cons, ih, wakeup_eq_some, List.mem_cons, not_or, and_assoc]

end Wakeup

/-- Every process asleep on a channel still has the reason `P` to wait on it. -/
def Covered (P : κ → Prop) (t : ι → Option κ) : Prop :=
  ∀ i c, t i = some c → P c

theorem covered_none (P : κ → Prop) : Covered P (fun _ : ι => none) := by
  intro i c h
  cases h

/-- Waking channels keeps every sleeper covered, whatever the reasons of the woken channels
have become, when the reason of every other channel with sleepers is kept. -/
theorem Covered.wakeupAll [DecidableEq κ] {P Q : κ → Prop} {t : ι → Option κ} (h : Covered P t)
    (cs : List κ) (hkeep : ∀ c, c ∉ cs → (∃ j, t j = some c) → P c → Q c) :
    Covered Q (Monitor.wakeupAll cs t) := by
  intro i c hc
  obtain ⟨hi, hcs⟩ := wakeupAll_eq_some.mp hc
  exact hkeep c hcs ⟨i, hi⟩ (h i c hi)

/-- A change of the reasons that keeps the reason of every channel with sleepers. -/
theorem Covered.imp {P Q : κ → Prop} {t : ι → Option κ} (h : Covered P t)
    (hkeep : ∀ c, (∃ j, t j = some c) → P c → Q c) : Covered Q t :=
  fun i c hc => hkeep c ⟨i, hc⟩ (h i c hc)

/-- One process goes to sleep on a channel whose reason holds, or wakes. -/
theorem Covered.update [DecidableEq ι] {P : κ → Prop} {t : ι → Option κ} (h : Covered P t)
    (i : ι) {o : Option κ} (ho : ∀ c, o = some c → P c) : Covered P (Function.update t i o) := by
  intro j c hc
  by_cases hji : j = i
  · subst hji
    rw [Function.update_self] at hc
    exact ho c hc
  · rw [Function.update_of_ne hji] at hc
    exact h j c hc

/-! ### Processes and their critical sections -/

/-- Processes `ι` at places `α` of their code, sharing the state `σ` under one lock, each of
them asleep on a channel `κ` or not. -/
structure Sys (ι σ α κ : Type*) where
  shared : σ
  pc : ι → α
  chan : ι → Option κ

/-- What one critical section of a process leaves: the shared state, where the process is,
the channels it woke, and the channel it went to sleep on, if it did. -/
structure Outcome (σ α κ : Type*) where
  shared : σ
  pc : α
  wakes : List κ
  sleep : Option κ

variable {σ α : Type*}

namespace Sys

/-- Process `i`, which is not asleep, runs a critical section that ends in `o`. It goes to
sleep, if it does, after its wakeups: `sleep` gives up the lock and so ends the section. -/
def exec [DecidableEq ι] [DecidableEq κ] (s : Sys ι σ α κ) (i : ι) (o : Outcome σ α κ) :
    Sys ι σ α κ :=
  ⟨o.shared, Function.update s.pc i o.pc, Function.update (wakeupAll o.wakes s.chan) i o.sleep⟩

/-- Code that is no process, such as an interrupt handler, leaves the shared state `x` and
wakes the channels `cs`. -/
def signal [DecidableEq κ] (s : Sys ι σ α κ) (x : σ) (cs : List κ) : Sys ι σ α κ :=
  ⟨x, s.pc, wakeupAll cs s.chan⟩

/-- Process `i` becomes runnable without a wakeup. -/
def wake [DecidableEq ι] (s : Sys ι σ α κ) (i : ι) : Sys ι σ α κ :=
  { s with chan := Function.update s.chan i none }

/-- Process `i` moves to `a` outside any critical section, as when it enters a call. -/
def goto [DecidableEq ι] (s : Sys ι σ α κ) (i : ι) (a : α) : Sys ι σ α κ :=
  { s with pc := Function.update s.pc i a }

/-- Every sleeper sleeps in a wait loop of its channel: `loop a` is the channel a process at `a`
sleeps on, if it sleeps there. -/
def InLoop (loop : α → Option κ) (s : Sys ι σ α κ) : Prop :=
  ∀ i c, s.chan i = some c → loop (s.pc i) = some c

/-- No wakeup is lost: every sleeper still has its reason `P` to wait. -/
def Covered (P : σ → κ → Prop) (s : Sys ι σ α κ) : Prop :=
  Monitor.Covered (P s.shared) s.chan

/-- A section, run in `s`, keeps the reason of every channel with sleepers that it does not
wake, and sleeps only on a channel whose reason holds after it. -/
structure Respects (P : σ → κ → Prop) (s : Sys ι σ α κ) (o : Outcome σ α κ) : Prop where
  keep : ∀ c, c ∉ o.wakes → (∃ j, s.chan j = some c) → P s.shared c → P o.shared c
  sleep : ∀ c, o.sleep = some c → P o.shared c

section Exec

variable [DecidableEq ι] [DecidableEq κ] (s : Sys ι σ α κ) (i : ι) (o : Outcome σ α κ)

@[simp] theorem exec_shared : (s.exec i o).shared = o.shared := rfl
@[simp] theorem exec_pc : (s.exec i o).pc = Function.update s.pc i o.pc := rfl
@[simp] theorem exec_chan :
    (s.exec i o).chan = Function.update (wakeupAll o.wakes s.chan) i o.sleep := rfl

end Exec

section Signal

variable [DecidableEq κ] (s : Sys ι σ α κ) (x : σ) (cs : List κ)

@[simp] theorem signal_shared : (s.signal x cs).shared = x := rfl
@[simp] theorem signal_pc : (s.signal x cs).pc = s.pc := rfl
@[simp] theorem signal_chan : (s.signal x cs).chan = wakeupAll cs s.chan := rfl

end Signal

section Wake

variable [DecidableEq ι] (s : Sys ι σ α κ) (i : ι)

@[simp] theorem wake_shared : (s.wake i).shared = s.shared := rfl
@[simp] theorem wake_pc : (s.wake i).pc = s.pc := rfl
@[simp] theorem wake_chan : (s.wake i).chan = Function.update s.chan i none := rfl
@[simp] theorem goto_shared (a : α) : (s.goto i a).shared = s.shared := rfl
@[simp] theorem goto_pc (a : α) : (s.goto i a).pc = Function.update s.pc i a := rfl
@[simp] theorem goto_chan (a : α) : (s.goto i a).chan = s.chan := rfl

end Wake

variable [DecidableEq ι] [DecidableEq κ] {P : σ → κ → Prop} {s : Sys ι σ α κ}

/-- Who sleeps after a section: the process itself, on the channel it chose, or another one
that was asleep before on a channel the section did not wake. -/
theorem exec_chan_eq_some {i j : ι} {o : Outcome σ α κ} {c : κ} :
    (s.exec i o).chan j = some c ↔
      (j = i ∧ o.sleep = some c) ∨ (j ≠ i ∧ s.chan j = some c ∧ c ∉ o.wakes) := by
  by_cases hji : j = i
  · subst hji
    simp
  · simp [wakeupAll_eq_some, hji]

theorem Covered.exec (h : s.Covered P) {o : Outcome σ α κ} (ho : Respects P s o) (i : ι) :
    (s.exec i o).Covered P :=
  (Monitor.Covered.wakeupAll h o.wakes ho.keep).update i ho.sleep

omit [DecidableEq ι] in
theorem Covered.signal (h : s.Covered P) {x : σ} {cs : List κ}
    (hkeep : ∀ c, c ∉ cs → (∃ j, s.chan j = some c) → P s.shared c → P x c) :
    (s.signal x cs).Covered P :=
  Monitor.Covered.wakeupAll h cs hkeep

omit [DecidableEq κ] in
theorem Covered.wake (h : s.Covered P) (i : ι) : (s.wake i).Covered P :=
  Monitor.Covered.update h i (fun _ h' => by cases h')

omit [DecidableEq κ] in
theorem Covered.goto (h : s.Covered P) (i : ι) (a : α) : (s.goto i a).Covered P := h

omit [DecidableEq ι] [DecidableEq κ] in
/-- A section keeps the reasons of the channels that satisfy `Q` when it keeps all reasons. -/
theorem Respects.restrict {o : Outcome σ α κ} (ho : Respects P s o) (Q : κ → Prop) :
    Respects (fun x c => Q c → P x c) s o where
  keep c hc hs hP hQ := ho.keep c hc hs (hP hQ)
  sleep c hc _ := ho.sleep c hc

section InLoop

variable {loop : α → Option κ}

theorem InLoop.exec (h : s.InLoop loop) {o : Outcome σ α κ}
    (ho : ∀ c, o.sleep = some c → loop o.pc = some c) (i : ι) : (s.exec i o).InLoop loop := by
  intro j c hc
  rcases exec_chan_eq_some.mp hc with ⟨rfl, hs⟩ | ⟨hji, hj, -⟩
  · rw [exec_pc, Function.update_self]
    exact ho c hs
  · rw [exec_pc, Function.update_of_ne hji]
    exact h j c hj

omit [DecidableEq ι] in
theorem InLoop.signal (h : s.InLoop loop) (x : σ) (cs : List κ) :
    (s.signal x cs).InLoop loop := by
  intro j c hc
  exact h j c (wakeupAll_eq_some.mp hc).1

omit [DecidableEq κ] in
theorem InLoop.wake (h : s.InLoop loop) (i : ι) : (s.wake i).InLoop loop := by
  intro j c hc
  by_cases hji : j = i
  · subst hji
    simp at hc
  · rw [wake_chan, Function.update_of_ne hji] at hc
    exact h j c hc

omit [DecidableEq κ] in
/-- A process that is at no wait loop moves without the lock. -/
theorem InLoop.goto (h : s.InLoop loop) {i : ι} (hi : loop (s.pc i) = none) (a : α) :
    (s.goto i a).InLoop loop := by
  intro j c hc
  by_cases hji : j = i
  · subst hji
    have := h j c hc
    rw [hi] at this
    cases this
  · rw [goto_pc, Function.update_of_ne hji]
    exact h j c hc

end InLoop

omit [DecidableEq κ] in
/-- A process that moves between two places other than `a` leaves the processes at `a` as
they were. -/
theorem update_pc_eq_iff {pc : ι → α} {i j : ι} {a b : α} (hi : pc i ≠ a) (hb : b ≠ a) :
    Function.update pc i b j = a ↔ pc j = a := by
  by_cases hji : j = i
  · subst hji
    rw [Function.update_self]
    exact ⟨fun h => absurd h hb, fun h => absurd h hi⟩
  · rw [Function.update_of_ne hji]

end Sys

end Monitor
