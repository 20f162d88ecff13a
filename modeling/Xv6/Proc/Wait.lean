import Xv6.Proc.Pid
import Xv6.Lib.Monitor

/-!
# No lost wakeup in `wait`

`wait` sleeps on its own process, `sleep(curproc, &ptable.lock)`, while it has children, none
of them a zombie, and has not been killed. Its reason to sleep goes away when a child becomes a
zombie or when it is killed, and each of these happens in a critical section that wakes it:
`exit` wakes the parent, `wakeup1(curproc->parent)`, in the critical section in which it
becomes a zombie, and wakes `initproc` when one of the children it hands over is already a
zombie; `kill` makes the process it marks runnable. The channel of every `SLEEPING` slot is a
sleep table in the sense of `Monitor`, on which `wakeup1` is `Monitor.wakeup`
(`sleepsOn_wakeup1`), and every step of the process table keeps every process asleep in `wait`
covered by its reason (`WaitInv`).

Three facts about parents are needed on the way: a slot that is not live (`UNUSED` or
`EMBRYO`) has no parent, so `fork` gives its child a parent without taking a child away from
anyone; `initproc` has no parent; and no process is its own parent, so the zombie `exit` makes
is the child of the parent it wakes.
-/

namespace Xv6.Procs

/-- The channel each `SLEEPING` slot sleeps on: the sleep table of the process table. -/
def Kernel.sleepsOn (k : Kernel) (p : Fin NPROC) : Option Chan :=
  if (k.proc p).state = .sleeping then (k.proc p).chan else none

/-- Why a process sleeps on a channel of the table. On a process `c`, it is the reason of the
loop of `wait` in `c`: `c` has a child, none of them a zombie, and has not been killed. A
process asleep on any other channel waits for a reason of its own code. -/
def WaitReason (k : Kernel) : Chan → Prop
  | .proc c => k.zombieChild c = none ∧ k.hasKids c = true ∧ (k.proc c).killed = false
  | .other _ => True

/-- What every reachable table keeps, besides `Tree` and `Owned`. -/
structure WaitInv (k : Kernel) : Prop where
  /-- only `wait` sleeps on a process, and on its own -/
  self : ∀ p c, k.sleepsOn p = some (.proc c) → c = p
  /-- a slot that is not live has no parent -/
  orphan : ∀ p, (k.proc p).state.live = false → (k.proc p).parent = none
  initOrphan : (k.proc initproc).parent = none
  noSelf : ∀ p, (k.proc p).parent ≠ some p
  /-- every process asleep in `wait` still has its reason -/
  covered : Monitor.Covered (WaitReason k) k.sleepsOn

/-- Two versions of a slot that the reasons of `wait` and the facts about parents cannot tell
apart. -/
structure Proc.SameWait (pr pr' : Proc) : Prop where
  parent : pr'.parent = pr.parent
  zombie : (pr'.state == .zombie) = (pr.state == .zombie)
  live : pr'.state.live = pr.state.live
  killed : pr'.killed = pr.killed

theorem Proc.SameWait.refl (pr : Proc) : pr.SameWait pr := ⟨rfl, rfl, rfl, rfl⟩

theorem ProcState.eq_zombie_iff (s : ProcState) : s = .zombie ↔ s.live = true ∧ s.active = false := by
  cases s <;> simp [ProcState.live, ProcState.active]

/-- A step that only reschedules a slot makes no zombie and takes none away. -/
theorem Proc.Resched.zombie {pr pr' : Proc} (h : pr.Resched pr') :
    (pr'.state == .zombie) = (pr.state == .zombie) := by
  have hz : pr'.state = .zombie ↔ pr.state = .zombie := by
    rw [ProcState.eq_zombie_iff, ProcState.eq_zombie_iff, h.live, h.active]
  by_cases hs : pr.state = .zombie
  · rw [hs, hz.mpr hs]
  · have hs' : pr'.state ≠ .zombie := fun h' => hs (hz.mp h')
    simp [hs, hs']

/-- A step that only reschedules a slot keeps what `wait` sees of it, but for `killed`. -/
theorem Proc.Resched.sameWait {pr pr' : Proc} (h : pr.Resched pr') (hk : pr'.killed = pr.killed) :
    pr.SameWait pr' :=
  ⟨h.parent, h.zombie, h.live, hk⟩

@[simp] theorem wake_killed (ch : Chan) (pr : Proc) : (wake ch pr).killed = pr.killed := by
  unfold wake
  split <;> rfl

theorem wake_state_of_awake (ch : Chan) {pr : Proc} (h : pr.state ≠ .sleeping) :
    (wake ch pr).state = pr.state := by
  unfold wake
  split
  · next h' => exact absurd h'.1 h
  · rfl

@[simp] theorem adopt_killed (c : Fin NPROC) (pr : Proc) : (adopt c pr).killed = pr.killed := by
  unfold adopt
  split <;> rfl

@[simp] theorem adopt_chan (c : Fin NPROC) (pr : Proc) : (adopt c pr).chan = pr.chan := by
  unfold adopt
  split <;> rfl

namespace Kernel

variable {k k' : Kernel}

theorem sleepsOn_eq_some {p : Fin NPROC} {ch : Chan} :
    k.sleepsOn p = some ch ↔ (k.proc p).state = .sleeping ∧ (k.proc p).chan = some ch := by
  unfold sleepsOn
  split <;> simp_all

/-- `wakeup1` is `wakeup` on the sleep table. -/
theorem sleepsOn_wakeup1 (k : Kernel) (ch : Chan) :
    (k.wakeup1 ch).sleepsOn = Monitor.wakeup ch k.sleepsOn := by
  funext p
  by_cases hs : (k.proc p).state = .sleeping <;> by_cases hc : (k.proc p).chan = some ch <;>
    simp [sleepsOn, wakeup1, wake, Monitor.wakeup, hs, hc]

theorem sleepsOn_setProc (k : Kernel) (p : Fin NPROC) (pr : Proc) :
    (k.setProc p pr).sleepsOn =
      Function.update k.sleepsOn p (if pr.state = .sleeping then pr.chan else none) := by
  funext q
  by_cases hq : q = p
  · subst hq
    simp [sleepsOn]
  · simp [sleepsOn, setProc_proc_of_ne _ _ hq, hq]

/-- A slot that neither sleeps before nor after a change leaves the sleep table as it was. -/
theorem sleepsOn_setProc_of_awake {p : Fin NPROC} {pr : Proc}
    (h : (k.proc p).state ≠ .sleeping) (h' : pr.state ≠ .sleeping) :
    (k.setProc p pr).sleepsOn = k.sleepsOn := by
  rw [sleepsOn_setProc, if_neg h']
  exact Function.update_eq_self_iff.mpr (by simp [sleepsOn, h])

theorem sleepsOn_adoptAll (k : Kernel) (c : Fin NPROC) : (k.adoptAll c).sleepsOn = k.sleepsOn := by
  funext p
  simp [sleepsOn, adoptAll]

/-- The zombie children and the children of every process depend only on the parents of the
slots and on which of them are zombies. -/
theorem zombieChild_congr (hpar : ∀ q, (k'.proc q).parent = (k.proc q).parent)
    (hz : ∀ q, ((k'.proc q).state == .zombie) = ((k.proc q).state == .zombie)) (c : Fin NPROC) :
    k'.zombieChild c = k.zombieChild c := by
  simp only [zombieChild, hpar, hz]

theorem hasKids_congr (hpar : ∀ q, (k'.proc q).parent = (k.proc q).parent) (c : Fin NPROC) :
    k'.hasKids c = k.hasKids c := by
  simp only [hasKids, hpar]

theorem hasKids_iff {c : Fin NPROC} : k.hasKids c = true ↔ ∃ q, (k.proc q).parent = some c := by
  simp [hasKids]

/-- The reason of `wait` in `c` is the same in two tables that agree on what `wait` sees. -/
theorem waitReason_proc_iff (hpar : ∀ q, (k'.proc q).parent = (k.proc q).parent)
    (hz : ∀ q, ((k'.proc q).state == .zombie) = ((k.proc q).state == .zombie)) {c : Fin NPROC}
    (hk : (k'.proc c).killed = (k.proc c).killed) :
    WaitReason k' (.proc c) ↔ WaitReason k (.proc c) := by
  simp only [WaitReason, zombieChild_congr hpar hz, hasKids_congr hpar, hk]

theorem waitReason_eq (h : ∀ q, (k.proc q).SameWait (k'.proc q)) : WaitReason k' = WaitReason k := by
  funext ch
  cases ch with
  | proc c =>
    exact propext (waitReason_proc_iff (fun q => (h q).parent) (fun q => (h q).zombie)
      (h c).killed)
  | other n => rfl

theorem wakeParent_killed (k : Kernel) (c q : Fin NPROC) :
    ((k.wakeParent c).proc q).killed = (k.proc q).killed := by
  unfold wakeParent
  split <;> simp [wakeup1]

theorem reparent_killed (k : Kernel) (c q : Fin NPROC) :
    ((k.reparent c).proc q).killed = (k.proc q).killed := by
  unfold reparent
  split <;> simp [wakeup1, adoptAll]

theorem exit_killed {c : Fin NPROC} (hx : k.exit c = .ok k') (q : Fin NPROC) :
    (k'.proc q).killed = (k.proc q).killed := by
  unfold exit at hx
  split at hx
  · cases hx
  · cases hx
    have hz : (((k.wakeParent c).reparent c).zombify c).proc q =
        if q = c then { ((k.wakeParent c).reparent c).proc c with state := .zombie }
        else ((k.wakeParent c).reparent c).proc q := by
      by_cases hq : q = c
      · subst hq
        simp [zombify]
      · simp [zombify, setProc_proc_of_ne _ _ hq, hq]
    rw [hz]
    split
    · next hq =>
      subst hq
      exact (reparent_killed _ _ _).trans (wakeParent_killed _ _ _)
    · exact (reparent_killed _ _ _).trans (wakeParent_killed _ _ _)

theorem sleepsOn_wakeParent (k : Kernel) (c : Fin NPROC) :
    (k.wakeParent c).sleepsOn =
      Monitor.wakeupAll ((k.proc c).parent.toList.map Chan.proc) k.sleepsOn := by
  unfold wakeParent
  split
  · next q hq => simp [hq, sleepsOn_wakeup1]
  · next hq => simp [hq]

theorem sleepsOn_reparent (k : Kernel) (c : Fin NPROC) :
    (k.reparent c).sleepsOn = Monitor.wakeupAll
      (if (k.zombieChild c).isSome then [.proc initproc] else []) k.sleepsOn := by
  unfold reparent
  split <;> simp [*, sleepsOn_wakeup1, sleepsOn_adoptAll]

/-- The channels `exit` wakes: the parent's, and `initproc`'s when a child is a zombie. -/
def exitWakes (k : Kernel) (c : Fin NPROC) : List Chan :=
  (k.proc c).parent.toList.map Chan.proc ++
    if (k.zombieChild c).isSome then [.proc initproc] else []

/-- `exit` of a running process wakes the channels of `exitWakes` on the sleep table. -/
theorem sleepsOn_exit {c : Fin NPROC} (hrun : (k.proc c).state = .running)
    (hx : k.exit c = .ok k') : k'.sleepsOn = Monitor.wakeupAll (k.exitWakes c) k.sleepsOn := by
  unfold exit at hx
  split at hx
  · cases hx
  · cases hx
    -- `wakeParent` changes no parent and no zombie, so `reparent` sees the zombies of `k`
    have hz : (k.wakeParent c).zombieChild c = k.zombieChild c :=
      zombieChild_congr (fun q => (k.resched_wakeParent c q).parent)
        (fun q => ((k.resched_wakeParent c q).sameWait (wakeParent_killed k c q)).zombie) c
    -- `c` runs through `wakeParent` and `reparent`, so `zombify` leaves the table as it was
    have hc : (((k.wakeParent c).reparent c).proc c).state = .running := by
      have hw : ((k.wakeParent c).proc c).state = .running := by
        unfold wakeParent
        split
        · simp [wakeup1, wake_state_of_awake _ (show (k.proc c).state ≠ .sleeping by simp [hrun]),
            hrun]
        · exact hrun
      unfold reparent
      split
      · simp only [wakeup1, adoptAll]
        rw [wake_state_of_awake _ (by simp [hw]), adopt_state, hw]
      · simp [adoptAll, hw]
    rw [zombify, sleepsOn_setProc_of_awake (by simp [hc]) (by simp), sleepsOn_reparent, hz,
      sleepsOn_wakeParent, exitWakes, Monitor.wakeupAll_append]

theorem sameWait_setProc {p : Fin NPROC} {pr : Proc} (h : (k.proc p).SameWait pr) (q : Fin NPROC) :
    (k.proc q).SameWait ((k.setProc p pr).proc q) := by
  by_cases hq : q = p
  · subst hq
    simpa using h
  · rw [setProc_proc_of_ne _ _ hq]
    exact .refl _

end Kernel

section Inv

variable {k k' : Kernel}

/-- A step that changes nothing `wait` sees keeps the invariant when its sleepers sleep on
themselves in `wait` and keep the reasons they had. -/
theorem WaitInv.sameWait (h : WaitInv k) (hs : ∀ q, (k.proc q).SameWait (k'.proc q))
    (hself : ∀ p c, k'.sleepsOn p = some (.proc c) → c = p)
    (hcov : Monitor.Covered (WaitReason k) k'.sleepsOn) : WaitInv k' where
  self := hself
  orphan p hp := by
    rw [(hs p).parent]
    exact h.orphan p (by rw [← (hs p).live]; exact hp)
  initOrphan := by
    rw [(hs initproc).parent]
    exact h.initOrphan
  noSelf p := by
    rw [(hs p).parent]
    exact h.noSelf p
  covered := by
    rw [Kernel.waitReason_eq hs]
    exact hcov

/-- A step that leaves the sleep table alone. -/
theorem WaitInv.quiet (h : WaitInv k) (hs : ∀ q, (k.proc q).SameWait (k'.proc q))
    (hsl : k'.sleepsOn = k.sleepsOn) : WaitInv k' :=
  h.sameWait hs (by rw [hsl]; exact h.self) (by rw [hsl]; exact h.covered)

/-- `WaitInv` is about the slots alone. -/
theorem WaitInv.of_proc (h : WaitInv k) (he : k'.proc = k.proc) : WaitInv k' := by
  obtain ⟨proc, v, m⟩ := k'
  subst he
  exact ⟨h.self, h.orphan, h.initOrphan, h.noSelf, h.covered⟩

/-- A change of one slot that `wait` cannot see, by the scheduler, `fork`'s failures or a
process that goes to sleep on an address that is no process. -/
theorem WaitInv.setProc (h : WaitInv k) {p : Fin NPROC} {pr : Proc} (hw : (k.proc p).SameWait pr)
    (hch : ∀ c, pr.state = .sleeping → pr.chan ≠ some (.proc c))
    (haw : (k.proc p).state ≠ .sleeping) : WaitInv (k.setProc p pr) := by
  refine h.sameWait (Kernel.sameWait_setProc hw) ?_ ?_ <;> rw [Kernel.sleepsOn_setProc]
  · intro q c hq
    by_cases hqp : q = p
    · subst hqp
      rw [Function.update_self] at hq
      split at hq
      · next hs => exact absurd hq (hch c hs)
      · cases hq
    · rw [Function.update_of_ne hqp] at hq
      exact h.self q c hq
  · refine h.covered.update p fun c hc => ?_
    split at hc
    · next hs =>
      cases c with
      | proc c => exact absurd hc (hch c hs)
      | other n => trivial
    · cases hc

/-- `wakeup(chan)` for a channel that is no process. -/
theorem WaitInv.wakeup1 (h : WaitInv k) (n : Nat) : WaitInv (k.wakeup1 (.other n)) := by
  refine h.sameWait (fun q => (k.resched_wakeup1 _ q).sameWait (wake_killed _ _)) ?_ ?_ <;>
    rw [Kernel.sleepsOn_wakeup1]
  · intro p c hp
    exact h.self p c (Monitor.wakeup_eq_some.mp hp).1
  · exact h.covered.wakeupAll [.other n] fun _ _ _ hP => hP

/-- `fork` hands a slot that is not live to its caller as a new child. -/
theorem WaitInv.forkOk (h : WaitInv k) (ht : Tree k) {c p : Fin NPROC}
    (hrun : (k.proc c).state = .running) (hp : (k.proc p).state = .embryo) (r : Nat)
    (pages m : List Nat) : WaitInv (k.forkOk c p r pages m) := by
  have hpar : (k.proc p).parent = none := h.orphan p (by simp [hp])
  have hcp : c ≠ p := by
    rintro rfl
    rw [hrun] at hp
    cases hp
  have hip : p ≠ initproc := by
    rintro rfl
    have := ht.init_active
    rw [hp] at this
    cases this
  have hsl : (k.forkOk c p r pages m).sleepsOn = k.sleepsOn :=
    Kernel.sleepsOn_setProc_of_awake (by simp [hp]) (by simp [Proc.spawn])
  -- every other slot is as it was
  have hq : ∀ q, q ≠ p → (k.forkOk c p r pages m).proc q = k.proc q :=
    fun q hq => Kernel.setProc_proc_of_ne _ _ hq
  have hpp : (k.forkOk c p r pages m).proc p = (k.proc p).spawn c r pages :=
    Kernel.setProc_proc_self _ _ _
  refine ⟨?_, fun q hl => ?_, ?_, fun q => ?_, ?_⟩
  · rw [hsl]
    exact h.self
  · by_cases hqp : q = p
    · subst hqp
      rw [hpp] at hl
      simp [Proc.spawn] at hl
    · rw [hq q hqp] at hl ⊢
      exact h.orphan q hl
  · rw [hq _ hip.symm]
    exact h.initOrphan
  · by_cases hqp : q = p
    · subst hqp
      rw [hpp]
      simpa [Proc.spawn] using hcp
    · rw [hq q hqp]
      exact h.noSelf q
  · rw [hsl]
    refine h.covered.imp fun d _ hP => ?_
    cases d with
    | other n => trivial
    | proc d =>
      obtain ⟨hz, hkids, hk⟩ := hP
      refine ⟨Kernel.zombieChild_eq_none.mpr fun q hqd => ?_, ?_, ?_⟩
      · by_cases hqp : q = p
        · subst hqp
          rw [hpp]
          simp [Proc.spawn]
        · rw [hq q hqp] at hqd ⊢
          exact Kernel.zombieChild_eq_none.mp hz q hqd
      · -- the old children of `d` keep their parent: the new child had none
        obtain ⟨q, hqd⟩ := Kernel.hasKids_iff.mp hkids
        have hqp : q ≠ p := by
          rintro rfl
          rw [hpar] at hqd
          cases hqd
        exact Kernel.hasKids_iff.mpr ⟨q, by rw [hq q hqp]; exact hqd⟩
      · by_cases hdp : d = p
        · subst hdp
          rw [hpp]
          exact hk
        · rw [hq d hdp]
          exact hk

/-- `exit` of a running process, which wakes its parent and, if a child it hands over is a
zombie, `initproc`. -/
theorem WaitInv.exit (h : WaitInv k) {c : Fin NPROC} (hrun : (k.proc c).state = .running)
    (hx : k.exit c = .ok k') : WaitInv k' := by
  have hpar : ∀ q, (k'.proc q).parent =
      if (k.proc q).parent = some c then some initproc else (k.proc q).parent :=
    fun q => (Kernel.exit_proc hx q).1.trans (adopt_parent c _)
  have hsl := Kernel.sleepsOn_exit hrun hx
  refine ⟨fun p d hp => ?_, fun q hl => ?_, ?_, fun q => ?_, ?_⟩
  · rw [hsl] at hp
    exact h.self p d (Monitor.wakeupAll_eq_some.mp hp).1
  · by_cases hqc : q = c
    · subst hqc
      rw [(Kernel.exit_proc hx q).2.2.2.1] at hl
      cases hl
    · rw [((Kernel.exit_proc hx q).2.2.2.2 hqc).2] at hl
      rw [hpar, h.orphan q hl]
      simp
  · rw [hpar, h.initOrphan]
    simp
  · rw [hpar]
    split
    · next hqc =>
      -- a child of `c` is not `initproc`, which has no parent
      intro hq
      cases hq
      rw [h.initOrphan] at hqc
      cases hqc
    · exact h.noSelf q
  · rw [hsl]
    refine Monitor.Covered.wakeupAll h.covered _ fun d hd hs hP => ?_
    cases d with
    | other n => trivial
    | proc d =>
      obtain ⟨j, hj⟩ := hs
      obtain rfl : j = d := (h.self j d hj).symm
      have hdc : j ≠ c := by
        rintro rfl
        rw [Kernel.sleepsOn_eq_some, hrun] at hj
        cases hj.1
      -- `exit` did not wake `j`: it is neither `c`'s parent nor, if `c` has a zombie child,
      -- `initproc`
      have hcj : (k.proc c).parent ≠ some j := by
        intro hcj
        exact hd (List.mem_append_left _ (by simp [hcj]))
      have hij : (k.zombieChild c).isSome = true → j ≠ initproc := by
        rintro hsome rfl
        exact hd (List.mem_append_right _ (by simp [hsome]))
      obtain ⟨hz, hkids, hk⟩ := hP
      refine ⟨Kernel.zombieChild_eq_none.mpr fun q hqj hzq => ?_, ?_, ?_⟩
      · rw [hpar] at hqj
        by_cases hqc : q = c
        · subst hqc
          rw [if_neg (h.noSelf q)] at hqj
          exact hcj hqj
        · have hzq' : (k.proc q).state = .zombie := by
            rw [ProcState.eq_zombie_iff] at hzq ⊢
            rwa [((Kernel.exit_proc hx q).2.2.2.2 hqc).1,
              ((Kernel.exit_proc hx q).2.2.2.2 hqc).2] at hzq
          split at hqj
          · -- a zombie child of `c` passed to `initproc`, which `exit` then woke
            next hqp =>
            cases hqj
            have hsome : (k.zombieChild c).isSome = true := by
              cases hzc : k.zombieChild c
              · exact absurd hzq' (Kernel.zombieChild_eq_none.mp hzc q hqp)
              · rfl
            exact hij hsome rfl
          · exact Kernel.zombieChild_eq_none.mp hz q hqj hzq'
      · obtain ⟨q, hqj⟩ := Kernel.hasKids_iff.mp hkids
        refine Kernel.hasKids_iff.mpr ⟨q, ?_⟩
        rw [hpar, hqj, if_neg (fun e => hdc (Option.some.inj e))]
      · rw [Kernel.exit_killed hx]
        exact hk

/-- `wait` reaps a zombie child of the running process `c`. -/
theorem WaitInv.reap (h : WaitInv k) {c p : Fin NPROC} (hrun : (k.proc c).state = .running)
    (hp : k.zombieChild c = some p) : WaitInv (k.reap p) := by
  obtain ⟨hpc, hpz⟩ := Kernel.zombieChild_spec hp
  have hsl : (k.reap p).sleepsOn = k.sleepsOn :=
    Kernel.sleepsOn_setProc_of_awake (by simp [hpz]) (by simp [Proc.clear])
  have hq : ∀ q, q ≠ p → (k.reap p).proc q = k.proc q :=
    fun q hq => Kernel.setProc_proc_of_ne _ _ hq
  have hpp : (k.reap p).proc p = (k.proc p).clear := Kernel.setProc_proc_self _ _ _
  refine ⟨?_, fun q hl => ?_, ?_, fun q => ?_, ?_⟩
  · rw [hsl]
    exact h.self
  · by_cases hqp : q = p
    · subst hqp
      rw [hpp]
      rfl
    · rw [hq q hqp] at hl ⊢
      exact h.orphan q hl
  · by_cases hip : initproc = p
    · rw [hip, hpp]
      rfl
    · rw [hq _ hip]
      exact h.initOrphan
  · by_cases hqp : q = p
    · subst hqp
      rw [hpp]
      simp [Proc.clear]
    · rw [hq q hqp]
      exact h.noSelf q
  · rw [hsl]
    refine h.covered.imp fun d hs hP => ?_
    cases d with
    | other n => trivial
    | proc d =>
      obtain ⟨j, hj⟩ := hs
      obtain rfl : j = d := (h.self j d hj).symm
      -- the sleeper is neither `c`, which runs, nor `p`, a zombie
      have hjc : j ≠ c := by
        rintro rfl
        rw [Kernel.sleepsOn_eq_some, hrun] at hj
        cases hj.1
      have hjp : j ≠ p := by
        rintro rfl
        rw [Kernel.sleepsOn_eq_some, hpz] at hj
        cases hj.1
      obtain ⟨hz, hkids, hk⟩ := hP
      refine ⟨Kernel.zombieChild_eq_none.mpr fun q hqj => ?_, ?_, ?_⟩
      · by_cases hqp : q = p
        · subst hqp
          rw [hpp] at hqj
          cases hqj
        · rw [hq q hqp] at hqj ⊢
          exact Kernel.zombieChild_eq_none.mp hz q hqj
      · obtain ⟨q, hqj⟩ := Kernel.hasKids_iff.mp hkids
        have hqp : q ≠ p := by
          rintro rfl
          rw [hpc] at hqj
          exact hjc (Option.some.inj hqj).symm
        exact Kernel.hasKids_iff.mpr ⟨q, by rw [hq q hqp]; exact hqj⟩
      · rw [hq j hjp]
        exact hk

/-- `wait` by `c` goes to sleep on `c`, having found children and none of them a zombie, and
`c` not killed. -/
theorem WaitInv.waitSleep (h : WaitInv k) {c : Fin NPROC} (hrun : (k.proc c).state = .running)
    (hr : WaitReason k (.proc c)) :
    WaitInv (k.setProc c { k.proc c with chan := some (.proc c), state := .sleeping }) := by
  have hR : (k.proc c).Resched { k.proc c with chan := some (.proc c), state := .sleeping } :=
    Proc.resched_of_active (by simp [hrun]) rfl rfl rfl rfl
  refine h.sameWait (Kernel.sameWait_setProc (hR.sameWait rfl)) ?_ ?_ <;>
    rw [Kernel.sleepsOn_setProc, if_pos rfl]
  · intro q d hq
    by_cases hqc : q = c
    · subst hqc
      rw [Function.update_self] at hq
      cases hq
      rfl
    · rw [Function.update_of_ne hqc] at hq
      exact h.self q d hq
  · refine h.covered.update c fun d hd => ?_
    cases hd
    exact hr

/-- `kill` marks a slot killed and wakes it if it sleeps. -/
theorem WaitInv.kill (h : WaitInv k) (pid : Int32) : WaitInv (k.kill pid).2 := by
  unfold Kernel.kill
  split
  · next p _ =>
    have hsl : (k.setProc p (k.proc p).doKill).sleepsOn = Function.update k.sleepsOn p none := by
      rw [Kernel.sleepsOn_setProc, if_neg]
      unfold Proc.doKill
      split <;> simp_all
    have hr := k.resched_setProc (Proc.resched_doKill (k.proc p))
    refine ⟨?_, fun q hl => ?_, ?_, fun q => ?_, ?_⟩
    · rw [hsl]
      intro q d hq
      by_cases hqp : q = p
      · subst hqp
        simp at hq
      · rw [Function.update_of_ne hqp] at hq
        exact h.self q d hq
    · rw [(hr q).parent]
      exact h.orphan q (by rw [← (hr q).live]; exact hl)
    · rw [(hr initproc).parent]
      exact h.initOrphan
    · rw [(hr q).parent]
      exact h.noSelf q
    · rw [hsl]
      intro q d hq
      -- the slot `kill` marks sleeps no more; every sleeper keeps its reason
      have hqp : q ≠ p := by
        rintro rfl
        simp at hq
      rw [Function.update_of_ne hqp] at hq
      cases d with
      | other n => trivial
      | proc d =>
        obtain rfl : q = d := (h.self q d hq).symm
        refine (Kernel.waitReason_proc_iff (fun r => (hr r).parent) (fun r => (hr r).zombie) ?_).mpr
          (h.covered q _ hq)
        rw [Kernel.setProc_proc_of_ne _ _ hqp]
  · exact h

/-- The scheduler moves a slot between active states, where `wait` cannot tell them apart. -/
theorem Proc.sameWait_of_active {pr : Proc} (h : pr.state.active) {st : ProcState}
    (h' : st.active) : pr.SameWait { pr with state := st } :=
  (@Proc.resched_of_active pr { pr with state := st } h h' rfl rfl rfl).sameWait rfl

theorem WaitInv.step (h : WaitInv k) (ht : Tree k) (hs : Step k k') : WaitInv k' := by
  cases hs with
  | allocproc c p hrun hp =>
    have hu := Kernel.firstUnused_spec hp
    have hw : (k.proc p).SameWait { k.proc p with state := .embryo, pid := k.nextpid } :=
      ⟨rfl, by simp [hu], by simp [hu], rfl⟩
    exact (h.setProc hw (by simp) (by simp [hu])).of_proc rfl
  | kstackFail p hp hk =>
    have hw : (k.proc p).SameWait { k.proc p with state := .unused, kstack := 0 } :=
      ⟨rfl, by simp [hp], by simp [hp], rfl⟩
    exact h.setProc hw (by simp) (by simp [hp])
  | copyFail p r rest m hp hk hm =>
    have hw : (k.proc p).SameWait { k.proc p with state := .unused, kstack := 0, pgdir := [] } :=
      ⟨rfl, by simp [hp], by simp [hp], rfl⟩
    exact (h.setProc hw (by simp) (by simp [hp])).of_proc rfl
  | forkOk c p r rest n hrun hp hk hn hlen => exact h.forkOk ht hrun hp r _ _
  | exit c hrun hx => exact h.exit hrun hx
  | wait c hrun =>
    rcases Kernel.wait_cases k c with ⟨p, hp, hw⟩ | ⟨-, -, hw⟩ | ⟨hz, hkids, hkill, hw⟩ <;>
      rw [hw]
    · exact h.reap hrun hp
    · exact h
    · exact h.waitSleep hrun ⟨hz, hkids, hkill⟩
  | kill c pid hrun => exact h.kill pid
  | schedule p hp =>
    exact h.setProc (Proc.sameWait_of_active (by simp [hp]) rfl) (by simp) (by simp [hp])
  | yield p hp =>
    exact h.setProc (Proc.sameWait_of_active (by simp [hp]) rfl) (by simp) (by simp [hp])
  | sleep p n hp =>
    have hw : (k.proc p).SameWait
        { k.proc p with state := .sleeping, chan := some (.other n) } :=
      (@Proc.resched_of_active (k.proc p) { k.proc p with state := .sleeping, chan := some (.other n) }
        (by simp [hp]) rfl rfl rfl rfl).sameWait rfl
    exact h.setProc hw (fun c _ => by simp) (by simp [hp])
  | wakeup n => exact h.wakeup1 n

theorem waitInv_boot (b : Boot) : WaitInv (Kernel.boot b) := by
  have hsl : (Kernel.boot b).sleepsOn = fun _ => none := by
    funext p
    by_cases hp : p = initproc <;> simp [Kernel.sleepsOn, Kernel.boot, hp, Proc.unused]
  refine ⟨fun p c hp => ?_, fun p hl => ?_, by simp [Kernel.boot], fun p => ?_, ?_⟩
  · rw [hsl] at hp
    cases hp
  · by_cases hp : p = initproc <;> simp [Kernel.boot, hp, Proc.unused]
  · by_cases hp : p = initproc <;> simp [Kernel.boot, hp, Proc.unused]
  · rw [hsl]
    exact Monitor.covered_none _

theorem waitInv_of_reach {b : Boot} (h : Reach b k) : WaitInv k := by
  induction h with
  | refl => exact waitInv_boot b
  | tail hr hs ih => exact ih.step (tree_of_reach hr) hs

end Inv

/-- In every reachable table, a process asleep on a process sleeps on itself, in `wait`, and
still has its reason to: it has a child, none of its children is a zombie, and it has not been
killed. Neither the `exit` of a child nor a `kill` leaves a parent asleep in `wait`. -/
theorem wait_sleeper_has_reason {b : Boot} {k : Kernel} (h : Reach b k) {p c : Fin NPROC}
    (hs : (k.proc p).state = .sleeping) (hc : (k.proc p).chan = some (.proc c)) :
    c = p ∧ (∃ q, (k.proc q).parent = some p) ∧
      (∀ q, (k.proc q).parent = some p → (k.proc q).state ≠ .zombie) ∧
      (k.proc p).killed = false := by
  have hsl : k.sleepsOn p = some (.proc c) := Kernel.sleepsOn_eq_some.mpr ⟨hs, hc⟩
  have hinv := waitInv_of_reach h
  have hcp : p = c := (hinv.self p c hsl).symm
  subst hcp
  obtain ⟨hz, hkids, hkill⟩ : WaitReason k (.proc p) := hinv.covered p _ hsl
  exact ⟨rfl, Kernel.hasKids_iff.mp hkids, Kernel.zombieChild_eq_none.mp hz, hkill⟩

/-- `fork`'s child of `initproc` in slot 1, with pid 2, kernel stack 12288 and address space
`[16384]`. -/
def forkedChild : Proc :=
  { Proc.unused with state := .embryo, pid := 2 }.spawn initproc 12288 [16384]

/-- `initproc` asleep in `wait` on `forkedChild`. -/
def initWaiting : Kernel :=
  Kernel.pair { Boot.small.init with chan := some (.proc initproc), state := .sleeping }
    forkedChild 3 []

theorem initWaiting_reach : Reach Boot.small initWaiting := by
  have hrun : Boot.small.init.state = .running := rfl
  have h₁ := Step.allocproc (Kernel.pair Boot.small.init Proc.unused 2 Boot.small.free) initproc
    slot1 (by simp [hrun]) (Kernel.firstUnused_pair (by simp [hrun]) rfl)
  rw [Kernel.allocproc_pair] at h₁
  have h₂ := Step.forkOk (Kernel.pair Boot.small.init
      { Proc.unused with state := .embryo, pid := 2 } (2 + 1) Boot.small.free) initproc slot1
    12288 [16384] 1 (by simp [hrun]) (by simp) rfl Nat.one_pos (by simp)
  rw [Kernel.forkOk_pair] at h₂
  -- `initproc` has a child, runnable, and is not killed: its `wait` sleeps
  have hz : (Kernel.pair Boot.small.init forkedChild 3 []).zombieChild initproc = none := by
    refine Kernel.zombieChild_eq_none.mpr fun q hq => ?_
    by_cases h0 : q = initproc
    · subst h0
      simp [Boot.init] at hq
    · by_cases h1 : q = slot1
      · subst h1
        simp [forkedChild, Proc.spawn]
      · simp [Kernel.pair_proc_other h0 h1, Proc.unused] at hq
  have hk : (Kernel.pair Boot.small.init forkedChild 3 []).hasKids initproc = true :=
    Kernel.hasKids_iff.mpr ⟨slot1, by simp [forkedChild, Proc.spawn]⟩
  have h₃ := Step.wait (Kernel.pair Boot.small.init forkedChild 3 []) initproc (by simp [hrun])
  rcases Kernel.wait_cases (Kernel.pair Boot.small.init forkedChild 3 []) initproc with
    ⟨p, hp, -⟩ | ⟨-, hret, -⟩ | ⟨-, -, -, hw⟩
  · rw [hz] at hp
    cases hp
  · rw [hk] at hret
    simp [Boot.init] at hret
  · rw [hw, Waited.kernel, Kernel.pair_proc_initproc, Kernel.pair_setProc_initproc] at h₃
    exact (((reach_init Boot.small).tail h₁).tail h₂).tail h₃

theorem wait_sleeper_has_reason_initWaiting :
    (initWaiting.proc initproc).state = .sleeping ∧
      (initWaiting.proc initproc).chan = some (.proc initproc) ∧
      (initproc = initproc ∧ (∃ q, (initWaiting.proc q).parent = some initproc) ∧
        (∀ q, (initWaiting.proc q).parent = some initproc → (initWaiting.proc q).state ≠ .zombie) ∧
        (initWaiting.proc initproc).killed = false) :=
  ⟨by simp [initWaiting], by simp [initWaiting],
    wait_sleeper_has_reason initWaiting_reach (by simp [initWaiting]) (by simp [initWaiting])⟩

end Xv6.Procs
