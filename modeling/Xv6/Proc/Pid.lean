import Xv6.Proc.Tree

/-!
# Process ids over long runs

`nextpid` is a plain `int` that `allocproc` increments and never checks against the table.
A `fork` by `initproc` whose child exits and is reaped brings the table back to where it was,
with `nextpid` one higher (`cycle`), so any number of such rounds can be run (`cycles`).
After `2^31 - 2` rounds from boot, `allocproc` hands out `-2^31` (the signed overflow of
`nextpid++`, which the compiled code performs as a wrap), a pid that `fork` returns to its
caller as a failure; after `2^32 - 1` rounds it hands out `1` again, the pid of `initproc`,
which never exits.

`kill` compares pids without looking at the state: in the table at boot every `UNUSED` slot
has pid 0, so `kill(0)` marks one of them and returns 0, and the next `fork` starts its child
already killed.

The runs use tables in which only the first two slots are in use (`Kernel.pair`).
-/

namespace Xv6.Procs

/-- The slot `allocproc` finds while `initproc` holds the first. -/
def slot1 : Fin NPROC := ⟨1, by decide⟩

theorem slot1_ne_initproc : slot1 ≠ initproc := by decide

theorem eq_initproc_of_lt_slot1 {j : Fin NPROC} (h : j < slot1) : j = initproc := by
  have h' : j.val < 1 := h
  exact Fin.ext (by simp only [initproc]; omega)

/-- A table in which only the first two slots can be in use. -/
def Kernel.pair (i s : Proc) (v : Int32) (m : List Nat) : Kernel where
  proc p := if p = initproc then i else if p = slot1 then s else Proc.unused
  nextpid := v
  kmem := m

/-- `initproc` running, with the pages it booted with. -/
def Boot.init (b : Boot) : Proc := ⟨.running, 1, none, false, none, b.kstack, b.pgdir⟩

/-- An `UNUSED` slot that still holds the address space `d` `wait` left in it. -/
def Proc.unusedWith (d : List Nat) : Proc := { Proc.unused with pgdir := d }

namespace Kernel

variable {i s : Proc} {v : Int32} {m : List Nat}

@[simp] theorem pair_proc_initproc : (pair i s v m).proc initproc = i := by simp [pair]

@[simp] theorem pair_proc_slot1 : (pair i s v m).proc slot1 = s := by
  simp [pair, slot1_ne_initproc]

theorem pair_proc_other {p : Fin NPROC} (h₀ : p ≠ initproc) (h₁ : p ≠ slot1) :
    (pair i s v m).proc p = Proc.unused := by
  simp [pair, h₀, h₁]

theorem pair_setProc_initproc (i' : Proc) :
    (pair i s v m).setProc initproc i' = pair i' s v m := by
  simp only [setProc, pair, mk.injEq, and_true]
  funext p
  by_cases h : p = initproc <;> simp [Function.update, h]

theorem pair_setProc_slot1 (s' : Proc) : (pair i s v m).setProc slot1 s' = pair i s' v m := by
  simp only [setProc, pair, mk.injEq, and_true]
  funext p
  by_cases h : p = initproc
  · simp [Function.update, h, slot1_ne_initproc.symm]
  · by_cases h' : p = slot1 <;> simp [Function.update, h, h', slot1_ne_initproc]

theorem pair_wakeup1 (ch : Chan) : (pair i s v m).wakeup1 ch = pair (wake ch i) (wake ch s) v m := by
  simp only [wakeup1, pair, mk.injEq, and_true]
  funext p
  by_cases h : p = initproc
  · simp [h]
  · by_cases h' : p = slot1
    · simp [h', slot1_ne_initproc]
    · simp [h, h', wake, Proc.unused]

theorem pair_adoptAll (c : Fin NPROC) : (pair i s v m).adoptAll c = pair (adopt c i) (adopt c s) v m := by
  simp only [adoptAll, pair, mk.injEq, and_true]
  funext p
  by_cases h : p = initproc
  · simp [h]
  · by_cases h' : p = slot1
    · simp [h', slot1_ne_initproc]
    · simp [h, h', adopt, Proc.unused]

theorem allocproc_pair : (pair i s v m).allocproc slot1 =
    pair i { s with state := .embryo, pid := v } (v + 1) m := by
  rw [allocproc, pair_proc_slot1, pair_setProc_slot1]
  rfl

theorem forkOk_pair (c : Fin NPROC) (r : Nat) (pages m' : List Nat) :
    (pair i s v m).forkOk c slot1 r pages m' = pair i (s.spawn c r pages) v m' := by
  rw [forkOk, pair_proc_slot1, pair_setProc_slot1]
  rfl

theorem firstUnused_pair (hi : i.state ≠ .unused) (hs : s.state = .unused) :
    (pair i s v m).firstUnused = some slot1 := by
  refine Fin.find?_eq_some_iff.mpr ⟨by simp [hs], fun j hj => ?_⟩
  obtain rfl := eq_initproc_of_lt_slot1 hj
  simpa using hi

theorem zombieChild_pair {c : Fin NPROC} (hi : i.parent ≠ some c) (hs : s.parent = some c)
    (hz : s.state = .zombie) : (pair i s v m).zombieChild c = some slot1 := by
  refine Fin.find?_eq_some_iff.mpr ⟨by simp [hs, hz], fun j hj => ?_⟩
  obtain rfl := eq_initproc_of_lt_slot1 hj
  simp [hi]

theorem zombieChild_pair_eq_none {c : Fin NPROC} (hi : i.parent ≠ some c)
    (hs : s.parent ≠ some c) : (pair i s v m).zombieChild c = none := by
  refine zombieChild_eq_none.mpr fun p hp => ?_
  by_cases h : p = initproc
  · subst h
    exact absurd (by simpa using hp) hi
  · by_cases h' : p = slot1
    · subst h'
      exact absurd (by simpa using hp) hs
    · simp [pair_proc_other h h', Proc.unused] at hp

theorem pidSlot_pair {x : Int32} (hi : i.pid ≠ x) (hs : s.pid = x) :
    (pair i s v m).pidSlot x = some slot1 := by
  refine Fin.find?_eq_some_iff.mpr ⟨by simp [hs], fun j hj => ?_⟩
  obtain rfl := eq_initproc_of_lt_slot1 hj
  simpa using hi

end Kernel

theorem boot_eq_pair (b : Boot) :
    Kernel.boot b = Kernel.pair { b.init with state := .runnable } Proc.unused 2 b.free := by
  simp only [Kernel.boot, Kernel.pair, Kernel.mk.injEq, and_true]
  funext p
  by_cases h : p = initproc
  · simp [h, Boot.init]
  · by_cases h' : p = slot1 <;> simp [h, h', slot1_ne_initproc]

/-- `userinit`'s process is scheduled. -/
theorem reach_init (b : Boot) :
    Reach b (Kernel.pair b.init Proc.unused 2 b.free) := by
  have h := Step.schedule (Kernel.boot b) initproc (by simp [Kernel.boot])
  rw [boot_eq_pair, Kernel.pair_proc_initproc, Kernel.pair_setProc_initproc] at h
  exact .single (by rw [boot_eq_pair]; exact h)

section Cycle

variable {i : Proc} (hi : i.state = .running) (hpar : i.parent = none)
include hi hpar

/-- One round: `initproc` forks a child into slot 1, with kernel stack `x` and address
space `[y]`; the child runs and exits; `initproc` reaps it. The table is as before, but for
`nextpid`, the order of the free pages and the address space left in slot 1. -/
theorem cycle (v : Int32) (d : List Nat) (x y : Nat) (rest : List Nat) :
    Relation.ReflTransGen Step (Kernel.pair i (Proc.unusedWith d) v (x :: y :: rest))
      (Kernel.pair i (Proc.unusedWith [y]) (v + 1) (y :: x :: rest)) := by
  have hne : i.parent ≠ some initproc := by simp [hpar]
  have hne₁ : i.parent ≠ some slot1 := by simp [hpar]
  -- `allocproc` gives slot 1 the pid `v`
  have h₁ : Step (Kernel.pair i (Proc.unusedWith d) v (x :: y :: rest))
      (Kernel.pair i ⟨.embryo, v, none, false, none, 0, d⟩ (v + 1) (x :: y :: rest)) := by
    have h := Step.allocproc (Kernel.pair i (Proc.unusedWith d) v (x :: y :: rest)) initproc
      slot1 (by simp [hi]) (Kernel.firstUnused_pair (by simp [hi]) rfl)
    rwa [Kernel.allocproc_pair] at h
  -- `fork` takes `x` for the kernel stack and `[y]` for the address space
  have h₂ : Step (Kernel.pair i ⟨.embryo, v, none, false, none, 0, d⟩ (v + 1) (x :: y :: rest))
      (Kernel.pair i ⟨.runnable, v, some initproc, false, none, x, [y]⟩ (v + 1) rest) := by
    have h := Step.forkOk
      (Kernel.pair i ⟨.embryo, v, none, false, none, 0, d⟩ (v + 1) (x :: y :: rest)) initproc
      slot1 x (y :: rest) 1 (by simp [hi]) (by simp) rfl Nat.one_pos (by simp)
    rwa [Kernel.forkOk_pair] at h
  -- the child is scheduled
  have h₃ : Step (Kernel.pair i ⟨.runnable, v, some initproc, false, none, x, [y]⟩ (v + 1) rest)
      (Kernel.pair i ⟨.running, v, some initproc, false, none, x, [y]⟩ (v + 1) rest) := by
    have h := Step.schedule
      (Kernel.pair i ⟨.runnable, v, some initproc, false, none, x, [y]⟩ (v + 1) rest) slot1
      (by simp)
    rwa [Kernel.pair_proc_slot1, Kernel.pair_setProc_slot1] at h
  -- the child exits: `initproc` is running, so nobody wakes, and it has no children
  have h₄ : Step (Kernel.pair i ⟨.running, v, some initproc, false, none, x, [y]⟩ (v + 1) rest)
      (Kernel.pair i ⟨.zombie, v, some initproc, false, none, x, [y]⟩ (v + 1) rest) := by
    refine Step.exit
      (Kernel.pair i ⟨.running, v, some initproc, false, none, x, [y]⟩ (v + 1) rest) slot1
      (by simp) ?_
    have hw : wake (.proc initproc) i = i := by simp [wake, hi]
    have hws : wake (.proc initproc) ⟨.running, v, some initproc, false, none, x, [y]⟩ =
        ⟨.running, v, some initproc, false, none, x, [y]⟩ := by simp [wake]
    have hz : (Kernel.pair i ⟨.running, v, some initproc, false, none, x, [y]⟩ (v + 1)
        rest).zombieChild slot1 = none :=
      Kernel.zombieChild_pair_eq_none hne₁ (by simp [slot1_ne_initproc.symm])
    rw [Kernel.exit, if_neg slot1_ne_initproc,
      Kernel.wakeParent_of_parent (by rw [Kernel.pair_proc_slot1]), Kernel.pair_wakeup1, hw, hws, Kernel.reparent, hz, Option.isSome_none, if_neg (by simp),
      Kernel.pair_adoptAll, Kernel.zombify, Kernel.pair_proc_slot1, Kernel.pair_setProc_slot1]
    simp [adopt, hpar, slot1_ne_initproc.symm]
  -- `initproc` reaps it, and `kfree` and `freevm` put `x` and then `y` on the free list
  have h₅ : Step (Kernel.pair i ⟨.zombie, v, some initproc, false, none, x, [y]⟩ (v + 1) rest)
      (Kernel.pair i (Proc.unusedWith [y]) (v + 1) (y :: x :: rest)) := by
    have h := Step.wait
      (Kernel.pair i ⟨.zombie, v, some initproc, false, none, x, [y]⟩ (v + 1) rest) initproc
      (by simp [hi])
    rw [Kernel.wait_of_zombieChild (Kernel.zombieChild_pair hne rfl rfl), Waited.kernel_ret,
      Kernel.reap, Kernel.pair_proc_slot1, Kernel.pair_setProc_slot1] at h
    exact h
  exact .tail (.tail (.tail (.tail (.single h₁) h₂) h₃) h₄) h₅

/-- Any number of rounds. -/
theorem cycles (n : Nat) (v : Int32) (d : List Nat) (x y : Nat) (rest : List Nat) :
    ∃ d' x' y', Relation.ReflTransGen Step (Kernel.pair i (Proc.unusedWith d) v (x :: y :: rest))
      (Kernel.pair i (Proc.unusedWith d') (v + Int32.ofNat n) (x' :: y' :: rest)) := by
  induction n generalizing v d x y with
  | zero => exact ⟨d, x, y, by rw [show Int32.ofNat 0 = 0 from rfl, Int32.add_zero]⟩
  | succ n ih =>
    obtain ⟨d', x', y', h⟩ := ih (v + 1) [y] y x
    have hv : v + 1 + Int32.ofNat n = v + Int32.ofNat (n + 1) := by
      rw [Int32.ofNat_add, Int32.add_assoc, Int32.add_comm 1]
      rfl
    exact ⟨d', x', y', (cycle hi hpar v d x y rest).trans (hv ▸ h)⟩

end Cycle

/-- After enough forks from boot `nextpid` has any value `2 + n` can wrap to. -/
theorem reach_nextpid (b : Boot) {x y : Nat} {rest : List Nat} (hfree : b.free = x :: y :: rest)
    (n : Nat) : ∃ d x' y', Reach b
      (Kernel.pair b.init (Proc.unusedWith d) (2 + Int32.ofNat n) (x' :: y' :: rest)) := by
  obtain ⟨d, x', y', h⟩ := cycles (i := b.init) rfl rfl n 2 [] x y rest
  exact ⟨d, x', y', (reach_init b).trans (by rw [hfree]; exact h)⟩

/-- `nextpid` wraps. From boot, with two free pages, `2^31 - 2` rounds of `fork`, `exit` and
`wait` lead to a `fork` whose child is runnable with pid `-2^31`, the value `fork` returns to
its parent; `2^32 - 1` rounds lead to an `allocproc` that gives a second process the pid 1
of `initproc`. -/
theorem pid_wraps (b : Boot) {x y : Nat} {rest : List Nat} (hfree : b.free = x :: y :: rest) :
    (∃ k, Reach b k ∧ ∃ p, (k.proc p).state = .runnable ∧ (k.proc p).pid < 0) ∧
    (∃ k, Reach b k ∧ ∃ p q, p ≠ q ∧ (k.proc p).state ≠ .unused ∧
      (k.proc q).state ≠ .unused ∧ (k.proc p).pid = (k.proc q).pid) := by
  constructor
  · obtain ⟨d, x', y', h⟩ := reach_nextpid b hfree (2 ^ 31 - 2)
    have hv : (2 : Int32) + Int32.ofNat (2 ^ 31 - 2) = -2147483648 := by decide
    rw [hv] at h
    -- the next `fork` hands out `-2^31`
    have h₁ := Step.allocproc
      (Kernel.pair b.init (Proc.unusedWith d) (-2147483648) (x' :: y' :: rest)) initproc slot1
      (by simp [Boot.init]) (Kernel.firstUnused_pair (by simp [Boot.init]) rfl)
    rw [Kernel.allocproc_pair] at h₁
    have h₂ := Step.forkOk
      (Kernel.pair b.init { Proc.unusedWith d with state := .embryo, pid := -2147483648 }
        (-2147483648 + 1) (x' :: y' :: rest)) initproc slot1 x' (y' :: rest) 1
      (by simp [Boot.init]) (by simp) rfl Nat.one_pos (by simp)
    rw [Kernel.forkOk_pair] at h₂
    refine ⟨_, (h.tail h₁).tail h₂, slot1, ?_, ?_⟩
    · simp [Proc.spawn]
    · simp only [Kernel.pair_proc_slot1, Proc.spawn]
      decide
  · obtain ⟨d, x', y', h⟩ := reach_nextpid b hfree (2 ^ 32 - 1)
    have hv : (2 : Int32) + Int32.ofNat (2 ^ 32 - 1) = 1 := by decide
    rw [hv] at h
    -- the next `allocproc` hands out 1 while `initproc` still has it
    have h₁ := Step.allocproc (Kernel.pair b.init (Proc.unusedWith d) 1 (x' :: y' :: rest))
      initproc slot1 (by simp [Boot.init]) (Kernel.firstUnused_pair (by simp [Boot.init]) rfl)
    rw [Kernel.allocproc_pair] at h₁
    refine ⟨_, h.tail h₁, initproc, slot1, slot1_ne_initproc.symm, ?_, ?_, ?_⟩
    · simp [Boot.init]
    · simp
    · simp [Boot.init]

theorem pid_wraps_small :
    (∃ k, Reach Boot.small k ∧ ∃ p, (k.proc p).state = .runnable ∧ (k.proc p).pid < 0) ∧
    (∃ k, Reach Boot.small k ∧ ∃ p q, p ≠ q ∧ (k.proc p).state ≠ .unused ∧
      (k.proc q).state ≠ .unused ∧ (k.proc p).pid = (k.proc q).pid) :=
  pid_wraps Boot.small rfl

/-- `kill(0)` at boot marks an `UNUSED` slot: no process in use has pid 0, yet `kill` returns
0, the slot stays `UNUSED` with `killed` set, and the next `allocproc` gives it to a new
process that starts out killed. -/
theorem kill_marks_unused_slot (b : Boot) :
    ∃ k, Reach b k ∧ (∀ p, (k.proc p).state ≠ .unused → (k.proc p).pid ≠ 0) ∧
      (k.kill 0).1 = 0 ∧ ((k.kill 0).2.proc slot1).state = .unused ∧
      ((k.kill 0).2.proc slot1).killed = true ∧ Reach b (k.kill 0).2 ∧
      ∃ k', Step (k.kill 0).2 k' ∧ (k'.proc slot1).state = .embryo ∧
        (k'.proc slot1).killed = true := by
  have hslot : (Kernel.pair b.init Proc.unused 2 b.free).pidSlot 0 = some slot1 :=
    Kernel.pidSlot_pair (by simp [Boot.init]) rfl
  have hkill : (Kernel.pair b.init Proc.unused 2 b.free).kill 0 =
      (0, Kernel.pair b.init Proc.unused.doKill 2 b.free) := by
    rw [Kernel.kill_of_pidSlot hslot, Kernel.pair_proc_slot1, Kernel.pair_setProc_slot1]
  have hstep := Step.kill (Kernel.pair b.init Proc.unused 2 b.free) initproc 0
    (by simp [Boot.init])
  rw [hkill] at hstep
  -- `allocproc` finds the killed slot first
  have halloc := Step.allocproc (Kernel.pair b.init Proc.unused.doKill 2 b.free) initproc slot1
    (by simp [Boot.init])
    (Kernel.firstUnused_pair (by simp [Boot.init]) (by simp [Proc.doKill, Proc.unused]))
  rw [Kernel.allocproc_pair] at halloc
  refine ⟨Kernel.pair b.init Proc.unused 2 b.free, reach_init b, fun p hp => ?_, ?_, ?_, ?_,
    ?_, Kernel.pair b.init { Proc.unused.doKill with state := .embryo, pid := 2 } (2 + 1) b.free,
    ?_, ?_, ?_⟩ <;> try rw [hkill]
  · -- no slot in use has pid 0: `initproc` has 1 and every other slot is `UNUSED`
    by_cases h : p = initproc
    · subst h
      simp [Boot.init]
    · by_cases h' : p = slot1
      · subst h'
        simp [Proc.unused] at hp
      · simp [Kernel.pair_proc_other h h', Proc.unused] at hp
  · simp [Proc.doKill, Proc.unused]
  · simp [Proc.doKill]
  · exact (reach_init b).tail hstep
  · exact halloc
  · simp
  · simp [Proc.doKill]

end Xv6.Procs
