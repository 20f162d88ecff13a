import Xv6.Lib.Tally
import Mathlib.Logic.Relation
import Mathlib.Logic.Function.Iterate

/-!
# Spinlocks and interrupts

`acquire` turns interrupts off with `pushcli` before it spins, and `release` turns them back on
with `popcli` after it has freed the lock. `pushcli` and `popcli` nest, counting the levels in
`cpu->ncli`; the outermost `pushcli` saves in `cpu->intena` whether interrupts were on, and the
outermost `popcli` turns them back on if they were. `popcli` panics when interrupts are on or
when it has no level to undo, and `mycpu` panics when interrupts are on.

One CPU's `pushcli`s and `popcli`s nest as the comment over them says: `n` of each, in that
order, leave the depth and the interrupt flag as they were, and one `popcli` more panics
(`pushcli_popcli_matched`).

The machine is a set of CPUs `κ` and spinlocks `ℓ`. A CPU takes a lock in two steps, `acquire`
up to its spin loop and the `xchg` that finds the lock free; it releases one it holds; it runs
the `pushcli`/`popcli` pair of `myproc` and `switchuvm`; the scheduler turns interrupts on with
`sti()` at the top of its loop, where it holds no lock; and an interrupt, taken only while
interrupts are on, runs a handler that returns, through `iret`, once it holds no lock. Context
switches, which carry `intena` across `swtch` in `sched`, are not part of this model.

In every reachable state `ncli` counts the locks the CPU holds and the one it spins for,
interrupts are off on a CPU that holds or waits for a lock, and they stay off in a handler
(`Inv`): an interrupt never arrives on a CPU in a critical section, which is what `acquire`'s
`pushcli` is for. So `release` of a held lock and `myproc` never panic, and a CPU that holds only
`ptable.lock` passes `sched`'s checks (`release_never_panics`).
-/

namespace Xv6.SpinLocks

variable {κ ℓ : Type}

/-! ### One CPU -/

/-- The fields of `struct cpu` that `pushcli` and `popcli` keep, and the `FL_IF` bit of the
CPU's `%eflags`, which says whether interrupts are on. -/
structure Cpu where
  ncli : Int
  intena : Bool
  intr : Bool
  deriving DecidableEq

/-- `pushcli`: read `%eflags`, `cli()`, save `FL_IF` in `intena` at the outermost level, and
count one level more. -/
def pushcli (cpu : Cpu) : Cpu :=
  { ncli := cpu.ncli + 1, intena := if cpu.ncli = 0 then cpu.intr else cpu.intena, intr := false }

/-- `popcli`: the two panics, one level less, and `sti()` at the outermost level if interrupts
were on before it (they are off here, or it would have panicked). -/
def popcli (cpu : Cpu) : Except String Cpu :=
  if cpu.intr then .error "popcli - interruptible"
  else if cpu.ncli - 1 < 0 then .error "popcli"
  else .ok { cpu with ncli := cpu.ncli - 1, intr := decide (cpu.ncli - 1 = 0) && cpu.intena }

/-- `n` `popcli`s in a row. -/
def popcliN : Nat → Cpu → Except String Cpu
  | 0, cpu => .ok cpu
  | n + 1, cpu => (popcli cpu).bind (popcliN n)

/-- What `myproc` and `switchuvm` do to the CPU: `pushcli()`, then `popcli()`. -/
def myproc (cpu : Cpu) : Except String Cpu := popcli (pushcli cpu)

/-- A CPU inside `pushcli` has interrupts off. -/
def Cpu.Valid (cpu : Cpu) : Prop := 0 ≤ cpu.ncli ∧ (0 < cpu.ncli → cpu.intr = false)

/-- `popcli` at a level it can undo, with interrupts off. -/
theorem popcli_of_pos {cpu : Cpu} (hi : cpu.intr = false) (hn : 0 < cpu.ncli) :
    popcli cpu = .ok ⟨cpu.ncli - 1, cpu.intena, decide (cpu.ncli - 1 = 0) && cpu.intena⟩ := by
  unfold popcli
  rw [if_neg (by simp [hi]), if_neg (by omega)]

theorem popcliN_succ' (n : Nat) (cpu : Cpu) :
    popcliN (n + 1) cpu = (popcliN n cpu).bind popcli := by
  induction n generalizing cpu with
  | zero =>
    show (popcli cpu).bind (popcliN 0) = popcli cpu
    cases popcli cpu <;> rfl
  | succ n ih =>
    show (popcli cpu).bind (popcliN (n + 1)) = ((popcli cpu).bind (popcliN n)).bind popcli
    cases popcli cpu with
    | error e => rfl
    | ok c => exact ih c

/-- `n` levels of `pushcli` undone by `n` `popcli`s: the depth and the interrupt flag come back,
and so does `intena` while some level is left. -/
theorem popcliN_pushcli {cpu : Cpu} (hv : cpu.Valid) (n : Nat) :
    ∃ cpu', popcliN n (pushcli^[n] cpu) = .ok cpu' ∧ cpu'.ncli = cpu.ncli ∧
      cpu'.intr = cpu.intr ∧ (0 < cpu.ncli → cpu'.intena = cpu.intena) := by
  induction n generalizing cpu with
  | zero => exact ⟨cpu, rfl, rfl, rfl, fun _ => rfl⟩
  | succ n ih =>
    -- the first `pushcli` is undone by the last `popcli`
    have h0 := hv.1
    have hpush : (pushcli cpu).ncli = cpu.ncli + 1 := rfl
    have hv' : (pushcli cpu).Valid := ⟨by omega, fun _ => rfl⟩
    obtain ⟨c₁, h₁, hn₁, hi₁, he₁⟩ := ih hv'
    have hpos : 0 < c₁.ncli := by omega
    have he : c₁.intena = if cpu.ncli = 0 then cpu.intr else cpu.intena := he₁ (by omega)
    rw [Function.iterate_succ_apply, popcliN_succ', h₁]
    refine ⟨_, popcli_of_pos (by rw [hi₁]; rfl) hpos, ?_, ?_, ?_⟩
    · show c₁.ncli - 1 = cpu.ncli
      omega
    · show (decide (c₁.ncli - 1 = 0) && c₁.intena) = cpu.intr
      rw [he, show c₁.ncli - 1 = cpu.ncli by omega]
      by_cases hz : cpu.ncli = 0
      · simp [hz]
      · simp [hz, hv.2 (by omega)]
    · intro hc
      show c₁.intena = cpu.intena
      rw [he, if_neg (by omega)]

/-- `pushcli` and `popcli` are matched, as the comment over them says: on a CPU whose
interrupts are off whenever it is inside a `pushcli`, `n` `pushcli`s followed by `n` `popcli`s
leave the depth and the interrupt flag as they were, so if interrupts were off they stay off;
and at depth 0 one `popcli` more panics. -/
theorem pushcli_popcli_matched (cpu : Cpu) (hv : cpu.Valid) (n : Nat) :
    (∃ cpu', popcliN n (pushcli^[n] cpu) = .ok cpu' ∧ cpu'.ncli = cpu.ncli ∧
      cpu'.intr = cpu.intr) ∧
    (cpu.ncli = 0 → ∃ msg, popcliN (n + 1) (pushcli^[n] cpu) = .error msg) := by
  obtain ⟨cpu', h, hn, hi, -⟩ := popcliN_pushcli hv n
  refine ⟨⟨cpu', h, hn, hi⟩, fun h0 => ?_⟩
  rw [popcliN_succ', h]
  show ∃ msg, popcli cpu' = .error msg
  unfold popcli
  split
  · exact ⟨_, rfl⟩
  · rw [if_pos (by omega)]
    exact ⟨_, rfl⟩

theorem pushcli_popcli_matched_three :
    (∃ cpu', popcliN 3 (pushcli^[3] ⟨0, false, true⟩) = .ok cpu' ∧ cpu'.ncli = 0 ∧
      cpu'.intr = true) ∧
    ((⟨0, false, true⟩ : Cpu).ncli = 0 →
      ∃ msg, popcliN (3 + 1) (pushcli^[3] ⟨0, false, true⟩) = .error msg) :=
  pushcli_popcli_matched ⟨0, false, true⟩ ⟨le_rfl, fun h => absurd h (lt_irrefl 0)⟩ 3

/-! ### Locks -/

/-- `struct spinlock`, less its name and `pcs`: whether it is held, and `lk->cpu`, the CPU that
holds it (null when none). -/
structure Spinlock (κ : Type) where
  locked : Bool
  cpu : Option κ
  deriving DecidableEq

/-- `initlock`. -/
def initlock : Spinlock κ := { locked := false, cpu := none }

/-- Where a CPU is: in code between lock operations, or in `acquire`'s spin loop for lock `l`. -/
inductive At (ℓ : Type) where
  | run
  | spin (l : ℓ)
  deriving DecidableEq

/-- One for a CPU in a spin loop. -/
def At.spins : At ℓ → Nat
  | .run => 0
  | .spin _ => 1

/-- CPUs `κ` and spinlocks `ℓ`. -/
structure Machine (κ ℓ : Type) where
  cpu : κ → Cpu
  lock : ℓ → Spinlock κ
  pc : κ → At ℓ
  /-- in an interrupt handler -/
  trap : κ → Bool

/-- After boot: every lock as `initlock` leaves it, and interrupts off on every CPU. -/
def Machine.init : Machine κ ℓ :=
  ⟨fun _ => ⟨0, false, false⟩, fun _ => initlock, fun _ => .run, fun _ => false⟩

section SetLock

variable [DecidableEq ℓ]

/-- Lock `l` becomes `lk`. -/
def Machine.setLock (s : Machine κ ℓ) (l : ℓ) (lk : Spinlock κ) : Machine κ ℓ :=
  { s with lock := Function.update s.lock l lk }

variable (s : Machine κ ℓ) (l : ℓ) (lk : Spinlock κ)

@[simp] theorem Machine.setLock_cpu : (s.setLock l lk).cpu = s.cpu := rfl
@[simp] theorem Machine.setLock_lock : (s.setLock l lk).lock = Function.update s.lock l lk := rfl
@[simp] theorem Machine.setLock_pc : (s.setLock l lk).pc = s.pc := rfl
@[simp] theorem Machine.setLock_trap : (s.setLock l lk).trap = s.trap := rfl

end SetLock

variable [DecidableEq κ]

/-- `holding(lk)` on CPU `c`: `lk->locked && lk->cpu == mycpu()`. -/
def holding (lk : Spinlock κ) (c : κ) : Bool := lk.locked && decide (lk.cpu = some c)

/-- `acquire` on CPU `c` up to its spin loop: `pushcli()`, then the panic if `c` holds `lk`. -/
def acquire (lk : Spinlock κ) (c : κ) (cpu : Cpu) : Except String Cpu :=
  if holding lk c then .error "acquire" else .ok (pushcli cpu)

/-- The `xchg(&lk->locked, 1)` of `acquire`'s spin loop that finds the lock free, with the
`lk->cpu = mycpu()` after it; `none` while the lock is held, when the loop spins on. -/
def xchg (lk : Spinlock κ) (c : κ) : Option (Spinlock κ) :=
  if lk.locked then none else some { locked := true, cpu := some c }

/-- `release` on CPU `c`: the `mycpu()` of `holding`, the panic if `c` does not hold `lk`,
then `lk->cpu = 0`, `lk->locked = 0` and `popcli()`. -/
def release (lk : Spinlock κ) (c : κ) (cpu : Cpu) : Except String (Spinlock κ × Cpu) :=
  if cpu.intr then .error "mycpu called with interrupts enabled\n"
  else if !holding lk c then .error "release"
  else (popcli cpu).map fun cpu => ({ locked := false, cpu := none }, cpu)

namespace Machine

/-- CPU `c`'s fields become `cpu`. -/
def setCpu (s : Machine κ ℓ) (c : κ) (cpu : Cpu) : Machine κ ℓ :=
  { s with cpu := Function.update s.cpu c cpu }

/-- CPU `c` goes to `a`. -/
def setPc (s : Machine κ ℓ) (c : κ) (a : At ℓ) : Machine κ ℓ :=
  { s with pc := Function.update s.pc c a }

/-- CPU `c` enters (`true`) or leaves an interrupt handler. -/
def setTrap (s : Machine κ ℓ) (c : κ) (b : Bool) : Machine κ ℓ :=
  { s with trap := Function.update s.trap c b }

variable (s : Machine κ ℓ) (c : κ)

@[simp] theorem setCpu_cpu (cpu : Cpu) : (s.setCpu c cpu).cpu = Function.update s.cpu c cpu := rfl
@[simp] theorem setCpu_lock (cpu : Cpu) : (s.setCpu c cpu).lock = s.lock := rfl
@[simp] theorem setCpu_pc (cpu : Cpu) : (s.setCpu c cpu).pc = s.pc := rfl
@[simp] theorem setCpu_trap (cpu : Cpu) : (s.setCpu c cpu).trap = s.trap := rfl
@[simp] theorem setPc_cpu (a : At ℓ) : (s.setPc c a).cpu = s.cpu := rfl
@[simp] theorem setPc_lock (a : At ℓ) : (s.setPc c a).lock = s.lock := rfl
@[simp] theorem setPc_pc (a : At ℓ) : (s.setPc c a).pc = Function.update s.pc c a := rfl
@[simp] theorem setPc_trap (a : At ℓ) : (s.setPc c a).trap = s.trap := rfl
@[simp] theorem setTrap_cpu (b : Bool) : (s.setTrap c b).cpu = s.cpu := rfl
@[simp] theorem setTrap_lock (b : Bool) : (s.setTrap c b).lock = s.lock := rfl
@[simp] theorem setTrap_pc (b : Bool) : (s.setTrap c b).pc = s.pc := rfl
@[simp] theorem setTrap_trap (b : Bool) : (s.setTrap c b).trap = Function.update s.trap c b :=
  rfl

end Machine

section Steps

variable [DecidableEq ℓ]

/-- The steps of the machine; each is one CPU's. -/
inductive Step : Machine κ ℓ → Machine κ ℓ → Prop
  | acquire (s : Machine κ ℓ) (c : κ) (l : ℓ) {cpu : Cpu} (hpc : s.pc c = .run)
      (h : acquire (s.lock l) c (s.cpu c) = .ok cpu) : Step s ((s.setCpu c cpu).setPc c (.spin l))
  | xchg (s : Machine κ ℓ) (c : κ) (l : ℓ) {lk : Spinlock κ} (hpc : s.pc c = .spin l)
      (h : xchg (s.lock l) c = some lk) : Step s ((s.setLock l lk).setPc c .run)
  | release (s : Machine κ ℓ) (c : κ) (l : ℓ) {lk : Spinlock κ} {cpu : Cpu} (hpc : s.pc c = .run)
      (h : release (s.lock l) c (s.cpu c) = .ok (lk, cpu)) : Step s ((s.setLock l lk).setCpu c cpu)
  | myproc (s : Machine κ ℓ) (c : κ) {cpu : Cpu} (hpc : s.pc c = .run)
      (h : myproc (s.cpu c) = .ok cpu) : Step s (s.setCpu c cpu)
  /-- `scheduler`'s `sti()`, at the top of its loop, where it holds no lock -/
  | sti (s : Machine κ ℓ) (c : κ) (hpc : s.pc c = .run) (ht : s.trap c = false)
      (hfree : ∀ l, holding (s.lock l) c = false) :
      Step s (s.setCpu c { s.cpu c with intr := true })
  /-- an interrupt, while interrupts are on: the interrupt gate turns them off -/
  | trap (s : Machine κ ℓ) (c : κ) (hi : (s.cpu c).intr = true) (ht : s.trap c = false) :
      Step s ((s.setCpu c { s.cpu c with intr := false }).setTrap c true)
  /-- the handler returns once it holds no lock, and `iret` restores `FL_IF` -/
  | iret (s : Machine κ ℓ) (c : κ) (hpc : s.pc c = .run) (ht : s.trap c = true)
      (hfree : ∀ l, holding (s.lock l) c = false) :
      Step s ((s.setCpu c { s.cpu c with intr := true }).setTrap c false)

/-- The states the machine reaches after boot. -/
def Reach (s : Machine κ ℓ) : Prop := Relation.ReflTransGen Step Machine.init s

end Steps

/-! ### What each operation does -/

theorem acquire_eq_ok {lk : Spinlock κ} {c : κ} {cpu cpu' : Cpu} (h : acquire lk c cpu = .ok cpu') :
    holding lk c = false ∧ cpu' = pushcli cpu := by
  unfold acquire at h
  split at h
  · cases h
  · rename_i hh
    cases h
    exact ⟨by simpa using hh, rfl⟩

omit [DecidableEq κ] in
theorem xchg_eq_some {lk lk' : Spinlock κ} {c : κ} (h : xchg lk c = some lk') :
    lk.locked = false ∧ lk' = { locked := true, cpu := some c } := by
  unfold xchg at h
  split at h
  · cases h
  · rename_i hl
    cases h
    exact ⟨by simpa using hl, rfl⟩

theorem popcli_eq_ok {cpu cpu' : Cpu} (h : popcli cpu = .ok cpu') :
    cpu.intr = false ∧ 0 < cpu.ncli ∧
      cpu' = ⟨cpu.ncli - 1, cpu.intena, decide (cpu.ncli - 1 = 0) && cpu.intena⟩ := by
  unfold popcli at h
  split at h
  · cases h
  · split at h
    · cases h
    · cases h
      exact ⟨by simpa using ‹¬cpu.intr = true›, by omega, rfl⟩

theorem release_eq_ok {lk lk' : Spinlock κ} {c : κ} {cpu cpu' : Cpu}
    (h : release lk c cpu = .ok (lk', cpu')) :
    holding lk c = true ∧ lk' = { locked := false, cpu := none } ∧ popcli cpu = .ok cpu' := by
  unfold release at h
  split at h
  · cases h
  · split at h
    · cases h
    · rename_i hheld
      cases hp : popcli cpu with
      | error e =>
        rw [hp] at h
        cases h
      | ok c' =>
        rw [hp] at h
        cases h
        exact ⟨by simpa using hheld, rfl, rfl⟩

/-- `myproc`'s `pushcli`/`popcli` pair leaves the depth and the interrupt flag alone; at depth 0
it leaves in `intena` the interrupt flag. -/
theorem myproc_of_valid {cpu : Cpu} (hv : cpu.Valid) :
    myproc cpu = .ok ⟨cpu.ncli, if cpu.ncli = 0 then cpu.intr else cpu.intena, cpu.intr⟩ := by
  have h0 := hv.1
  have hpush : (pushcli cpu).ncli = cpu.ncli + 1 := rfl
  unfold myproc
  rw [popcli_of_pos rfl (by omega)]
  -- the pair restores the depth; at depth 0 `intena` has just saved the flag
  by_cases hz : cpu.ncli = 0
  · simp [pushcli, hz]
  · simp [pushcli, hz, hv.2 (by omega)]

theorem holding_initlock (c : κ) : holding (initlock : Spinlock κ) c = false := rfl

/-! ### What every run keeps -/

/-- The invariant at one CPU that holds `n` locks. -/
structure CpuInv (n : Nat) (cpu : Cpu) (a : At ℓ) (t : Bool) : Prop where
  ncli : cpu.ncli = (n + a.spins : Nat)
  off : 0 < cpu.ncli → cpu.intr = false
  trap : t = true → cpu.intr = false ∧ (0 < cpu.ncli → cpu.intena = false)

theorem CpuInv.valid {n : Nat} {cpu : Cpu} {a : At ℓ} {t : Bool} (h : CpuInv n cpu a t) :
    cpu.Valid :=
  ⟨by rw [h.ncli]; omega, h.off⟩

section Invariant

variable [Fintype ℓ]

/-- The number of locks CPU `c` holds. -/
def Machine.held (s : Machine κ ℓ) (c : κ) : Nat := ∑ l, if holding (s.lock l) c then 1 else 0

/-- What holds in every reachable state (module doc), CPU by CPU. -/
def Inv (s : Machine κ ℓ) : Prop := ∀ c, CpuInv (s.held c) (s.cpu c) (s.pc c) (s.trap c)

variable {s : Machine κ ℓ}

theorem held_eq_zero {c : κ} (hfree : ∀ l, holding (s.lock l) c = false) : s.held c = 0 :=
  Finset.sum_eq_zero fun l _ => by rw [hfree l]; rfl

@[simp] theorem held_setCpu (c : κ) (cpu : Cpu) : (s.setCpu c cpu).held = s.held := rfl
@[simp] theorem held_setPc (c : κ) (a : At ℓ) : (s.setPc c a).held = s.held := rfl
@[simp] theorem held_setTrap (c : κ) (b : Bool) : (s.setTrap c b).held = s.held := rfl

theorem Inv.init : Inv (Machine.init : Machine κ ℓ) := by
  intro c
  have h0 : (Machine.init : Machine κ ℓ).held c = 0 := held_eq_zero fun _ => holding_initlock c
  exact ⟨by rw [h0]; rfl, fun h => absurd h (lt_irrefl 0), fun h => by cases h⟩

/-- A step of CPU `c` keeps the invariant when it moves only `c`'s fields, to `cpu`, `a` and
`t`, changes no other CPU's count, and `c` keeps its part. -/
theorem Inv.update (h : Inv s) {s' : Machine κ ℓ} (c : κ) {cpu : Cpu} {a : At ℓ} {t : Bool}
    (hcpu : s'.cpu = Function.update s.cpu c cpu) (hpc : s'.pc = Function.update s.pc c a)
    (htrap : s'.trap = Function.update s.trap c t) (hheld : ∀ d, d ≠ c → s'.held d = s.held d)
    (hc : CpuInv (s'.held c) cpu a t) : Inv s' := by
  intro d
  rw [hcpu, hpc, htrap]
  by_cases hdc : d = c
  · subst hdc
    simpa only [Function.update_self] using hc
  · simp only [Function.update_of_ne hdc, hheld d hdc]
    exact h d

theorem Inv.acquire (h : Inv s) {c : κ} {l : ℓ} {cpu : Cpu} (hpc : s.pc c = .run)
    (hacq : acquire (s.lock l) c (s.cpu c) = .ok cpu) :
    Inv ((s.setCpu c cpu).setPc c (.spin l)) := by
  obtain ⟨-, rfl⟩ := acquire_eq_ok hacq
  have hc := h c
  rw [hpc] at hc
  refine h.update c rfl rfl (Function.update_eq_self c s.trap).symm (fun _ _ => rfl)
    ⟨?_, fun _ => rfl, fun ht => ⟨rfl, fun _ => ?_⟩⟩
  · show (s.cpu c).ncli + 1 = (s.held c + 1 : Nat)
    rw [hc.ncli]
    rfl
  · -- in a handler the saved flag is off, whichever level this is
    have ⟨hi, he⟩ := hc.trap ht
    show (if (s.cpu c).ncli = 0 then (s.cpu c).intr else (s.cpu c).intena) = false
    split
    · exact hi
    · exact he (by have := hc.valid.1; omega)

theorem Inv.myproc (h : Inv s) {c : κ} {cpu : Cpu} (hm : myproc (s.cpu c) = .ok cpu) :
    Inv (s.setCpu c cpu) := by
  have hc := h c
  rw [myproc_of_valid hc.valid] at hm
  cases hm
  refine h.update c rfl (Function.update_eq_self c s.pc).symm
    (Function.update_eq_self c s.trap).symm (fun _ _ => rfl)
    ⟨hc.ncli, hc.off, fun ht => ⟨(hc.trap ht).1, fun hp => ?_⟩⟩
  have hp' : 0 < (s.cpu c).ncli := hp
  show (if (s.cpu c).ncli = 0 then (s.cpu c).intr else (s.cpu c).intena) = false
  rw [if_neg (by omega)]
  exact (hc.trap ht).2 hp'

/-- A CPU outside every critical section is at depth 0. -/
theorem Inv.ncli_eq_zero (h : Inv s) {c : κ} (hpc : s.pc c = .run)
    (hfree : ∀ l, holding (s.lock l) c = false) : (s.cpu c).ncli = 0 := by
  rw [(h c).ncli, held_eq_zero hfree, hpc]
  rfl

theorem Inv.sti (h : Inv s) {c : κ} (hpc : s.pc c = .run) (ht : s.trap c = false)
    (hfree : ∀ l, holding (s.lock l) c = false) :
    Inv (s.setCpu c { s.cpu c with intr := true }) := by
  have h0 := h.ncli_eq_zero hpc hfree
  refine h.update c rfl (Function.update_eq_self c s.pc).symm
    (Function.update_eq_self c s.trap).symm (fun _ _ => rfl)
    ⟨(h c).ncli, fun hp => absurd hp (by simp [h0]), fun ht' => by simp [ht] at ht'⟩

theorem Inv.trap (h : Inv s) {c : κ} (hi : (s.cpu c).intr = true) :
    Inv ((s.setCpu c { s.cpu c with intr := false }).setTrap c true) := by
  have hc := h c
  -- interrupts were on, so the CPU was inside no `pushcli`
  have h0 : ¬ 0 < (s.cpu c).ncli := fun hp => by simp [hc.off hp] at hi
  refine h.update c rfl (Function.update_eq_self c s.pc).symm rfl (fun _ _ => rfl)
    ⟨hc.ncli, fun _ => rfl, fun _ => ⟨rfl, fun hp => absurd hp h0⟩⟩

theorem Inv.iret (h : Inv s) {c : κ} (hpc : s.pc c = .run)
    (hfree : ∀ l, holding (s.lock l) c = false) :
    Inv ((s.setCpu c { s.cpu c with intr := true }).setTrap c false) := by
  have h0 := h.ncli_eq_zero hpc hfree
  refine h.update c rfl (Function.update_eq_self c s.pc).symm rfl (fun _ _ => rfl)
    ⟨(h c).ncli, fun hp => absurd hp (by simp [h0]), fun ht => by cases ht⟩

variable [DecidableEq ℓ]

/-- Changing one lock changes the count of each CPU by the difference at that lock. -/
theorem held_setLock (l : ℓ) (lk : Spinlock κ) (d : κ) :
    (s.setLock l lk).held d + (if holding (s.lock l) d then 1 else 0) =
      s.held d + (if holding lk d then 1 else 0) :=
  Tally.sum_update_add (fun _ lk => if holding lk d then 1 else 0) s.lock l lk

theorem Inv.xchg (h : Inv s) {c : κ} {l : ℓ} {lk : Spinlock κ} (hpc : s.pc c = .spin l)
    (hx : xchg (s.lock l) c = some lk) : Inv ((s.setLock l lk).setPc c .run) := by
  obtain ⟨hfree, rfl⟩ := xchg_eq_some hx
  -- nobody held the lock, and now `c` does
  have hcount : ∀ d, (s.setLock l ⟨true, some c⟩).held d =
      s.held d + (if d = c then 1 else 0) := by
    intro d
    have := held_setLock (s := s) l ⟨true, some c⟩ d
    simp only [holding, hfree, Bool.false_and, Bool.false_eq_true, if_false, Nat.add_zero,
      Bool.true_and, Option.some.injEq, decide_eq_true_eq] at this
    rw [this]
    by_cases hd : d = c
    · simp [hd]
    · simp [hd, Ne.symm hd]
  have hc := h c
  rw [hpc] at hc
  refine h.update c (Function.update_eq_self c s.cpu).symm rfl
    (Function.update_eq_self c s.trap).symm
    (fun d hd => by rw [held_setPc, hcount, if_neg hd]; rfl) ⟨?_, hc.off, hc.trap⟩
  rw [hc.ncli, held_setPc, hcount, if_pos rfl]
  rfl

theorem Inv.release (h : Inv s) {c : κ} {l : ℓ} {lk : Spinlock κ} {cpu : Cpu}
    (hpc : s.pc c = .run) (hrel : release (s.lock l) c (s.cpu c) = .ok (lk, cpu)) :
    Inv ((s.setLock l lk).setCpu c cpu) := by
  obtain ⟨hheld, rfl, hpop⟩ := release_eq_ok hrel
  obtain ⟨hi, hpos, rfl⟩ := popcli_eq_ok hpop
  -- `c` held the lock, so no other CPU did, and now none does
  have hcount : ∀ d, (s.setLock l ⟨false, none⟩).held d + (if d = c then 1 else 0) =
      s.held d := by
    intro d
    have := held_setLock (s := s) l ⟨false, none⟩ d
    simp only [holding, Bool.and_eq_true, decide_eq_true_eq] at hheld
    simp only [holding, hheld.1, hheld.2, Bool.true_and, Option.some.injEq, decide_eq_true_eq,
      Bool.false_and, Bool.false_eq_true, if_false, Nat.add_zero] at this
    rw [← this]
    by_cases hd : d = c
    · simp [hd]
    · simp [hd, Ne.symm hd]
  have hc := h c
  rw [hpc] at hc
  have hn := hcount c
  rw [if_pos rfl] at hn
  have hz : (At.run : At ℓ).spins = 0 := rfl
  have hn' : (s.cpu c).ncli = ((s.setLock l ⟨false, none⟩).held c + 1 : Nat) := by
    rw [hc.ncli, hz, ← hn]
  refine h.update c rfl (Function.update_eq_self c s.pc).symm
    (Function.update_eq_self c s.trap).symm
    (fun d hd => by rw [held_setCpu, ← hcount d, if_neg hd]; rfl) ⟨?_, fun hp => ?_, fun ht => ?_⟩
  · show (s.cpu c).ncli - 1 = ((s.setLock l ⟨false, none⟩).held c + (s.pc c).spins : Nat)
    rw [hpc, hz, hn']
    omega
  · show (decide ((s.cpu c).ncli - 1 = 0) && (s.cpu c).intena) = false
    have : (s.cpu c).ncli - 1 ≠ 0 := fun h0 => by simp [h0] at hp
    simp [this]
  · -- in a handler `intena` is off, so the last `popcli` leaves interrupts off
    have he := (hc.trap ht).2 hpos
    exact ⟨by simp [he], fun _ => he⟩

theorem Inv.step (h : Inv s) {s' : Machine κ ℓ} (hs : Step s s') : Inv s' := by
  cases hs with
  | acquire c l hpc hacq => exact h.acquire hpc hacq
  | xchg c l hpc hx => exact h.xchg hpc hx
  | release c l hpc hrel => exact h.release hpc hrel
  | myproc c _ hm => exact h.myproc hm
  | sti c hpc ht hfree => exact h.sti hpc ht hfree
  | trap c hi _ => exact h.trap hi
  | iret c hpc _ hfree => exact h.iret hpc hfree

theorem inv_of_reach (h : Reach s) : Inv s := by
  induction h with
  | refl => exact Inv.init
  | tail _ hs ih => exact ih.step hs

end Invariant

/-! ### No CPU spins for a lock it holds -/

section NoSelfSpin

variable [DecidableEq ℓ] {s : Machine κ ℓ}

/-- No CPU waits in `acquire`'s spin loop for a lock it holds itself. -/
def NoSelfSpin (s : Machine κ ℓ) : Prop :=
  ∀ c l, s.pc c = .spin l → holding (s.lock l) c = false

omit [DecidableEq ℓ] in
theorem NoSelfSpin.init : NoSelfSpin (Machine.init : Machine κ ℓ) :=
  fun _ _ h => by cases h

theorem NoSelfSpin.step (h : NoSelfSpin s) {s' : Machine κ ℓ} (hs : Step s s') :
    NoSelfSpin s' := by
  cases hs with
  | acquire c l _ hacq =>
    -- `acquire` has just checked that `c` does not hold `l`
    intro d m hd
    show holding (s.lock m) d = false
    by_cases hdc : d = c
    · subst hdc
      have hlm : At.spin l = At.spin m := by simpa using hd
      cases hlm
      exact (acquire_eq_ok hacq).1
    · exact h d m (by simpa [Function.update_of_ne hdc] using hd)
  | xchg c l _ hx =>
    -- the lock goes to `c`, which leaves its spin loop
    obtain ⟨-, rfl⟩ := xchg_eq_some hx
    intro d m hd
    have hdc : d ≠ c := by
      rintro rfl
      simp at hd
    have hd' : s.pc d = .spin m := by simpa [Function.update_of_ne hdc] using hd
    show holding (Function.update s.lock l ⟨true, some c⟩ m) d = false
    by_cases hml : m = l
    · subst hml
      simp [holding, Ne.symm hdc]
    · rw [Function.update_of_ne hml]
      exact h d m hd'
  | release c l _ hrel =>
    obtain ⟨-, rfl, -⟩ := release_eq_ok hrel
    intro d m hd
    show holding (Function.update s.lock l ⟨false, none⟩ m) d = false
    by_cases hml : m = l
    · subst hml
      rw [Function.update_self]
      rfl
    · rw [Function.update_of_ne hml]
      exact h d m hd
  | myproc => exact h
  | sti => exact h
  | trap => exact h
  | iret => exact h

theorem noSelfSpin_of_reach (h : Reach s) : NoSelfSpin s := by
  induction h with
  | refl => exact NoSelfSpin.init
  | tail _ hs ih => exact ih.step hs

/-- A CPU in `acquire`'s spin loop never holds the lock it waits for: `acquire`'s `holding`
check turns the self-deadlock into a panic before the loop. -/
theorem spin_never_holds (h : Reach s) {c : κ} {l : ℓ} (hpc : s.pc c = .spin l) :
    holding (s.lock l) c = false :=
  noSelfSpin_of_reach h c l hpc

end NoSelfSpin

/-! ### Every run -/

section Runs

variable [Fintype ℓ] {s : Machine κ ℓ}

/-- A lock that `c` holds counts in `c`'s total. -/
theorem one_le_held {c : κ} {l : ℓ} (hh : holding (s.lock l) c = true) : 1 ≤ s.held c := by
  have hle := Finset.single_le_sum (f := fun m => if holding (s.lock m) c then 1 else 0)
    (fun _ _ => Nat.zero_le _) (Finset.mem_univ l)
  show 1 ≤ ∑ m, if holding (s.lock m) c then 1 else 0
  simpa [hh] using hle

/-- `release` of a lock `c` holds, from code outside the spin loop, gets past its checks and its
`popcli`. -/
theorem Inv.release_ok (h : Inv s) {c : κ} {l : ℓ} (hpc : s.pc c = .run)
    (hh : holding (s.lock l) c = true) :
    ∃ r, SpinLocks.release (s.lock l) c (s.cpu c) = .ok r := by
  have hc := h c
  have hpos : 0 < (s.cpu c).ncli := by
    have h1 := one_le_held hh
    rw [hc.ncli, hpc]
    show (0 : Int) < (s.held c + 0 : Nat)
    omega
  have hi := hc.off hpos
  unfold SpinLocks.release
  rw [if_neg (by simp [hi]), if_neg (by simp [hh]), popcli_of_pos hi hpos]
  exact ⟨_, rfl⟩

variable [DecidableEq ℓ]

/-- Interrupts are off in every critical section: on every CPU of every reachable state `ncli`
counts the locks the CPU holds and the one it spins for, a CPU with interrupts on holds no lock
and spins for none, and a CPU in an interrupt handler has interrupts off. -/
theorem interrupts_off_in_critical_sections (h : Reach s) (c : κ) :
    (s.cpu c).ncli = (s.held c + (s.pc c).spins : Nat) ∧
    ((s.cpu c).intr = true → s.held c = 0 ∧ s.pc c = .run) ∧
    (s.trap c = true → (s.cpu c).intr = false) := by
  have hc := inv_of_reach h c
  refine ⟨hc.ncli, fun hi => ?_, fun ht => (hc.trap ht).1⟩
  -- interrupts on means depth 0, and the depth counts the locks and the spin
  have h0 : ¬ 0 < (s.cpu c).ncli := fun hp => by simp [hc.off hp] at hi
  have hn := hc.ncli
  cases hpc : s.pc c with
  | run =>
    rw [hpc] at hn
    exact ⟨by simp only [At.spins] at hn; omega, rfl⟩
  | spin l =>
    rw [hpc] at hn
    simp only [At.spins] at hn
    omega

/-- A CPU outside the spin loop can always `release` a lock it holds and call `myproc`, which
leaves its depth and interrupt flag alone; and one that holds exactly one lock, as `sched`
requires of `ptable.lock`, passes `sched`'s checks that `ncli` is 1 and interrupts are off. -/
theorem release_never_panics (h : Reach s) {c : κ} (hpc : s.pc c = .run) :
    (∀ l, holding (s.lock l) c = true → ∃ r, release (s.lock l) c (s.cpu c) = .ok r) ∧
    (∃ cpu, myproc (s.cpu c) = .ok cpu ∧ cpu.ncli = (s.cpu c).ncli ∧
      cpu.intr = (s.cpu c).intr) ∧
    (s.held c = 1 → (s.cpu c).ncli = 1 ∧ (s.cpu c).intr = false) := by
  have hinv := inv_of_reach h
  have hc := hinv c
  refine ⟨fun l hh => hinv.release_ok hpc hh,
    ⟨_, myproc_of_valid hc.valid, rfl, rfl⟩, fun h1 => ?_⟩
  have hn : (s.cpu c).ncli = 1 := by
    rw [hc.ncli, hpc, h1]
    rfl
  exact ⟨hn, hc.off (by omega)⟩

end Runs

/-! ### A contended lock

CPU `false` turns interrupts on in the scheduler, then takes lock `false`, which saves the flag in
`intena`; CPU `true` then spins for the same lock. -/

/-- The state after those four steps. -/
def contended : Machine Bool Bool :=
  let s₁ := (Machine.init : Machine Bool Bool).setCpu false ⟨0, false, true⟩
  let s₂ := (s₁.setCpu false ⟨1, true, false⟩).setPc false (.spin false)
  let s₃ := (s₂.setLock false ⟨true, some false⟩).setPc false .run
  (s₃.setCpu true ⟨1, false, false⟩).setPc true (.spin false)

theorem contended_reach : Reach contended := by
  let s₁ := (Machine.init : Machine Bool Bool).setCpu false ⟨0, false, true⟩
  let s₂ := (s₁.setCpu false ⟨1, true, false⟩).setPc false (.spin false)
  let s₃ := (s₂.setLock false ⟨true, some false⟩).setPc false .run
  have h₁ : Step Machine.init s₁ := Step.sti _ false rfl rfl (by decide)
  have h₂ : Step s₁ s₂ := Step.acquire _ false false rfl rfl
  have h₃ : Step s₂ s₃ := Step.xchg _ false false rfl rfl
  have h₄ : Step s₃ contended := Step.acquire _ true false rfl rfl
  exact .tail (.tail (.tail (.tail .refl h₁) h₂) h₃) h₄

theorem interrupts_off_in_critical_sections_contended :
    (contended.cpu false).ncli = (contended.held false + (contended.pc false).spins : Nat) ∧
    ((contended.cpu false).intr = true →
      contended.held false = 0 ∧ contended.pc false = .run) ∧
    (contended.trap false = true → (contended.cpu false).intr = false) :=
  interrupts_off_in_critical_sections contended_reach false

theorem release_never_panics_contended :
    (∀ l, holding (contended.lock l) false = true →
      ∃ r, release (contended.lock l) false (contended.cpu false) = .ok r) ∧
    (∃ cpu, myproc (contended.cpu false) = .ok cpu ∧ cpu.ncli = (contended.cpu false).ncli ∧
      cpu.intr = (contended.cpu false).intr) ∧
    (contended.held false = 1 →
      (contended.cpu false).ncli = 1 ∧ (contended.cpu false).intr = false) :=
  release_never_panics contended_reach rfl

theorem spin_never_holds_contended : holding (contended.lock false) true = false :=
  spin_never_holds contended_reach (c := true) (l := false) rfl

end Xv6.SpinLocks
