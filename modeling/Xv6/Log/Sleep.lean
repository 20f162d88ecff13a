import Xv6.Log.Admission
import Xv6.Lib.Monitor
import Xv6.Lib.Tally
import Xv6.Fs.FileBytes
import Mathlib.Algebra.BigOperators.Ring.Finset

/-!
# Processes in the log

Every file-system system call runs as one operation of the log: `begin_op`, `log_write` of the
blocks it changes, `end_op`. `begin_op` sleeps on `&log` while a commit is running or while the
log might not have room for one more operation; `end_op` wakes `&log` when an operation other
than the last ends, and the last one out sets `committing`, runs `commit()` without `log.lock`,
then clears `committing` and wakes `&log`. One step of the system is one critical section under
`log.lock`, as a `Monitor.Sys`; `commit()` is taken into the last one, since while `committing`
is set no operation is in progress and no other process touches the header. `kill` makes a
sleeper runnable; `begin_op`'s wait loop does not read `killed`.

`log_write` makes its two checks before it takes `log.lock`, reading `log.lh.n` and
`log.outstanding` unlocked, and absorbs the block under the lock; so it is two steps here, and
two processes can both pass the checks before either appends.

In every reachable state (`Inv`) each process asleep on `&log` would still be refused by
`begin_op`, so no wakeup is lost; the commit runs in one process, only while no operation is in
progress, so `end_op` never panics; and the header with the entries reserved for the
operations in progress stays within `LOGSIZE`, as in the atomic model of
`Xv6.Log.Admission`, so `lh.block` never overflows. The header can however reach `log.size`
entries, one more than `log_write`'s check allows: two operations that pass the checks together
at `lh.n = log.size - 2` both append (`racy_log_write_fills_log`), and `write_log` then copies
the last entry to `log.start + log.size`, the first block after the log.
-/

namespace Xv6.Log

open Monitor

namespace Procs

/-- The one channel: `begin_op` sleeps on `&log`. -/
inductive Chan where
  | log
  deriving DecidableEq

/-- Where a process is in the log's code. -/
inductive At where
  /-- outside any operation -/
  | idle
  /-- in `begin_op`, in its wait loop -/
  | begin
  /-- in an operation, having passed the distinct blocks `bs` to `log_write` -/
  | op (bs : List Nat)
  /-- in `log_write` of block `b`, past its checks and before `acquire(&log.lock)` -/
  | write (bs : List Nat) (b : Nat)
  /-- in `end_op` as the last operation out, in `commit()` or after it -/
  | commit
  deriving DecidableEq

/-- The channel of the wait loop a process at `a` may sleep in. -/
def At.loop : At → Option Chan
  | .begin => some .log
  | _ => none

/-- One for an operation in progress. -/
def At.ops : At → Nat
  | .idle => 0
  | .begin => 0
  | .op _ => 1
  | .write _ _ => 1
  | .commit => 0

/-- The blocks an operation in progress has logged. -/
def At.logged : At → List Nat
  | .idle => []
  | .begin => []
  | .op bs => bs
  | .write bs _ => bs
  | .commit => []

/-- The header entries an operation in progress may still use. -/
def At.reserve : At → Nat
  | .idle => 0
  | .begin => 0
  | .op bs => MAXOPBLOCKS - bs.length
  | .write bs _ => MAXOPBLOCKS - bs.length
  | .commit => 0

/-- A place out of any operation counts for nothing. -/
theorem At.logged_reserve_of_ops {a : At} (h : a.ops = 0) : a.logged = [] ∧ a.reserve = 0 := by
  cases a <;> simp_all [At.ops, At.logged, At.reserve]

theorem At.reserve_le (a : At) : a.reserve ≤ a.ops * MAXOPBLOCKS := by
  cases a <;> simp [At.ops, At.reserve]

/-! ### The critical sections -/

/-- One critical section of `begin_op`: the loop's tests, then `sleep(&log, &log.lock)` or
`log.outstanding += 1`. -/
def beginOpOutcome (s : LogState) : Outcome LogState At Chan :=
  match beginOp s with
  | some l => ⟨l, .op [], [], none⟩
  | none => ⟨s, .begin, [], some .log⟩

/-- `log_write`'s checks, made before `acquire(&log.lock)`. -/
def logWriteCheck (size : Nat) (s : LogState) : Except String Unit :=
  if s.lh.length ≥ LOGSIZE ∨ s.lh.length ≥ size - 1 then .error "too big a transaction"
  else if s.outstanding < 1 then .error "log_write outside of trans"
  else .ok ()

/-- The rest of `log_write`, under `log.lock`: the absorption loop. -/
def logWriteLocked (s : LogState) (b : Nat) : LogState := { s with lh := absorb s.lh b }

/-- The atomic `logWrite` of `Xv6.Log.Admission` is the checks followed at once by the
locked part. -/
theorem logWrite_eq_check (size : Nat) (s : LogState) (b : Nat) :
    logWrite size s b = (logWriteCheck size s).map fun _ => logWriteLocked s b := by
  unfold logWrite logWriteCheck
  split
  · rfl
  · split <;> rfl

/-- The locked part of `log_write` by an operation that has logged `bs`. -/
def logWriteOutcome (s : LogState) (bs : List Nat) (b : Nat) : Outcome LogState At Chan :=
  ⟨logWriteLocked s b, .op (logged bs b), [], none⟩

/-- `end_op`'s first section, from the log `l` that `endOp` leaves: the last operation out goes
on to `commit()` (`do_commit`), any other wakes `&log`. -/
def endOpOutcome (l : LogState) : Outcome LogState At Chan :=
  if l.outstanding = 0 then ⟨l, .commit, [], none⟩ else ⟨l, .idle, [.log], none⟩

/-- The end of `end_op` once `commit()` has emptied the header: `log.committing = 0`,
`wakeup(&log)`. -/
def commitOutcome (s : LogState) : Outcome LogState At Chan :=
  ⟨finishCommit s, .idle, [.log], none⟩

/-! ### The system -/

variable {ι : Type}

/-- After `initlog`, with no process in an operation. -/
def init : Sys ι LogState At Chan := ⟨Ops.init.log, fun _ => .idle, fun _ => none⟩

section Steps

variable [DecidableEq ι]

/-- The steps of processes `ι` on a log of `size` blocks. As in `Xv6.Log.Step`, every operation
passes at most `MAXOPBLOCKS` distinct blocks to `log_write`. -/
inductive Step (size : Nat) : Sys ι LogState At Chan → Sys ι LogState At Chan → Prop
  /-- a process starts a system call, which calls `begin_op` -/
  | call (s : Sys ι LogState At Chan) (i : ι) (h : s.pc i = .idle) : Step size s (s.goto i .begin)
  | beginOp (s : Sys ι LogState At Chan) (i : ι) (h : s.pc i = .begin) (hrun : s.chan i = none) :
      Step size s (s.exec i (beginOpOutcome s.shared))
  /-- an operation calls `log_write` on a block within its budget, and passes the checks -/
  | logWriteCheck (s : Sys ι LogState At Chan) (i : ι) {bs : List Nat} {b : Nat}
      (h : s.pc i = .op bs) (hbudget : b ∈ bs ∨ bs.length < MAXOPBLOCKS)
      (hok : logWriteCheck size s.shared = .ok ()) : Step size s (s.goto i (.write bs b))
  | logWriteLocked (s : Sys ι LogState At Chan) (i : ι) {bs : List Nat} {b : Nat}
      (h : s.pc i = .write bs b) : Step size s (s.exec i (logWriteOutcome s.shared bs b))
  | endOp (s : Sys ι LogState At Chan) (i : ι) {bs : List Nat} {l : LogState}
      (h : s.pc i = .op bs) (hl : endOp s.shared = .ok l) : Step size s (s.exec i (endOpOutcome l))
  | commit (s : Sys ι LogState At Chan) (i : ι) (h : s.pc i = .commit) :
      Step size s (s.exec i (commitOutcome s.shared))
  /-- `kill` makes a sleeper runnable -/
  | kill (s : Sys ι LogState At Chan) (i : ι) : Step size s (s.wake i)

/-- The states the processes reach from `init`. -/
def Reach (size : Nat) (s : Sys ι LogState At Chan) : Prop :=
  Relation.ReflTransGen (Step size) init s

end Steps

/-! ### Schedules

A schedule names which process takes which step next; running it checks every guard. It is
how a concrete interleaving is shown to be a run of the system. -/

/-- One event of a schedule. -/
inductive Event (ι : Type)
  | call (i : ι)
  | beginOp (i : ι)
  | logWriteCheck (i : ι) (b : Nat)
  | logWriteLocked (i : ι)
  | endOp (i : ι)
  | commit (i : ι)

section Schedules

variable [DecidableEq ι]

/-- Take one event, when its guards allow it. -/
def Event.exec (size : Nat) (s : Sys ι LogState At Chan) :
    Event ι → Option (Sys ι LogState At Chan)
  | .call i => if s.pc i = .idle then some (s.goto i .begin) else none
  | .beginOp i =>
      if s.pc i = .begin ∧ s.chan i = none then some (s.exec i (beginOpOutcome s.shared))
      else none
  | .logWriteCheck i b =>
      match s.pc i, Procs.logWriteCheck size s.shared with
      | .op bs, .ok () =>
          if b ∈ bs ∨ bs.length < MAXOPBLOCKS then some (s.goto i (.write bs b)) else none
      | _, _ => none
  | .logWriteLocked i =>
      match s.pc i with
      | .write bs b => some (s.exec i (logWriteOutcome s.shared bs b))
      | _ => none
  | .endOp i =>
      match s.pc i, Log.endOp s.shared with
      | .op _, .ok l => some (s.exec i (endOpOutcome l))
      | _, _ => none
  | .commit i => if s.pc i = .commit then some (s.exec i (commitOutcome s.shared)) else none

/-- Take the events of a schedule in order. -/
def runEvents (size : Nat) :
    Sys ι LogState At Chan → List (Event ι) → Option (Sys ι LogState At Chan)
  | s, [] => some s
  | s, e :: es => (e.exec size s).bind fun s' => runEvents size s' es

theorem Event.exec_step {size : Nat} {s s' : Sys ι LogState At Chan} {e : Event ι}
    (h : e.exec size s = some s') : Step size s s' := by
  cases e with
  | call i =>
    simp only [Event.exec] at h
    split at h
    · cases h
      exact Step.call s i ‹_›
    · cases h
  | beginOp i =>
    simp only [Event.exec] at h
    split at h
    · rename_i hg
      cases h
      exact Step.beginOp s i hg.1 hg.2
    · cases h
  | logWriteCheck i b =>
    simp only [Event.exec] at h
    split at h
    · rename_i bs _ hpc hok
      split at h
      · rename_i hbudget
        cases h
        exact Step.logWriteCheck s i hpc hbudget hok
      · cases h
    · cases h
  | logWriteLocked i =>
    simp only [Event.exec] at h
    split at h
    · rename_i bs b hpc
      cases h
      exact Step.logWriteLocked s i hpc
    · cases h
  | endOp i =>
    simp only [Event.exec] at h
    split at h
    · rename_i bs l hpc hl
      cases h
      exact Step.endOp s i hpc hl
    · cases h
  | commit i =>
    simp only [Event.exec] at h
    split at h
    · cases h
      exact Step.commit s i ‹_›
    · cases h

/-- A schedule that runs to the end is a run of the system. -/
theorem runEvents_reach {size : Nat} {s s' : Sys ι LogState At Chan} {es : List (Event ι)}
    (h : runEvents size s es = some s') : Relation.ReflTransGen (Step size) s s' := by
  induction es generalizing s with
  | nil =>
    cases h
    exact Relation.ReflTransGen.refl
  | cons e es ih =>
    obtain ⟨s₁, h₁, hrest⟩ := Option.bind_eq_some_iff.mp h
    exact Relation.ReflTransGen.head (Event.exec_step h₁) (ih hrest)

end Schedules

/-- The reason to sleep on `&log`: `begin_op` would not admit the operation. -/
def Waits (s : LogState) (_ : Chan) : Prop := beginOp s = none

/-- `begin_op` goes on refusing when a commit is still running, or when the header and the
operations in progress have not shrunk. -/
theorem beginOp_eq_none_mono {s s' : LogState} (h : beginOp s = none)
    (hc : s'.committing = s.committing) (hlh : s.lh.length ≤ s'.lh.length)
    (hout : s.outstanding ≤ s'.outstanding) : beginOp s' = none := by
  unfold beginOp at h ⊢
  rw [hc]
  split at h
  · rw [if_pos ‹_›]
  · rw [if_neg ‹_›]
    split at h
    · have hmul : (s.outstanding + 1) * MAXOPBLOCKS ≤ (s'.outstanding + 1) * MAXOPBLOCKS :=
        Nat.mul_le_mul_right _ (by omega)
      rw [if_pos (by omega)]
    · cases h

theorem beginOp_of_committing {s : LogState} (h : s.committing = true) : beginOp s = none := by
  simp [beginOp, h]

theorem endOp_of_not_committing {s : LogState} (h : s.committing = false) :
    ∃ l, endOp s = .ok l := by
  unfold endOp
  rw [if_neg (by simp [h])]
  split
  · exact ⟨_, rfl⟩
  · exact ⟨_, rfl⟩

theorem length_le_absorb (lh : List Nat) (b : Nat) : lh.length ≤ (absorb lh b).length := by
  rw [length_absorb]
  split <;> omega

/-- The blocks of an operation stay in the header when it absorbs one more. -/
theorem logged_subset_absorb {lh bs : List Nat} (hin : ∀ c ∈ bs, c ∈ lh) (b : Nat) :
    ∀ c ∈ logged bs b, c ∈ absorb lh b := by
  intro c hc
  rw [mem_absorb]
  unfold logged at hc
  split at hc
  · exact .inl (hin c hc)
  · rcases List.mem_cons.mp hc with rfl | hc
    · exact .inr rfl
    · exact .inl (hin c hc)

/-- An in-budget `log_write` pays for a new header entry out of its operation's reservation. -/
theorem absorb_length_add_le {lh bs : List Nat} {b : Nat} (hin : ∀ c ∈ bs, c ∈ lh)
    (hbudget : b ∈ bs ∨ bs.length < MAXOPBLOCKS) :
    (absorb lh b).length + (MAXOPBLOCKS - (logged bs b).length) ≤
      lh.length + (MAXOPBLOCKS - bs.length) := by
  rw [length_absorb]
  by_cases hlh : b ∈ lh
  · -- absorbed: the header does not grow, and the reservation can only shrink
    rw [if_pos hlh]
    have : bs.length ≤ (logged bs b).length := by
      unfold logged
      split <;> simp
    omega
  · -- a new entry, of a block the operation had not logged
    rw [if_neg hlh]
    have hnew : b ∉ bs := fun hb => hlh (hin b hb)
    have hlt : bs.length < MAXOPBLOCKS := hbudget.resolve_left hnew
    have : (logged bs b).length = bs.length + 1 := by simp [logged, hnew]
    omega

variable [Fintype ι]

/-- What holds in every reachable state (module doc). -/
structure Inv (s : Sys ι LogState At Chan) : Prop where
  outstanding : s.shared.outstanding = ∑ j, (s.pc j).ops
  committing : s.shared.committing = true ↔ ∃ i, s.pc i = .commit
  oneCommit : ∀ i j, s.pc i = .commit → s.pc j = .commit → i = j
  idle : s.shared.committing = true → s.shared.outstanding = 0
  pending : ∀ i bs b, s.pc i = .write bs b → b ∈ bs ∨ bs.length < MAXOPBLOCKS
  inHeader : ∀ i, ∀ b ∈ (s.pc i).logged, b ∈ s.shared.lh
  space : s.shared.lh.length + ∑ j, (s.pc j).reserve ≤ LOGSIZE
  inLoop : s.InLoop At.loop
  covered : s.Covered Waits

variable {s : Sys ι LogState At Chan}

theorem Inv.init : Inv (init : Sys ι LogState At Chan) where
  outstanding := by simp [Procs.init, Ops.init, At.ops]
  committing := by simp [Procs.init, Ops.init]
  oneCommit i _ h := by cases h
  idle h := by cases h
  pending i _ _ h := by cases h
  inHeader i b h := by cases h
  space := by simp [Procs.init, Ops.init, At.reserve]
  inLoop i c h := by cases h
  covered := covered_none _

/-- The operations in progress reserve at most `MAXOPBLOCKS` entries each. -/
theorem Inv.reserve_le (h : Inv s) : ∑ j, (s.pc j).reserve ≤ s.shared.outstanding * MAXOPBLOCKS := by
  rw [h.outstanding, Finset.sum_mul]
  exact Finset.sum_le_sum fun j _ => (s.pc j).reserve_le

/-- While a commit runs, no process is in an operation. -/
theorem Inv.ops_eq_zero (h : Inv s) (hc : s.shared.committing = true) (j : ι) :
    (s.pc j).ops = 0 := by
  have h0 := h.idle hc
  rw [h.outstanding, Finset.sum_eq_zero_iff] at h0
  exact h0 j (Finset.mem_univ j)

variable [DecidableEq ι]

/-- Moving process `i` from a place to one that counts alike leaves a tally as it was. -/
theorem tally_update {g : At → Nat} {pc : ι → At} {i : ι} {a : At} (h : g a = g (pc i)) :
    ∑ j, g (Function.update pc i a j) = ∑ j, g (pc j) := by
  have := Tally.sum_update_add (fun _ => g) pc i a
  simp only [h] at this
  omega

/-- Moving process `i` from `a` to `a'` changes a tally by the difference of their counts. -/
theorem tally_move {g : At → Nat} {pc : ι → At} {i : ι} {a a' : At} (hi : pc i = a) :
    ∑ j, g (Function.update pc i a' j) + g a = ∑ j, g (pc j) + g a' := by
  have := Tally.sum_update_add (fun _ => g) pc i a'
  rwa [hi] at this

/-- A step that leaves the log alone and moves one process between two places that count
alike, neither of them `commit`, keeps the invariant, given its sleepers. -/
theorem Inv.move (h : Inv s) {s' : Sys ι LogState At Chan} {i : ι} {a : At}
    (hsh : s'.shared = s.shared) (hpc : s'.pc = Function.update s.pc i a)
    (hops : a.ops = (s.pc i).ops) (hres : a.reserve = (s.pc i).reserve)
    (hlog : a.logged = (s.pc i).logged) (hc : a ≠ .commit) (hci : s.pc i ≠ .commit)
    (hw : ∀ bs b, a = .write bs b → b ∈ bs ∨ bs.length < MAXOPBLOCKS)
    (hl : s'.InLoop At.loop) (hcov : s'.Covered Waits) : Inv s' := by
  have hat : ∀ j, s'.pc j = .commit ↔ s.pc j = .commit := fun j => by
    rw [hpc]
    exact Sys.update_pc_eq_iff hci hc
  refine ⟨?_, ?_, ?_, ?_, ?_, ?_, ?_, hl, hcov⟩
  · rw [hsh, hpc, tally_update hops, h.outstanding]
  · simp only [hsh, hat, h.committing]
  · exact fun j k hj hk => h.oneCommit j k ((hat j).mp hj) ((hat k).mp hk)
  · rw [hsh]
    exact h.idle
  · intro j bs b hj
    rw [hpc] at hj
    by_cases hji : j = i
    · subst hji
      rw [Function.update_self] at hj
      exact hw bs b hj
    · rw [Function.update_of_ne hji] at hj
      exact h.pending j bs b hj
  · intro j b hb
    rw [hsh]
    rw [hpc] at hb
    by_cases hji : j = i
    · subst hji
      rw [Function.update_self, hlog] at hb
      exact h.inHeader j b hb
    · rw [Function.update_of_ne hji] at hb
      exact h.inHeader j b hb
  · rw [hsh, hpc, tally_update hres]
    exact h.space

theorem Inv.call (h : Inv s) {i : ι} (hi : s.pc i = .idle) : Inv (s.goto i .begin) :=
  h.move rfl rfl (by rw [hi]; rfl) (by rw [hi]; rfl) (by rw [hi]; rfl) nofun (by rw [hi]; nofun)
    nofun (h.inLoop.goto (by rw [hi]; rfl) _) (h.covered.goto i _)

theorem Inv.kill (h : Inv s) (i : ι) : Inv (s.wake i) :=
  { h with inLoop := h.inLoop.wake i, covered := h.covered.wake i }

/-- `begin_op` that finds no room sleeps on `&log`, with the reason to. -/
theorem Inv.beginOp_wait (h : Inv s) {i : ι} (hi : s.pc i = .begin)
    (hb : beginOp s.shared = none) : Inv (s.exec i (beginOpOutcome s.shared)) := by
  have ho : beginOpOutcome s.shared = ⟨s.shared, .begin, [], some .log⟩ := by
    simp [beginOpOutcome, hb]
  rw [ho]
  exact h.move rfl rfl (by rw [hi]) (by rw [hi]) (by rw [hi]) nofun (by rw [hi]; nofun) nofun
    (h.inLoop.exec (fun _ hc => by cases hc; rfl) i)
    (h.covered.exec (o := ⟨s.shared, .begin, [], some .log⟩) ⟨fun _ _ _ hP => hP, fun _ _ => hb⟩ i)

/-- `begin_op` that finds room admits the operation, with its `MAXOPBLOCKS` entries. -/
theorem Inv.beginOp_admit (h : Inv s) {i : ι} (hi : s.pc i = .begin) {l : LogState}
    (hb : beginOp s.shared = some l) : Inv (s.exec i (beginOpOutcome s.shared)) := by
  have ho : beginOpOutcome s.shared = ⟨l, .op [], [], none⟩ := by simp [beginOpOutcome, hb]
  obtain ⟨hc, hroom, rfl⟩ := beginOp_eq_some hb
  -- no commit runs, and `i` does not start one
  have hat : ∀ j, Function.update s.pc i (At.op []) j ≠ .commit := by
    intro j hj
    have hj' := (Sys.update_pc_eq_iff (show s.pc i ≠ .commit by rw [hi]; nofun)
      (show At.op [] ≠ .commit from nofun)).mp hj
    simp [h.committing.mpr ⟨j, hj'⟩] at hc
  have hops : ∑ j, (Function.update s.pc i (.op []) j).ops + 0 = ∑ j, (s.pc j).ops + 1 :=
    tally_move (g := At.ops) hi
  have hres : ∑ j, (Function.update s.pc i (.op []) j).reserve + 0 =
      ∑ j, (s.pc j).reserve + MAXOPBLOCKS :=
    tally_move (g := At.reserve) hi
  have hle := h.reserve_le
  have hspace := h.space
  have hout := h.outstanding
  rw [ho]
  refine ⟨?_, ?_, ?_, ?_, ?_, ?_, ?_, ?_, ?_⟩
  · simp only [Sys.exec_shared, Sys.exec_pc]
    omega
  · simpa [hc] using hat
  · exact fun j _ hj => absurd hj (hat j)
  · intro hc'
    simp [hc] at hc'
  · intro j bs b hj
    simp only [Sys.exec_pc] at hj
    by_cases hji : j = i
    · subst hji
      simp at hj
    · rw [Function.update_of_ne hji] at hj
      exact h.pending j bs b hj
  · intro j b hb
    simp only [Sys.exec_pc] at hb
    by_cases hji : j = i
    · subst hji
      simp [At.logged] at hb
    · rw [Function.update_of_ne hji] at hb
      exact h.inHeader j b hb
  · -- the new operation's reservation is the room `begin_op` found
    simp only [Sys.exec_shared, Sys.exec_pc]
    rw [Nat.add_mul, Nat.one_mul] at hroom
    omega
  · exact h.inLoop.exec (fun _ hc => by cases hc) i
  · -- a sleeper's reason cannot have held: `begin_op` just admitted an operation
    refine h.covered.exec ⟨fun c _ _ hP => ?_, fun _ hc => by cases hc⟩ i
    exact absurd (hP.symm.trans hb) nofun

theorem Inv.beginOp (h : Inv s) {i : ι} (hi : s.pc i = .begin) :
    Inv (s.exec i (beginOpOutcome s.shared)) := by
  cases hb : Log.beginOp s.shared with
  | none => exact h.beginOp_wait hi hb
  | some l => exact h.beginOp_admit hi hb

theorem Inv.logWriteCheck (h : Inv s) {i : ι} {bs : List Nat} {b : Nat} (hi : s.pc i = .op bs)
    (hbudget : b ∈ bs ∨ bs.length < MAXOPBLOCKS) : Inv (s.goto i (.write bs b)) :=
  h.move rfl rfl (by rw [hi]; rfl) (by rw [hi]; rfl) (by rw [hi]; rfl) nofun (by rw [hi]; nofun)
    (fun _ _ hw => by cases hw; exact hbudget) (h.inLoop.goto (by rw [hi]; rfl) _)
    (h.covered.goto i _)

/-- The locked part of `log_write` appends within the operation's reservation. -/
theorem Inv.logWriteLocked (h : Inv s) {i : ι} {bs : List Nat} {b : Nat}
    (hi : s.pc i = .write bs b) : Inv (s.exec i (logWriteOutcome s.shared bs b)) := by
  have hin : ∀ c ∈ bs, c ∈ s.shared.lh := by
    have := h.inHeader i
    rwa [hi] at this
  have hat : ∀ j, Function.update s.pc i (At.op (logged bs b)) j = .commit ↔ s.pc j = .commit :=
    fun j => Sys.update_pc_eq_iff (by rw [hi]; nofun) nofun
  have hres : ∑ j, (Function.update s.pc i (.op (logged bs b)) j).reserve +
      (MAXOPBLOCKS - bs.length) = ∑ j, (s.pc j).reserve + (MAXOPBLOCKS - (logged bs b).length) :=
    tally_move (g := At.reserve) hi
  have hspace := h.space
  have habs := absorb_length_add_le hin (h.pending i bs b hi)
  refine ⟨?_, ?_, ?_, h.idle, ?_, ?_, ?_, ?_, ?_⟩
  · simp only [logWriteOutcome, Procs.logWriteLocked, Sys.exec_shared, Sys.exec_pc]
    rw [tally_update (by rw [hi]; rfl), h.outstanding]
  · simp only [logWriteOutcome, Sys.exec_pc, hat]
    exact h.committing
  · simp only [logWriteOutcome, Sys.exec_pc, hat]
    exact h.oneCommit
  · intro j bs' b' hj
    simp only [logWriteOutcome, Sys.exec_pc] at hj
    by_cases hji : j = i
    · subst hji
      simp at hj
    · rw [Function.update_of_ne hji] at hj
      exact h.pending j bs' b' hj
  · intro j c hc
    simp only [logWriteOutcome, Procs.logWriteLocked, Sys.exec_shared, Sys.exec_pc] at hc ⊢
    by_cases hji : j = i
    · subst hji
      rw [Function.update_self] at hc
      exact logged_subset_absorb hin b c hc
    · rw [Function.update_of_ne hji] at hc
      exact mem_absorb.mpr (.inl (h.inHeader j c hc))
  · simp only [logWriteOutcome, Procs.logWriteLocked, Sys.exec_shared, Sys.exec_pc]
    omega
  · exact h.inLoop.exec (fun _ hc => by cases hc) i
  · refine h.covered.exec ⟨fun c _ _ hP => ?_, fun _ hc => by cases hc⟩ i
    exact beginOp_eq_none_mono hP rfl (length_le_absorb _ _) le_rfl

/-- `end_op`: the last operation out goes on to commit, any other wakes `&log`. -/
theorem Inv.endOp (h : Inv s) {i : ι} {bs : List Nat} (hi : s.pc i = .op bs) {l : LogState}
    (hl : Log.endOp s.shared = .ok l) : Inv (s.exec i (endOpOutcome l)) := by
  obtain ⟨hc, hlh, hout, hcommit⟩ := endOp_eq_ok hl
  have hnone : ∀ j, s.pc j ≠ .commit := fun j hj => by
    simp [h.committing.mpr ⟨j, hj⟩] at hc
  -- what does not depend on where `i` goes, as long as it leaves every operation
  have hcount : ∀ a : At, a.ops = 0 → l.outstanding = ∑ j, (Function.update s.pc i a j).ops := by
    intro a ha
    have hmove : ∑ j, (Function.update s.pc i a j).ops + 1 = ∑ j, (s.pc j).ops + a.ops :=
      tally_move (g := At.ops) hi
    have := h.outstanding
    omega
  have hspace : ∀ a : At, a.reserve = 0 →
      l.lh.length + ∑ j, (Function.update s.pc i a j).reserve ≤ LOGSIZE := by
    intro a ha
    have hmove : ∑ j, (Function.update s.pc i a j).reserve + (MAXOPBLOCKS - bs.length) =
        ∑ j, (s.pc j).reserve + a.reserve :=
      tally_move (g := At.reserve) hi
    have := h.space
    rw [hlh]
    omega
  have hpending : ∀ a : At, a.ops = 0 → ∀ j bs' b', Function.update s.pc i a j = .write bs' b' →
      b' ∈ bs' ∨ bs'.length < MAXOPBLOCKS := by
    intro a ha j bs' b' hj
    by_cases hji : j = i
    · subst hji
      rw [Function.update_self] at hj
      rw [hj] at ha
      cases ha
    · rw [Function.update_of_ne hji] at hj
      exact h.pending j bs' b' hj
  have hheader : ∀ a : At, a.logged = [] → ∀ j, ∀ b ∈ (Function.update s.pc i a j).logged,
      b ∈ l.lh := by
    intro a ha j b hb
    rw [hlh]
    by_cases hji : j = i
    · subst hji
      rw [Function.update_self, ha] at hb
      cases hb
    · rw [Function.update_of_ne hji] at hb
      exact h.inHeader j b hb
  unfold endOpOutcome
  split
  · -- the last operation out: `committing` is set, and `i` is the one to commit
    rename_i h0
    have hlc : l.committing = true := hcommit.mpr (by omega)
    have hat : ∀ j, Function.update s.pc i At.commit j = .commit → j = i := by
      intro j hj
      by_contra hji
      rw [Function.update_of_ne hji] at hj
      exact hnone j hj
    refine ⟨hcount .commit rfl, ?_, ?_, fun _ => h0, hpending .commit rfl, hheader .commit rfl,
      hspace .commit rfl, h.inLoop.exec (fun _ hc => by cases hc) i, ?_⟩
    · simp only [Sys.exec_shared, Sys.exec_pc, hlc, true_iff]
      exact ⟨i, Function.update_self ..⟩
    · intro j k hj hk
      rw [hat j hj, hat k hk]
    · refine h.covered.exec ⟨fun c _ _ _ => ?_, fun _ hc => by cases hc⟩ i
      exact beginOp_of_committing hlc
  · -- another operation is still in progress: `&log` is woken
    rename_i h0
    have hlc : l.committing = false := by
      cases hlc : l.committing
      · rfl
      · exact absurd (hcommit.mp hlc) (by omega)
    have hat : ∀ j, Function.update s.pc i At.idle j ≠ .commit := fun j hj =>
      hnone j ((Sys.update_pc_eq_iff (show s.pc i ≠ .commit by rw [hi]; nofun)
        (show At.idle ≠ .commit from nofun)).mp hj)
    refine ⟨hcount .idle rfl, ?_, fun j _ hj => absurd hj (hat j), ?_, hpending .idle rfl,
      hheader .idle rfl, hspace .idle rfl, h.inLoop.exec (fun _ hc => by cases hc) i, ?_⟩
    · simpa [hlc] using hat
    · intro hc'
      simp [hlc] at hc'
    · refine h.covered.exec ⟨fun c hc _ _ => ?_, fun _ hc => by cases hc⟩ i
      cases c
      exact absurd (List.mem_singleton_self _) hc

/-- The end of the commit: the header is empty, and `&log` is woken. -/
theorem Inv.commit (h : Inv s) {i : ι} (hi : s.pc i = .commit) :
    Inv (s.exec i (commitOutcome s.shared)) := by
  have hc : s.shared.committing = true := h.committing.mpr ⟨i, hi⟩
  -- no process is in an operation, and the committing one leaves
  have hzero : ∀ j, (Function.update s.pc i At.idle j).ops = 0 := by
    intro j
    by_cases hji : j = i
    · subst hji
      rw [Function.update_self]
      rfl
    · rw [Function.update_of_ne hji]
      exact h.ops_eq_zero hc j
  have hnone : ∀ j, Function.update s.pc i At.idle j ≠ .commit := by
    intro j hj
    by_cases hji : j = i
    · subst hji
      simp at hj
    · rw [Function.update_of_ne hji] at hj
      exact hji (h.oneCommit j i hj hi)
  refine ⟨?_, ?_, fun j _ hj => absurd hj (hnone j), ?_, ?_, ?_, ?_, ?_, ?_⟩
  · simp only [commitOutcome, finishCommit, Sys.exec_shared, Sys.exec_pc]
    rw [tally_update (by rw [hi]; rfl), h.outstanding]
  · simpa [commitOutcome, finishCommit] using hnone
  · intro hc'
    simp [commitOutcome, finishCommit] at hc'
  · intro j bs b hj
    have := hzero j
    simp only [commitOutcome, Sys.exec_pc] at hj
    rw [hj] at this
    cases this
  · intro j b hb
    simp only [commitOutcome, Sys.exec_pc] at hb
    rw [(At.logged_reserve_of_ops (hzero j)).1] at hb
    cases hb
  · simp only [commitOutcome, finishCommit, Sys.exec_shared, Sys.exec_pc, List.length_nil]
    rw [Finset.sum_eq_zero fun j _ => (At.logged_reserve_of_ops (hzero j)).2]
    decide
  · exact h.inLoop.exec (fun _ hc => by cases hc) i
  · refine h.covered.exec ⟨fun c hc _ _ => ?_, fun _ hc => by cases hc⟩ i
    cases c
    exact absurd (List.mem_singleton_self _) hc

theorem Inv.step {size : Nat} (h : Inv s) {s' : Sys ι LogState At Chan} (hs : Step size s s') :
    Inv s' := by
  cases hs with
  | call i hi => exact h.call hi
  | beginOp i hi _ => exact h.beginOp hi
  | logWriteCheck i hi hbudget _ => exact h.logWriteCheck hi hbudget
  | logWriteLocked i hi => exact h.logWriteLocked hi
  | endOp i hi hl => exact h.endOp hi hl
  | commit i hi => exact h.commit hi
  | kill i => exact h.kill i

theorem inv_of_reach {size : Nat} (h : Reach size s) : Inv s := by
  induction h with
  | refl => exact Inv.init
  | tail _ hs ih => exact ih.step hs

/-! ### What every run keeps -/

section Results

variable {size : Nat}

/-- In every reachable state, every process asleep on `&log` is in `begin_op`'s wait loop and
`begin_op` would still refuse it: a commit is running, or the log has no room for one more
operation. No wakeup of `end_op` is lost. -/
theorem log_sleepers_wait (h : Reach size s) :
    ∀ i, s.chan i = some .log → s.pc i = .begin ∧ Log.beginOp s.shared = none := by
  intro i hi
  have hinv := inv_of_reach h
  refine ⟨?_, hinv.covered i _ hi⟩
  have hl := hinv.inLoop i _ hi
  cases hpc : s.pc i <;> rw [hpc] at hl <;> first | rfl | cases hl

/-- In every reachable state the commit runs alone: `committing` is set exactly while one
process is in `commit()` or after it, no operation is then in progress, and `end_op` of an
operation in progress never panics with "log.committing". -/
theorem commit_runs_alone (h : Reach size s) :
    (s.shared.committing = true ↔ ∃ i, s.pc i = .commit) ∧
    (∀ i j, s.pc i = .commit → s.pc j = .commit → i = j) ∧
    (s.shared.committing = true → ∀ i, (s.pc i).ops = 0) ∧
    (∀ i bs, s.pc i = .op bs → ∃ l, Log.endOp s.shared = .ok l) := by
  have hinv := inv_of_reach h
  refine ⟨hinv.committing, hinv.oneCommit, hinv.ops_eq_zero, fun i bs hi => ?_⟩
  apply endOp_of_not_committing
  cases hc : s.shared.committing
  · rfl
  · have := hinv.ops_eq_zero hc i
    rw [hi] at this
    cases this

/-- In every reachable state `log.outstanding` counts the operations in progress, and the
header together with the entries they may still use stays within `LOGSIZE`, though
`log_write` reads the header's length without `log.lock`: `lh.block` never overflows. -/
theorem log_header_within_LOGSIZE (h : Reach size s) :
    s.shared.outstanding = ∑ j, (s.pc j).ops ∧
      s.shared.lh.length + ∑ j, (s.pc j).reserve ≤ LOGSIZE :=
  ⟨(inv_of_reach h).outstanding, (inv_of_reach h).space⟩

end Results

/-! ### Two `log_write`s past their checks -/

/-- Two `log_write`s interleaved: both make their checks, then both take `log.lock`. -/
def logWriteRace (s : Sys ι LogState At Chan) (i j : ι) (bsi bsj : List Nat) (bi bj : Nat) :
    Sys ι LogState At Chan :=
  let s₂ := (s.goto i (.write bsi bi)).goto j (.write bsj bj)
  let s₃ := s₂.exec i (logWriteOutcome s₂.shared bsi bi)
  s₃.exec j (logWriteOutcome s₃.shared bsj bj)

theorem absorb_of_not_mem {lh : List Nat} {b : Nat} (h : b ∉ lh) : absorb lh b = lh ++ [b] := by
  simp [absorb, h]

/-- `log_write` reads `lh.n` for its checks before it takes `log.lock`. From every reachable
state in which the header is two entries short of `log.size` and two operations have room in
their budgets for blocks not in the header, both pass the checks, and their appends leave
`log.size` entries in the header, one more than the checks allow: the copy of the last one
goes to `log.start + log.size`, the first block after the log. -/
theorem racy_log_write_fills_log {size : Nat} (h : Reach size s) {i j : ι} (hij : i ≠ j)
    {bsi bsj : List Nat} (hi : s.pc i = .op bsi) (hj : s.pc j = .op bsj)
    (hbi : bsi.length < MAXOPBLOCKS) (hbj : bsj.length < MAXOPBLOCKS)
    {bi bj : Nat} (hni : bi ∉ s.shared.lh) (hnj : bj ∉ s.shared.lh) (hne : bi ≠ bj)
    (hsize : s.shared.lh.length + 2 = size) :
    Reach size (logWriteRace s i j bsi bsj bi bj) ∧
      (logWriteRace s i j bsi bsj bi bj).shared.lh = s.shared.lh ++ [bi, bj] ∧
      ∀ lg : LogArea, lg.size = size →
        ¬ lg.InLog (lg.slot ((logWriteRace s i j bsi bsj bi bj).shared.lh.length - 1)) := by
  have hinv := inv_of_reach h
  -- both operations still have a reserved entry, so the header is two short of `LOGSIZE`
  have hri : 1 ≤ (s.pc i).reserve := by
    rw [hi]
    show 1 ≤ MAXOPBLOCKS - bsi.length
    omega
  have hrj : 1 ≤ (s.pc j).reserve := by
    rw [hj]
    show 1 ≤ MAXOPBLOCKS - bsj.length
    omega
  have htwo := Tally.add_le_sum (fun k => (s.pc k).reserve) hij
  have hspace := hinv.space
  have hout : 1 ≤ s.shared.outstanding := by
    rw [hinv.outstanding]
    calc 1 = (s.pc i).ops := by rw [hi]; rfl
      _ ≤ ∑ k, (s.pc k).ops :=
        Finset.single_le_sum (f := fun k => (s.pc k).ops) (fun k _ => Nat.zero_le _)
          (Finset.mem_univ i)
  have hok : Procs.logWriteCheck size s.shared = .ok () := by
    unfold Procs.logWriteCheck
    rw [if_neg (by omega), if_neg (by omega)]
  -- the four steps: both checks, then both locked sections
  let s₁ := s.goto i (.write bsi bi)
  let s₂ := s₁.goto j (.write bsj bj)
  let s₃ := s₂.exec i (logWriteOutcome s₂.shared bsi bi)
  have h1 : Step size s s₁ := Step.logWriteCheck s i hi (.inr hbi) hok
  have h2 : Step size s₁ s₂ :=
    Step.logWriteCheck s₁ j (by simp [s₁, Function.update_of_ne hij.symm, hj]) (.inr hbj) hok
  have h3 : Step size s₂ s₃ :=
    Step.logWriteLocked s₂ i (by simp [s₂, s₁, Function.update_of_ne hij])
  have h4 : Step size s₃ (logWriteRace s i j bsi bsj bi bj) :=
    Step.logWriteLocked s₃ j (by simp [s₃, s₂, Function.update_of_ne hij.symm])
  have hlh : (logWriteRace s i j bsi bsj bi bj).shared.lh = s.shared.lh ++ [bi, bj] := by
    simp only [logWriteRace, logWriteOutcome, Procs.logWriteLocked, Sys.exec_shared,
      Sys.goto_shared]
    rw [absorb_of_not_mem hni, absorb_of_not_mem (by simp [hnj, Ne.symm hne])]
    simp
  refine ⟨((h.tail h1).tail h2 |>.tail h3).tail h4, hlh, fun lg hlg hin => ?_⟩
  rw [hlh] at hin
  simp only [LogArea.InLog, LogArea.slot, List.length_append, List.length_cons,
    List.length_nil] at hin
  omega

/-! ### Runs on the `mkfs` layout -/

/-- A first operation ends and goes on to commit; a second process calls `begin_op` and
sleeps on `&log` while the commit runs. -/
def commitWaits : List (Event (Fin 3)) :=
  [.call 0, .beginOp 0, .endOp 0, .call 1, .beginOp 1]

theorem commitWaits_isSome :
    (runEvents mkfsLogArea.size (init : Sys (Fin 3) LogState At Chan) commitWaits).isSome := by
  decide

/-- Where `commitWaits` leaves the processes. -/
def commitWaitsState : Sys (Fin 3) LogState At Chan :=
  (runEvents mkfsLogArea.size init commitWaits).get commitWaits_isSome

theorem commitWaitsState_reach : Reach mkfsLogArea.size commitWaitsState :=
  runEvents_reach (Option.some_get commitWaits_isSome).symm

/-- Three operations admitted together from an empty log: the first logs ten blocks and the
other two nine each, which leaves the header two entries short of `log.size`. -/
def twoShort : List (Event (Fin 3)) :=
  [.call 0, .beginOp 0, .call 1, .beginOp 1, .call 2, .beginOp 2] ++
    (List.range 10).flatMap (fun k => [.logWriteCheck 0 (100 + k), .logWriteLocked 0]) ++
    (List.range 9).flatMap (fun k => [.logWriteCheck 1 (110 + k), .logWriteLocked 1]) ++
    (List.range 9).flatMap (fun k => [.logWriteCheck 2 (120 + k), .logWriteLocked 2])

theorem twoShort_isSome :
    (runEvents mkfsLogArea.size (init : Sys (Fin 3) LogState At Chan) twoShort).isSome := by
  decide

/-- Where `twoShort` leaves the processes. -/
def twoShortState : Sys (Fin 3) LogState At Chan :=
  (runEvents mkfsLogArea.size init twoShort).get twoShort_isSome

theorem twoShortState_reach : Reach mkfsLogArea.size twoShortState :=
  runEvents_reach (Option.some_get twoShort_isSome).symm

theorem log_sleepers_wait_commitWaits :
    commitWaitsState.chan 1 = some .log ∧
      ∀ i, commitWaitsState.chan i = some .log →
        commitWaitsState.pc i = .begin ∧ Log.beginOp commitWaitsState.shared = none :=
  ⟨by decide, log_sleepers_wait commitWaitsState_reach⟩

theorem commit_runs_alone_commitWaits :
    (commitWaitsState.shared.committing = true ↔ ∃ i, commitWaitsState.pc i = .commit) ∧
    (∀ i j, commitWaitsState.pc i = .commit → commitWaitsState.pc j = .commit → i = j) ∧
    (commitWaitsState.shared.committing = true → ∀ i, (commitWaitsState.pc i).ops = 0) ∧
    (∀ i bs, commitWaitsState.pc i = .op bs → ∃ l, Log.endOp commitWaitsState.shared = .ok l) :=
  commit_runs_alone commitWaitsState_reach

theorem log_header_within_LOGSIZE_commitWaits :
    commitWaitsState.shared.outstanding = ∑ j, (commitWaitsState.pc j).ops ∧
      commitWaitsState.shared.lh.length + ∑ j, (commitWaitsState.pc j).reserve ≤ LOGSIZE :=
  log_header_within_LOGSIZE commitWaitsState_reach

/-- The two operations of `twoShort` that have a block to spare, racing with their tenth. -/
def raced : Sys (Fin 3) LogState At Chan :=
  logWriteRace twoShortState 1 2 ((List.range 9).map (110 + ·)).reverse
    ((List.range 9).map (120 + ·)).reverse 119 129

/-- On the `mkfs` layout, after `twoShort` the last two operations' tenth blocks both pass
`log_write`'s checks; the header reaches `log.size` entries, and `write_log` would copy the last
one over the block that holds the root inode. -/
theorem racy_log_write_fills_log_twoShort :
    (Reach mkfsLogArea.size raced ∧ raced.shared.lh = twoShortState.shared.lh ++ [119, 129] ∧
      ∀ lg : LogArea, lg.size = mkfsLogArea.size →
        ¬ lg.InLog (lg.slot (raced.shared.lh.length - 1))) ∧
    mkfsLogArea.slot (raced.shared.lh.length - 1) = Fs.IBLOCK ROOTINO :=
  ⟨racy_log_write_fills_log twoShortState_reach (i := 1) (j := 2) (by decide) (by decide)
    (by decide) (by decide) (by decide) (by decide) (by decide) (by decide) (by decide),
    by decide⟩

end Procs

end Xv6.Log
