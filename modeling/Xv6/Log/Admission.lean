import Xv6.Log.Recovery
import Mathlib.Logic.Relation

/-!
Log space admission: `begin_op`, `log_write` and `end_op` on the in-memory log state.

`begin_op` admits an operation only while `lh.n + (outstanding + 1) * MAXOPBLOCKS` stays
within `LOGSIZE`, reserving `MAXOPBLOCKS` header entries for every operation in progress.
`log_write` panics once `lh.n` reaches `LOGSIZE` or `log.size - 1`. The reservation keeps
`lh.n` within `LOGSIZE` in every reachable state (`AdmissionInv`); but `mkfs` makes
`log.size` equal to `LOGSIZE`, one block of which is the header, so the second bound is one
lower than what `begin_op` reserves, and three operations that each log their full
`MAXOPBLOCKS` blocks run into it (`log_write_panics_at_full_reservation`).

Operations in progress run interleaved: the system steps one `begin_op`, one `log_write`,
one `end_op` or the end of a commit at a time, in any order the guards allow.
-/

namespace Xv6.Log

/-- The fields of `struct log` that admission reads and writes: `lh.block[0..lh.n)`,
`outstanding` and `committing`. -/
structure LogState where
  lh : List Nat
  outstanding : Nat
  committing : Bool
  deriving DecidableEq, Repr

/-- `begin_op`: `none` when it sleeps, that is while a commit is running or while the log
might not have room for one more operation. -/
def beginOp (s : LogState) : Option LogState :=
  if s.committing then none
  else if s.lh.length + (s.outstanding + 1) * MAXOPBLOCKS > LOGSIZE then none
  else some { s with outstanding := s.outstanding + 1 }

/-- The absorption loop of `log_write`: a block already in the header keeps its entry,
another one is appended as `lh.block[lh.n++]`. -/
def absorb (lh : List Nat) (b : Nat) : List Nat := if b ∈ lh then lh else lh ++ [b]

/-- `log_write` of block `b`, on a log of `log.size` blocks; an error is a panic. -/
def logWrite (size : Nat) (s : LogState) (b : Nat) : Except String LogState :=
  if s.lh.length ≥ LOGSIZE ∨ s.lh.length ≥ size - 1 then .error "too big a transaction"
  else if s.outstanding < 1 then .error "log_write outside of trans"
  else .ok { s with lh := absorb s.lh b }

/-- `end_op` up to the call of `commit`: the last operation out sets `committing`. -/
def endOp (s : LogState) : Except String LogState :=
  if s.committing then .error "log.committing"
  else if s.outstanding - 1 = 0 then .ok { s with outstanding := 0, committing := true }
  else .ok { s with outstanding := s.outstanding - 1 }

/-- The end of a commit: `commit` empties the header (`log.lh.n = 0`) and `end_op` clears
`committing`. -/
def finishCommit (s : LogState) : LogState := { s with lh := [], committing := false }

@[simp] theorem length_absorb (lh : List Nat) (b : Nat) :
    (absorb lh b).length = if b ∈ lh then lh.length else lh.length + 1 := by
  unfold absorb
  split <;> simp

theorem mem_absorb {lh : List Nat} {b c : Nat} : c ∈ absorb lh b ↔ c ∈ lh ∨ c = b := by
  unfold absorb
  split
  · constructor
    · exact Or.inl
    · rintro (h | rfl) <;> assumption
  · simp

/-- Absorption never enters a block twice. -/
theorem nodup_absorb {lh : List Nat} (h : lh.Nodup) (b : Nat) : (absorb lh b).Nodup := by
  unfold absorb
  split
  · exact h
  · next hb =>
    refine List.nodup_append.mpr ⟨h, by simp, fun a ha c hc => ?_⟩
    rw [List.mem_singleton] at hc
    exact fun e => hb (hc ▸ e ▸ ha)

/-- The loop of `log_write`,
`for (i = 0; i < log.lh.n; i++) if (log.lh.block[i] == b->blockno) break;`: the index of the
first entry that is `blockno`, or `lh.n` when there is none. -/
def absorbIndex : List Nat → Nat → Nat
  | [], _ => 0
  | x :: lh, blockno => if x = blockno then 0 else absorbIndex lh blockno + 1

/-- What `log_write` does after its loop, `log.lh.block[i] = b->blockno; if (i == log.lh.n)
log.lh.n++;`, on the entries `lh.block[0..lh.n)`. -/
def absorbStore (lh : List Nat) (blockno : Nat) : List Nat :=
  let i := absorbIndex lh blockno
  if i = lh.length then lh ++ [blockno] else lh.set i blockno

theorem absorbStore_cons_of_ne {x b : Nat} (lh : List Nat) (h : x ≠ b) :
    absorbStore (x :: lh) b = x :: absorbStore lh b := by
  simp only [absorbStore, absorbIndex, if_neg h, List.length_cons, Nat.add_right_cancel_iff]
  split <;> simp

/-- The loop and the store after it are `absorb`: the block keeps its entry when it has one, and
is appended otherwise. -/
theorem absorbStore_eq_absorb (lh : List Nat) (b : Nat) : absorbStore lh b = absorb lh b := by
  induction lh with
  | nil => simp [absorbStore, absorbIndex, absorb]
  | cons x lh ih =>
    by_cases hx : x = b
    · -- found at the front: the store rewrites the entry with itself
      subst hx
      simp [absorbStore, absorbIndex, absorb]
    · rw [absorbStore_cons_of_ne lh hx, ih]
      unfold absorb
      by_cases hb : b ∈ lh
      · simp [hb]
      · simp [hb, Ne.symm hx]

/-- What one in-budget `log_write` of an operation that has logged `bs` records. -/
def logged (bs : List Nat) (b : Nat) : List Nat := if b ∈ bs then bs else b :: bs

/-! ### The interleaved system -/

/-- The log with the operations in progress, each given by the distinct block numbers it
has passed to `log_write` so far. -/
structure Ops where
  log : LogState
  active : List (List Nat)
  deriving DecidableEq, Repr

/-- After `initlog`: recovery has emptied the header and nothing is in progress. -/
def Ops.init : Ops := ⟨⟨[], 0, false⟩, []⟩

/-- One step of the system on a log of `size` blocks. Every operation calls `log_write` on
at most `MAXOPBLOCKS` distinct blocks: a write is in budget when its block is one the
operation already logged or the operation has logged fewer than `MAXOPBLOCKS`. -/
inductive Step (size : Nat) : Ops → Ops → Prop
  | begin {s : Ops} {l : LogState} (h : beginOp s.log = some l) :
      Step size s ⟨l, [] :: s.active⟩
  | write {s : Ops} {l : LogState} {i b : Nat} (hi : i < s.active.length)
      (hbudget : b ∈ s.active[i] ∨ s.active[i].length < MAXOPBLOCKS)
      (h : logWrite size s.log b = .ok l) :
      Step size s ⟨l, s.active.set i (logged s.active[i] b)⟩
  | finish {s : Ops} {l : LogState} {i : Nat} (hi : i < s.active.length)
      (h : endOp s.log = .ok l) :
      Step size s ⟨l, s.active.eraseIdx i⟩
  | commit {s : Ops} (h : s.log.committing = true) :
      Step size s ⟨finishCommit s.log, s.active⟩

/-! ### What each operation does -/

theorem beginOp_eq_some {s l : LogState} (h : beginOp s = some l) :
    s.committing = false ∧ s.lh.length + (s.outstanding + 1) * MAXOPBLOCKS ≤ LOGSIZE ∧
      l = { s with outstanding := s.outstanding + 1 } := by
  unfold beginOp at h
  split at h
  · cases h
  · split at h
    · cases h
    · cases h
      refine ⟨?_, ?_, rfl⟩ <;> simp_all

theorem logWrite_eq_ok {size : Nat} {s l : LogState} {b : Nat} (h : logWrite size s b = .ok l) :
    s.lh.length < LOGSIZE ∧ s.lh.length < size - 1 ∧ 1 ≤ s.outstanding ∧
      l = { s with lh := absorb s.lh b } := by
  unfold logWrite at h
  split at h
  · cases h
  · split at h
    · cases h
    · cases h
      refine ⟨?_, ?_, ?_, rfl⟩ <;> omega

theorem endOp_eq_ok {s l : LogState} (h : endOp s = .ok l) :
    s.committing = false ∧ l.lh = s.lh ∧ l.outstanding = s.outstanding - 1 ∧
      (l.committing = true ↔ s.outstanding - 1 = 0) := by
  unfold endOp at h
  split at h
  · cases h
  · rename_i hc
    have hc' : s.committing = false := by simpa using hc
    split at h
    · rename_i h0
      cases h
      exact ⟨hc', rfl, h0.symm, by simpa using h0⟩
    · rename_i h0
      cases h
      exact ⟨hc', rfl, rfl, by simpa [hc'] using h0⟩

/-! ### The admission invariant -/

/-- The header entries reserved for the operations in progress and not yet used. -/
def reserved (active : List (List Nat)) : Nat :=
  (active.map fun bs => MAXOPBLOCKS - bs.length).sum

theorem reserved_cons (bs : List Nat) (active : List (List Nat)) :
    reserved (bs :: active) = MAXOPBLOCKS - bs.length + reserved active := rfl

theorem reserved_le (active : List (List Nat)) : reserved active ≤ active.length * MAXOPBLOCKS := by
  induction active with
  | nil => simp [reserved]
  | cons bs active ih =>
      rw [reserved_cons, List.length_cons, Nat.succ_mul]
      omega

theorem reserved_set {active : List (List Nat)} {i : Nat} (hi : i < active.length)
    (bs : List Nat) :
    reserved (active.set i bs) + (MAXOPBLOCKS - active[i].length) =
      reserved active + (MAXOPBLOCKS - bs.length) := by
  induction active generalizing i with
  | nil => simp at hi
  | cons cs active ih =>
      cases i with
      | zero => simp only [List.set_cons_zero, reserved_cons, List.getElem_cons_zero]; omega
      | succ i =>
          simp only [List.set_cons_succ, reserved_cons, List.getElem_cons_succ]
          have := ih (by simpa using hi)
          omega

theorem reserved_eraseIdx {active : List (List Nat)} {i : Nat} (hi : i < active.length) :
    reserved (active.eraseIdx i) + (MAXOPBLOCKS - active[i].length) = reserved active := by
  induction active generalizing i with
  | nil => simp at hi
  | cons cs active ih =>
      cases i with
      | zero => simp only [List.eraseIdx_cons_zero, reserved_cons, List.getElem_cons_zero]; omega
      | succ i =>
          simp only [List.eraseIdx_cons_succ, reserved_cons, List.getElem_cons_succ]
          have := ih (by simpa using hi)
          omega

/-- What admission keeps true: one operation in progress per `outstanding`, none while
committing, every operation within its budget and its blocks in the header, and the
header plus the reservations of the operations in progress within `LOGSIZE`. -/
structure AdmissionInv (s : Ops) : Prop where
  outstanding : s.log.outstanding = s.active.length
  idle : s.log.committing = true → s.active = []
  budget : ∀ bs ∈ s.active, bs.length ≤ MAXOPBLOCKS
  inHeader : ∀ bs ∈ s.active, ∀ b ∈ bs, b ∈ s.log.lh
  space : s.log.lh.length + reserved s.active ≤ LOGSIZE

theorem admissionInv_init : AdmissionInv Ops.init :=
  ⟨rfl, (by intro h; cases h), by simp [Ops.init], by simp [Ops.init], by simp [Ops.init, reserved]⟩

theorem AdmissionInv.begin {s : Ops} {l : LogState} (hs : AdmissionInv s)
    (h : beginOp s.log = some l) : AdmissionInv ⟨l, [] :: s.active⟩ := by
  obtain ⟨hc, hroom, rfl⟩ := beginOp_eq_some h
  have hres := reserved_le s.active
  refine ⟨by simp [hs.outstanding], fun h' => by simp_all, ?_, ?_, ?_⟩
  · intro bs hbs
    rcases List.mem_cons.mp hbs with rfl | hbs
    · simp
    · exact hs.budget bs hbs
  · intro bs hbs b hb
    rcases List.mem_cons.mp hbs with rfl | hbs
    · simp at hb
    · exact hs.inHeader bs hbs b hb
  · show s.log.lh.length + reserved ([] :: s.active) ≤ LOGSIZE
    rw [reserved_cons, List.length_nil, Nat.sub_zero]
    rw [hs.outstanding] at hroom
    rw [Nat.add_mul, Nat.one_mul] at hroom
    omega

theorem logged_length_le {bs : List Nat} {b : Nat}
    (hbudget : b ∈ bs ∨ bs.length < MAXOPBLOCKS) (hbs : bs.length ≤ MAXOPBLOCKS) :
    (logged bs b).length ≤ MAXOPBLOCKS := by
  unfold logged
  split
  · exact hbs
  · rcases hbudget with h | h
    · contradiction
    · simp; omega

theorem AdmissionInv.write {size : Nat} {s : Ops} {l : LogState} {i b : Nat} (hs : AdmissionInv s)
    (hi : i < s.active.length) (hbudget : b ∈ s.active[i] ∨ s.active[i].length < MAXOPBLOCKS)
    (h : logWrite size s.log b = .ok l) :
    AdmissionInv ⟨l, s.active.set i (logged s.active[i] b)⟩ := by
  obtain ⟨-, -, -, rfl⟩ := logWrite_eq_ok h
  have hmem : s.active[i] ∈ s.active := List.getElem_mem hi
  refine ⟨by simp [hs.outstanding], fun hc => ?_, ?_, ?_, ?_⟩
  · have := hs.idle hc
    simp [this] at hi
  · intro bs hbs
    rcases List.mem_or_eq_of_mem_set hbs with hbs | rfl
    · exact hs.budget bs hbs
    · exact logged_length_le hbudget (hs.budget _ hmem)
  · intro bs hbs c hc
    rw [mem_absorb]
    rcases List.mem_or_eq_of_mem_set hbs with hbs | rfl
    · exact Or.inl (hs.inHeader bs hbs c hc)
    · unfold logged at hc
      split at hc
      · exact Or.inl (hs.inHeader _ hmem c hc)
      · rcases List.mem_cons.mp hc with rfl | hc
        · exact Or.inr rfl
        · exact Or.inl (hs.inHeader _ hmem c hc)
  · have hset := reserved_set hi (logged s.active[i] b)
    have hspace := hs.space
    have hlen := hs.budget _ hmem
    simp only [length_absorb]
    by_cases hlh : b ∈ s.log.lh
    · -- absorbed: the header does not grow, and the operation's reservation can only shrink
      rw [if_pos hlh]
      have : (logged s.active[i] b).length ≥ s.active[i].length := by
        unfold logged; split <;> simp
      omega
    · -- a new header entry, paid for by the operation's own reservation
      rw [if_neg hlh]
      have hnew : b ∉ s.active[i] := fun hb => hlh (hs.inHeader _ hmem b hb)
      have hlt : s.active[i].length < MAXOPBLOCKS := hbudget.resolve_left hnew
      have : (logged s.active[i] b).length = s.active[i].length + 1 := by
        simp [logged, hnew]
      omega

theorem AdmissionInv.finish {s : Ops} {l : LogState} {i : Nat} (hs : AdmissionInv s)
    (hi : i < s.active.length) (h : endOp s.log = .ok l) :
    AdmissionInv ⟨l, s.active.eraseIdx i⟩ := by
  obtain ⟨-, hlh, hout, hcommit⟩ := endOp_eq_ok h
  have herase := reserved_eraseIdx hi
  have hspace := hs.space
  refine ⟨?_, fun hc => ?_, ?_, ?_, ?_⟩
  · simp [hout, hs.outstanding, List.length_eraseIdx_of_lt hi]
  · have h0 := hcommit.mp hc
    rw [hs.outstanding] at h0
    apply List.eq_nil_of_length_eq_zero
    rw [List.length_eraseIdx_of_lt hi]
    exact h0
  · exact fun bs hbs => hs.budget bs (List.mem_of_mem_eraseIdx hbs)
  · intro bs hbs b hb
    rw [hlh]
    exact hs.inHeader bs (List.mem_of_mem_eraseIdx hbs) b hb
  · simp only [hlh]
    omega

theorem AdmissionInv.commit {s : Ops} (hs : AdmissionInv s) (h : s.log.committing = true) :
    AdmissionInv ⟨finishCommit s.log, s.active⟩ := by
  have hnil := hs.idle h
  refine ⟨?_, (by intro hc; cases hc), ?_, ?_, ?_⟩
  · simp [finishCommit, hs.outstanding, hnil]
  · simp [hnil]
  · simp [hnil]
  · simp [finishCommit, hnil, reserved]

theorem AdmissionInv.step {size : Nat} {s s' : Ops} (hs : AdmissionInv s) (h : Step size s s') :
    AdmissionInv s' := by
  cases h with
  | begin h => exact hs.begin h
  | write hi hbudget h => exact hs.write hi hbudget h
  | finish hi h => exact hs.finish hi h
  | commit h => exact hs.commit h

theorem admissionInv_of_reach {size : Nat} {s : Ops}
    (h : Relation.ReflTransGen (Step size) Ops.init s) : AdmissionInv s := by
  induction h with
  | refl => exact admissionInv_init
  | tail _ hstep ih => exact ih.step hstep

/-- The reservation does keep the in-memory header within its `LOGSIZE` array, and an
operation that still has budget never finds it full. -/
theorem lh_length_lt_LOGSIZE {size : Nat} {s : Ops} (h : Relation.ReflTransGen (Step size) Ops.init s)
    {i : Nat} (hi : i < s.active.length) (hbudget : s.active[i].length < MAXOPBLOCKS) :
    s.log.lh.length < LOGSIZE := by
  have hs := admissionInv_of_reach h
  have herase := reserved_eraseIdx hi
  have := hs.space
  omega

/-! ### Schedules

A schedule names which operation does what next; running it checks every guard. It is how
a concrete interleaving is shown to be a run of the system. -/

/-- One event of a schedule. -/
inductive Event
  | begin
  | write (i b : Nat)
  | finish (i : Nat)
  | commit

/-- Take one event, when its guard allows it. -/
def Ops.exec (size : Nat) (s : Ops) : Event → Option Ops
  | .begin => (beginOp s.log).map fun l => ⟨l, [] :: s.active⟩
  | .write i b =>
      if hi : i < s.active.length then
        if b ∈ s.active[i] ∨ s.active[i].length < MAXOPBLOCKS then
          match logWrite size s.log b with
          | .ok l => some ⟨l, s.active.set i (logged s.active[i] b)⟩
          | .error _ => none
        else none
      else none
  | .finish i =>
      if i < s.active.length then
        match endOp s.log with
        | .ok l => some ⟨l, s.active.eraseIdx i⟩
        | .error _ => none
      else none
  | .commit => if s.log.committing then some ⟨finishCommit s.log, s.active⟩ else none

/-- Take the events of a schedule in order. -/
def Ops.runEvents (size : Nat) : Ops → List Event → Option Ops
  | s, [] => some s
  | s, e :: es => (s.exec size e).bind fun s' => Ops.runEvents size s' es

theorem Ops.exec_step {size : Nat} {s s' : Ops} {e : Event} (h : s.exec size e = some s') :
    Step size s s' := by
  cases e with
  | begin =>
      obtain ⟨l, hl, rfl⟩ := Option.map_eq_some_iff.mp h
      exact Step.begin hl
  | write i b =>
      simp only [Ops.exec] at h
      split at h
      · rename_i hi
        split at h
        · rename_i hbudget
          split at h
          · rename_i l hl
            cases h
            exact Step.write hi hbudget hl
          · cases h
        · cases h
      · cases h
  | finish i =>
      simp only [Ops.exec] at h
      split at h
      · rename_i hi
        split at h
        · rename_i l hl
          cases h
          exact Step.finish hi hl
        · cases h
      · cases h
  | commit =>
      simp only [Ops.exec] at h
      split at h
      · rename_i hc
        cases h
        exact Step.commit hc
      · cases h

/-- A schedule that runs to the end is a run of the system. -/
theorem Ops.runEvents_reach {size : Nat} {s s' : Ops} {es : List Event}
    (h : s.runEvents size es = some s') : Relation.ReflTransGen (Step size) s s' := by
  induction es generalizing s with
  | nil =>
      cases h
      exact Relation.ReflTransGen.refl
  | cons e es ih =>
      obtain ⟨s₁, h₁, hrest⟩ := Option.bind_eq_some_iff.mp h
      exact Relation.ReflTransGen.head (Ops.exec_step h₁) (ih hrest)

/-- Where one operation has logged block 5 on the `mkfs` layout. -/
def oneWriteState : Ops := ⟨⟨[5], 1, false⟩, [[5]]⟩

theorem lh_length_lt_LOGSIZE_oneWrite :
    Relation.ReflTransGen (Step mkfsLogArea.size) Ops.init oneWriteState ∧
      oneWriteState.log.lh.length < LOGSIZE := by
  have hrun : Ops.init.runEvents mkfsLogArea.size [.begin, .write 0 5] = some oneWriteState := by
    decide
  exact ⟨Ops.runEvents_reach hrun, lh_length_lt_LOGSIZE (Ops.runEvents_reach hrun) (i := 0) (by decide)
    (by decide)⟩

/-! ### The reservation is one block too generous -/

/-- Three operations admitted together from an empty log; the first two log ten distinct
blocks each and the third nine. -/
def fullReservation : List Event :=
  [.begin, .begin, .begin] ++ (List.range 10).map (fun k => .write 0 (100 + k)) ++
    (List.range 10).map (fun k => .write 1 (110 + k)) ++
    (List.range 9).map (fun k => .write 2 (120 + k))

/-- Where `fullReservation` leaves the log on the `mkfs` layout: 29 header entries and
three operations in progress. -/
def fullReservationState : Ops :=
  ⟨⟨(List.range 29).map (100 + ·), 3, false⟩,
    [((List.range 10).map (100 + ·)).reverse, ((List.range 10).map (110 + ·)).reverse,
      ((List.range 9).map (120 + ·)).reverse]⟩

/-- On the disk `mkfs` builds, three operations admitted together by `begin_op`, each
logging at most `MAXOPBLOCKS` distinct blocks, reach a state where the third operation's
tenth block makes `log_write` panic: `lh.n` is `log.size - 1`. -/
theorem log_write_panics_at_full_reservation :
    Relation.ReflTransGen (Step mkfsLogArea.size) Ops.init fullReservationState ∧
      129 ∉ fullReservationState.active.getD 2 [] ∧
      (fullReservationState.active.getD 2 []).length < MAXOPBLOCKS ∧
      logWrite mkfsLogArea.size fullReservationState.log 129 = .error "too big a transaction" := by
  have hrun : Ops.init.runEvents mkfsLogArea.size fullReservation = some fullReservationState := by
    decide
  exact ⟨Ops.runEvents_reach hrun, by decide, by decide, by decide⟩

end Xv6.Log
