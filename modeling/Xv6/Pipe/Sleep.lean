import Xv6.Pipe.Fifo
import Xv6.Lib.Monitor

/-!
# Processes sleeping on a pipe

`pipewrite` sleeps on `&p->nwrite` while the ring is full, and `piperead` on `&p->nread` while
the ring is empty and the write end is open; each wakes the other side's channel once it has
changed the ring, and `pipeclose` wakes the channel of the other end. `sleep` gives up the pipe
lock only once it holds `ptable.lock`, which `wakeup` takes, so the test of a wait loop and the
sleep after it are one atomic step against every wakeup made under the pipe lock. One step of
the system is therefore one critical section under the pipe lock, as a `Monitor.Sys`: from
`acquire`, or from the return of `sleep`, to `release` or the next `sleep`. `kill` sets a
process's `killed` flag, which the wait loops read, and makes it runnable if it sleeps.

A call in progress holds its end of the pipe open, since its file descriptor holds a reference
to the file; so `pipeclose` of an end runs only when no call on that end is in progress.

Every reachable state keeps the FIFO invariant of `Xv6.Pipes.Fifo`, and no writer misses its
wakeup (`Inv`). No reader misses one either as long as no process has been killed
(`covered_of_reach`), and then readers and writers are never asleep together. But `pipewrite`
returns -1 from its wait loop when its process has been killed without `wakeup(&p->nread)`,
though the bytes it stored before the ring filled are there to read: a reader asleep on the
pipe stays asleep on a full ring (`killed_pipewrite_strands_reader`).
-/

namespace Xv6.Pipes

open Monitor

/-- The channels of a pipe: readers sleep on `&p->nread`, writers on `&p->nwrite`. -/
inductive Chan where
  | nread
  | nwrite
  deriving DecidableEq, Repr

/-- The channel `pipeclose` wakes: the readers' when the write end closes, and the writers'
when the read end does. -/
def closeChan (writable : Bool) : Chan := if writable then .nread else .nwrite

/-- Where a process is in the pipe code. -/
inductive At where
  /-- out of the pipe code; its last call returned `r`, having copied out `got` -/
  | done (r : Int) (got : List UInt8)
  /-- in `pipewrite(p, addr, n)`, `n` being the length of `addr`, before byte `i` -/
  | write (addr : List UInt8) (i : Nat)
  /-- in `piperead(p, addr, n)`, in its wait loop -/
  | read (n : Nat)
  deriving DecidableEq

/-- The process is in a call on the write end (`writable`) or on the read end. -/
def At.on : At → Bool → Bool
  | .write _ _, true => true
  | .read _, false => true
  | _, _ => false

/-- The channel of the wait loop a process at `a` may sleep in. -/
def At.loop : At → Option Chan
  | .done _ _ => none
  | .write _ _ => some .nwrite
  | .read _ => some .nread

namespace Pipe

/-- Whether an end is still open: the write end for `writable`, the read end otherwise. -/
def isOpen (p : Pipe) (writable : Bool) : Bool := if writable then p.writeopen else p.readopen

/-- `pipewrite`'s `for` loop under the lock, on the bytes `cs` it has still to store, up to its
wait loop: it stores a byte while the ring is not full. The pipe after it and the number of
bytes stored. -/
def fill (p : Pipe) : List UInt8 → Pipe × Nat
  | [] => (p, 0)
  | c :: cs => if p.full then (p, 0) else ((p.put c).fill cs).map id Nat.succ

/-- `piperead`'s copy loop, which stops after `n` bytes or at an empty ring: the pipe after it
and the bytes copied out. -/
def drain (p : Pipe) : Nat → Pipe × List UInt8
  | 0 => (p, [])
  | n + 1 => if p.empty then (p, []) else (p.take.2.drain n).map id (p.take.1 :: ·)

@[simp] theorem put_readopen (p : Pipe) (c : UInt8) : (p.put c).readopen = p.readopen := rfl
@[simp] theorem put_writeopen (p : Pipe) (c : UInt8) : (p.put c).writeopen = p.writeopen := rfl
@[simp] theorem take_readopen (p : Pipe) : p.take.2.readopen = p.readopen := rfl
@[simp] theorem take_writeopen (p : Pipe) : p.take.2.writeopen = p.writeopen := rfl

theorem fill_cons (p : Pipe) (c : UInt8) (cs : List UInt8) :
    p.fill (c :: cs) = if p.full then (p, 0) else ((p.put c).fill cs).map id Nat.succ := rfl

theorem fill_of_full {p : Pipe} (h : p.full = true) (cs : List UInt8) : p.fill cs = (p, 0) := by
  cases cs with
  | nil => rfl
  | cons c cs => rw [fill_cons, if_pos h]

@[simp] theorem fill_readopen (p : Pipe) (cs : List UInt8) :
    (p.fill cs).1.readopen = p.readopen := by
  induction cs generalizing p with
  | nil => rfl
  | cons c cs ih =>
    rw [fill_cons]
    split
    · rfl
    · simp [ih]

@[simp] theorem fill_writeopen (p : Pipe) (cs : List UInt8) :
    (p.fill cs).1.writeopen = p.writeopen := by
  induction cs generalizing p with
  | nil => rfl
  | cons c cs ih =>
    rw [fill_cons]
    split
    · rfl
    · simp [ih]

/-- The loop stops before the last byte only at a full ring. -/
theorem fill_full (p : Pipe) (cs : List UInt8) (h : (p.fill cs).2 < cs.length) :
    (p.fill cs).1.full = true := by
  induction cs generalizing p with
  | nil => cases h
  | cons c cs ih =>
    rw [fill_cons] at h ⊢
    split
    · assumption
    · next hf =>
      rw [if_neg hf] at h
      exact ih _ (by simpa using h)

theorem drain_succ (p : Pipe) (n : Nat) :
    p.drain (n + 1) = if p.empty then (p, []) else (p.take.2.drain n).map id (p.take.1 :: ·) :=
  rfl

@[simp] theorem drain_readopen (p : Pipe) (n : Nat) : (p.drain n).1.readopen = p.readopen := by
  induction n generalizing p with
  | zero => rfl
  | succ n ih =>
    rw [drain_succ]
    split
    · rfl
    · simp [ih]

@[simp] theorem drain_writeopen (p : Pipe) (n : Nat) :
    (p.drain n).1.writeopen = p.writeopen := by
  induction n generalizing p with
  | zero => rfl
  | succ n ih =>
    rw [drain_succ]
    split
    · rfl
    · simp [ih]

end Pipe

/-! ### The loops on a FIFO ring -/

section Loops

variable {p : Pipe} {stored taken : List UInt8}

/-- `pipewrite`'s loop appends the bytes it stores to the queue. -/
theorem Fifo.fill (h : Fifo p stored taken) (cs : List UInt8) :
    Fifo (p.fill cs).1 (stored ++ cs.take (p.fill cs).2) taken := by
  induction cs generalizing p stored with
  | nil => simpa [Pipe.fill] using h
  | cons c cs ih =>
    rw [Pipe.fill_cons]
    split
    · simpa using h
    · next hf =>
      have h' := ih (h.put (by simpa using hf) c)
      simpa using h'

/-- `piperead`'s loop takes the bytes it copies off the front of the queue. -/
theorem Fifo.drain (h : Fifo p stored taken) (n : Nat) :
    Fifo (p.drain n).1 stored (taken ++ (p.drain n).2) := by
  induction n generalizing p taken with
  | zero => simpa [Pipe.drain] using h
  | succ n ih =>
    rw [Pipe.drain_succ]
    split
    · simpa using h
    · next he =>
      have h' := ih (h.take (by simpa using he))
      simpa using h'

/-- `piperead`'s loop copies out the oldest `n` unread bytes, or all of them if there are
fewer. -/
theorem Fifo.drain_eq (h : Fifo p stored taken) (n : Nat) :
    (p.drain n).2 = (stored.drop taken.length).take n := by
  induction n generalizing p taken with
  | zero => rfl
  | succ n ih =>
    rw [Pipe.drain_succ]
    split
    · next he =>
      -- nothing unread is left
      rw [← h.empty_iff.mp he, List.drop_length]
      rfl
    · next he =>
      have hne : p.empty = false := by simpa using he
      have hfst := h.take_fst hne
      have hlt : taken.length < stored.length := (List.getElem?_eq_some_iff.mp hfst).1
      rw [Prod.map_snd, ih (h.take hne), List.drop_eq_getElem_cons hlt, List.take_succ_cons,
        List.length_append, List.length_singleton]
      congr
      exact (Option.some.inj ((List.getElem?_eq_getElem hlt).symm.trans hfst)).symm

/-- `pipewrite`'s loop stores as many bytes as it has left or as the ring has room for,
whichever is fewer. -/
theorem Fifo.fill_count (h : Fifo p stored taken) (cs : List UInt8) :
    (p.fill cs).2 = min cs.length (taken.length + PIPESIZE - stored.length) := by
  induction cs generalizing p stored with
  | nil => simp [Pipe.fill]
  | cons c cs ih =>
    rw [Pipe.fill_cons]
    split
    · next hf =>
      have := h.full_iff.mp hf
      dsimp only
      omega
    · next hf =>
      have hroom := h.full_iff.not.mp (by simpa using hf)
      have := h.room
      rw [Prod.map_snd, ih (h.put (by simpa using hf) c)]
      simp only [List.length_append, List.length_cons, List.length_nil]
      omega

end Loops

/-! ### The critical sections -/

/-- One critical section of `pipewrite` by a process before byte `i` of `addr`: from
`acquire(&p->lock)`, or from the return of `sleep`, to `release` or the next `sleep`. `killed`
is `myproc()->killed` as the wait loop reads it. -/
def pipewrite (p : Pipe) (addr : List UInt8) (i : Nat) (killed : Bool) :
    Outcome Pipe At Chan :=
  let r := p.fill (addr.drop i)
  if i + r.2 < addr.length then
    -- the ring is full: the wait loop
    if !r.1.readopen || killed then ⟨r.1, .done (-1) [], [], none⟩
    else ⟨r.1, .write addr (i + r.2), [.nread], some .nwrite⟩
  else ⟨r.1, .done addr.length [], [.nread], none⟩

/-- One critical section of `piperead` of at most `n` bytes. -/
def piperead (p : Pipe) (n : Nat) (killed : Bool) : Outcome Pipe At Chan :=
  if p.empty && p.writeopen then
    if killed then ⟨p, .done (-1) [], [], none⟩ else ⟨p, .read n, [], some .nread⟩
  else
    let r := p.drain n
    ⟨r.1, .done r.2.length r.2, [.nwrite], none⟩

/-- The three ways a section of `pipewrite` ends: it returns -1 from the wait loop, it sleeps
there, or it has stored the last byte. -/
theorem pipewrite_cases (p : Pipe) (addr : List UInt8) (i : Nat) (killed : Bool) :
    ((p.fill (addr.drop i)).1.full = true ∧
      ((p.fill (addr.drop i)).1.readopen = false ∨ killed = true) ∧
      pipewrite p addr i killed = ⟨(p.fill (addr.drop i)).1, .done (-1) [], [], none⟩) ∨
    ((p.fill (addr.drop i)).1.full = true ∧ (p.fill (addr.drop i)).1.readopen = true ∧
      killed = false ∧
      pipewrite p addr i killed = ⟨(p.fill (addr.drop i)).1,
        .write addr (i + (p.fill (addr.drop i)).2), [.nread], some .nwrite⟩) ∨
    (addr.length ≤ i + (p.fill (addr.drop i)).2 ∧
      pipewrite p addr i killed = ⟨(p.fill (addr.drop i)).1, .done addr.length [], [.nread], none⟩) := by
  dsimp only [pipewrite]
  split
  · next hlt =>
    have hfull : (p.fill (addr.drop i)).1.full = true :=
      Pipe.fill_full _ _ (by rw [List.length_drop]; omega)
    split
    · next hq =>
      refine .inl ⟨hfull, ?_, rfl⟩
      simpa using hq
    · next hq =>
      simp only [Bool.or_eq_true, Bool.not_eq_eq_eq_not, Bool.not_true, not_or,
        Bool.not_eq_true] at hq
      exact .inr (.inl ⟨hfull, by simpa using hq.1, hq.2, rfl⟩)
  · next hge => exact .inr (.inr ⟨by omega, rfl⟩)

/-- The three ways a section of `piperead` ends: it returns -1 or sleeps in the wait loop, or it
copies out what it can and returns. -/
theorem piperead_cases (p : Pipe) (n : Nat) (killed : Bool) :
    (p.empty = true ∧ p.writeopen = true ∧ killed = true ∧
      piperead p n killed = ⟨p, .done (-1) [], [], none⟩) ∨
    (p.empty = true ∧ p.writeopen = true ∧ killed = false ∧
      piperead p n killed = ⟨p, .read n, [], some .nread⟩) ∨
    ((p.empty = false ∨ p.writeopen = false) ∧
      piperead p n killed = ⟨(p.drain n).1, .done (p.drain n).2.length (p.drain n).2, [.nwrite],
        none⟩) := by
  unfold piperead
  split
  · next hw =>
    simp only [Bool.and_eq_true] at hw
    split
    · next hk => exact .inl ⟨hw.1, hw.2, hk, rfl⟩
    · next hk => exact .inr (.inl ⟨hw.1, hw.2, by simpa using hk, rfl⟩)
  · next hw =>
    simp only [Bool.and_eq_true, not_and, Bool.not_eq_true] at hw
    refine .inr (.inr ⟨?_, rfl⟩)
    cases he : p.empty
    · exact .inl rfl
    · exact .inr (hw he)

/-! ### Processes on a pipe -/

/-- Processes `ι` working on one pipe, with their `killed` flags. -/
structure Procs (ι : Type) extends Sys ι Pipe At Chan where
  killed : ι → Bool

variable {ι : Type}

/-- The pipe `pipealloc` returns, before any call on it. -/
def Procs.init (junk : Fin PIPESIZE → UInt8) : Procs ι :=
  ⟨⟨Pipe.fresh junk, fun _ => .done 0 [], fun _ => none⟩, fun _ => false⟩

/-- `pipeclose` of one end, run by a process outside the pipe code. -/
def Procs.close (s : Procs ι) (writable : Bool) : Procs ι :=
  { s with toSys := s.toSys.signal (pipeclose s.shared writable) [closeChan writable] }

section Steps

variable [DecidableEq ι]

/-- Process `i` runs a critical section. -/
def Procs.exec (s : Procs ι) (i : ι) (o : Outcome Pipe At Chan) : Procs ι :=
  { s with toSys := s.toSys.exec i o }

/-- Process `i` enters the pipe code at `a`. -/
def Procs.call (s : Procs ι) (i : ι) (a : At) : Procs ι :=
  { s with toSys := s.toSys.goto i a }

/-- `kill` of process `i`: `p->killed = 1`, and a sleeping process becomes runnable. -/
def Procs.kill (s : Procs ι) (i : ι) : Procs ι :=
  ⟨s.toSys.wake i, Function.update s.killed i true⟩

namespace Procs

/-- One step: a process enters `pipewrite` or `piperead`, a critical section of a process in
the pipe code that is not asleep, `pipeclose`, or `kill`. A process enters the pipe code only
if it has not been killed, since `trap` makes a killed process exit before its next system
call, and with the end it calls on open. -/
inductive Step : Procs ι → Procs ι → Prop
  | callWrite (s : Procs ι) (i : ι) (addr : List UInt8) {r : Int} {got : List UInt8}
      (hout : s.pc i = .done r got) (hk : s.killed i = false) (hw : s.shared.writeopen = true) :
      Step s (s.call i (.write addr 0))
  | callRead (s : Procs ι) (i : ι) (n : Nat) {r : Int} {got : List UInt8}
      (hout : s.pc i = .done r got) (hk : s.killed i = false) (hr : s.shared.readopen = true) :
      Step s (s.call i (.read n))
  | pipewrite (s : Procs ι) (i : ι) {addr : List UInt8} {j : Nat} (h : s.pc i = .write addr j)
      (hrun : s.chan i = none) :
      Step s (s.exec i (pipewrite s.shared addr j (s.killed i)))
  | piperead (s : Procs ι) (i : ι) {n : Nat} (h : s.pc i = .read n) (hrun : s.chan i = none) :
      Step s (s.exec i (piperead s.shared n (s.killed i)))
  | pipeclose (s : Procs ι) (writable : Bool) (hopen : s.shared.isOpen writable = true)
      (hidle : ∀ i, (s.pc i).on writable = false) :
      Step s (s.close writable)
  | kill (s : Procs ι) (i : ι) : Step s (s.kill i)

/-- The states reachable from a fresh pipe. -/
def Reach (junk : Fin PIPESIZE → UInt8) (s : Procs ι) : Prop :=
  Relation.ReflTransGen Step (Procs.init junk) s

end Procs

end Steps

/-! ### Why processes sleep -/

/-- Why a process sleeps on a pipe, by `piperead`'s and `pipewrite`'s wait loops: a reader
while the ring is empty and the write end open, a writer while the ring is full and the read
end open. -/
def Waits (p : Pipe) : Chan → Prop
  | .nread => p.empty = true ∧ p.writeopen = true
  | .nwrite => p.full = true ∧ p.readopen = true

/-- The reason of writers alone. -/
def WriterWaits (p : Pipe) (c : Chan) : Prop := c = .nwrite → Waits p c

/-! ### What each section does -/

section Sections

variable (p : Pipe) (addr : List UInt8) (j n : Nat) (killed : Bool)

theorem pipewrite_shared : (pipewrite p addr j killed).shared = (p.fill (addr.drop j)).1 := by
  rcases pipewrite_cases p addr j killed with ⟨-, -, h⟩ | ⟨-, -, -, h⟩ | ⟨-, h⟩ <;> rw [h]

theorem Pipe.isOpen_fill (cs : List UInt8) (w : Bool) : (p.fill cs).1.isOpen w = p.isOpen w := by
  cases w <;> simp [Pipe.isOpen]

theorem Pipe.isOpen_drain (w : Bool) : (p.drain n).1.isOpen w = p.isOpen w := by
  cases w <;> simp [Pipe.isOpen]

theorem pipewrite_isOpen (w : Bool) : (pipewrite p addr j killed).shared.isOpen w = p.isOpen w := by
  rw [pipewrite_shared, Pipe.isOpen_fill]

theorem piperead_isOpen (w : Bool) : (piperead p n killed).shared.isOpen w = p.isOpen w := by
  rcases piperead_cases p n killed with ⟨-, -, -, h⟩ | ⟨-, -, -, h⟩ | ⟨-, h⟩ <;> rw [h]
  exact Pipe.isOpen_drain p n w

/-- After a section of `pipewrite` its process is in no call, or still in `pipewrite`. -/
theorem pipewrite_on {w : Bool} (h : (pipewrite p addr j killed).pc.on w = true) : w = true := by
  rcases pipewrite_cases p addr j killed with ⟨-, -, h'⟩ | ⟨-, -, -, h'⟩ | ⟨-, h'⟩ <;>
    rw [h'] at h <;> cases w <;> simp_all [At.on]

theorem piperead_on {w : Bool} (h : (piperead p n killed).pc.on w = true) : w = false := by
  rcases piperead_cases p n killed with ⟨-, -, -, h'⟩ | ⟨-, -, -, h'⟩ | ⟨-, h'⟩ <;>
    rw [h'] at h <;> cases w <;> simp_all [At.on]

/-- A section sleeps only in the wait loop of the channel it sleeps on. -/
theorem pipewrite_loop (c : Chan) (h : (pipewrite p addr j killed).sleep = some c) :
    (pipewrite p addr j killed).pc.loop = some c := by
  rcases pipewrite_cases p addr j killed with ⟨-, -, h'⟩ | ⟨-, -, -, h'⟩ | ⟨-, h'⟩ <;>
    rw [h'] at h ⊢ <;> simp_all [At.loop]

theorem piperead_loop (c : Chan) (h : (piperead p n killed).sleep = some c) :
    (piperead p n killed).pc.loop = some c := by
  rcases piperead_cases p n killed with ⟨-, -, -, h'⟩ | ⟨-, -, -, h'⟩ | ⟨-, h'⟩ <;>
    rw [h'] at h ⊢ <;> simp_all [At.loop]

theorem Fifo.pipewrite {stored taken : List UInt8} (h : Fifo p stored taken) :
    ∃ stored', Fifo (pipewrite p addr j killed).shared stored' taken :=
  ⟨_, pipewrite_shared p addr j killed ▸ h.fill (addr.drop j)⟩

theorem Fifo.piperead {stored taken : List UInt8} (h : Fifo p stored taken) :
    ∃ taken', Fifo (piperead p n killed).shared stored taken' := by
  rcases piperead_cases p n killed with ⟨-, -, -, h'⟩ | ⟨-, -, -, h'⟩ | ⟨-, h'⟩ <;> rw [h']
  · exact ⟨taken, h⟩
  · exact ⟨taken, h⟩
  · exact ⟨_, h.drain n⟩

/-- A writer's section leaves a full ring with the read end open as it was: it stores nothing
into a full ring. -/
theorem pipewrite_waits_nwrite (hP : Waits p .nwrite) :
    Waits (pipewrite p addr j killed).shared .nwrite := by
  rw [pipewrite_shared, Pipe.fill_of_full hP.1]
  exact hP

/-- A writer's section sleeps only on a full ring with the read end open. -/
theorem pipewrite_sleep_waits (c : Chan) (h : (pipewrite p addr j killed).sleep = some c) :
    Waits (pipewrite p addr j killed).shared c := by
  rcases pipewrite_cases p addr j killed with ⟨-, -, h'⟩ | ⟨hf, hr, -, h'⟩ | ⟨-, h'⟩ <;>
    rw [h'] at h ⊢ <;> simp at h
  subst h
  exact ⟨hf, hr⟩

/-- A writer that has not been killed wakes the readers, unless the read end is closed. -/
theorem pipewrite_wakes_nread (hk : killed = false) (hr : p.readopen = true) :
    .nread ∈ (pipewrite p addr j killed).wakes := by
  rcases pipewrite_cases p addr j killed with ⟨-, hq, -⟩ | ⟨-, -, -, h'⟩ | ⟨-, h'⟩
  · rw [Pipe.fill_readopen, hr, hk] at hq
    simp at hq
  all_goals rw [h']; exact List.mem_singleton_self _

end Sections

section Respects

variable (s : Sys ι Pipe At Chan)

/-- Every section of `piperead` keeps the reasons of both channels. -/
theorem piperead_respects (n : Nat) (killed : Bool) :
    Sys.Respects Waits s (piperead s.shared n killed) := by
  rcases piperead_cases s.shared n killed with ⟨-, -, -, h⟩ | ⟨he, hw, -, h⟩ | ⟨hne, h⟩ <;>
    rw [h]
  · exact ⟨fun _ _ _ hP => hP, fun _ hc => by cases hc⟩
  · exact ⟨fun _ _ _ hP => hP, fun c hc => by cases hc; exact ⟨he, hw⟩⟩
  · refine ⟨fun c hc _ hP => ?_, fun _ hc => by cases hc⟩
    cases c with
    | nread =>
      -- the section did not wait: the ring was not empty or the write end was closed
      exfalso
      rcases hne with h' | h' <;> simp [Waits, h'] at hP
    | nwrite => simp at hc

/-- A section of `pipewrite` keeps the writers' reason. -/
theorem pipewrite_respects_writers (addr : List UInt8) (j : Nat) (killed : Bool) :
    Sys.Respects WriterWaits s (pipewrite s.shared addr j killed) where
  keep c _ _ hP hc := by
    subst hc
    exact pipewrite_waits_nwrite _ _ _ _ (hP rfl)
  sleep c hc _ := pipewrite_sleep_waits _ _ _ _ c hc

/-- A section of `pipewrite` whose process has not been killed keeps the readers' reason too,
when the readers asleep hold the read end open. -/
theorem pipewrite_respects (addr : List UInt8) (j : Nat) {killed : Bool} (hk : killed = false)
    (hread : ∀ r, s.chan r = some .nread → s.shared.readopen = true) :
    Sys.Respects Waits s (pipewrite s.shared addr j killed) where
  keep c hc hs hP := by
    cases c with
    | nread =>
      obtain ⟨r, hr⟩ := hs
      exact absurd (pipewrite_wakes_nread _ _ _ _ hk (hread r hr)) hc
    | nwrite => exact pipewrite_waits_nwrite _ _ _ _ hP
  sleep := pipewrite_sleep_waits _ _ _ _

end Respects

namespace Procs

/-- What holds in every reachable state: the ring is a FIFO queue, every sleeper is in the wait
loop of its channel, a call in progress holds its end open, and no writer misses a wakeup. -/
structure Inv (s : Procs ι) : Prop where
  fifo : ∃ stored taken, Fifo s.shared stored taken
  inLoop : s.toSys.InLoop At.loop
  held : ∀ i w, (s.pc i).on w = true → s.shared.isOpen w = true
  writers : s.toSys.Covered WriterWaits

section Ops

variable (s : Procs ι) (i : ι)

@[simp] theorem close_toSys (w : Bool) :
    (s.close w).toSys = s.toSys.signal (pipeclose s.shared w) [closeChan w] := rfl
@[simp] theorem close_killed (w : Bool) : (s.close w).killed = s.killed := rfl

variable [DecidableEq ι]

@[simp] theorem exec_toSys (o : Outcome Pipe At Chan) : (s.exec i o).toSys = s.toSys.exec i o :=
  rfl
@[simp] theorem exec_killed (o : Outcome Pipe At Chan) : (s.exec i o).killed = s.killed := rfl
@[simp] theorem call_toSys (a : At) : (s.call i a).toSys = s.toSys.goto i a := rfl
@[simp] theorem call_killed (a : At) : (s.call i a).killed = s.killed := rfl
@[simp] theorem kill_toSys : (s.kill i).toSys = s.toSys.wake i := rfl
@[simp] theorem kill_killed : (s.kill i).killed = Function.update s.killed i true := rfl

end Ops

variable {s s' : Procs ι}

/-- A sleeper on `&p->nread` is in `piperead`, so the read end is open. -/
theorem Inv.readopen (h : Inv s) {r : ι} (hr : s.chan r = some .nread) :
    s.shared.readopen = true := by
  have hl := h.inLoop r _ hr
  cases hpc : s.pc r with
  | done => rw [hpc] at hl; cases hl
  | write => rw [hpc] at hl; cases hl
  | read n => exact h.held r false (by rw [hpc]; rfl)

/-- `pipeclose` keeps every reason but the one of the channel it wakes, when no call on the end
it closes is in progress. -/
theorem close_keep (h : Inv s) {w : Bool} (hidle : ∀ i, (s.pc i).on w = false) (c : Chan)
    (hc : c ∉ [closeChan w]) (hs : ∃ j, s.chan j = some c) (hP : Waits s.shared c) :
    Waits (pipeclose s.shared w) c := by
  cases w <;> cases c
  · -- closing the read end: no reader is in `piperead`, so none sleeps
    obtain ⟨j, hj⟩ := hs
    have hl := h.inLoop j _ hj
    have hj' := hidle j
    cases hpc : s.pc j <;> rw [hpc] at hl hj' <;> cases hl
    cases hj'
  · simp [closeChan] at hc
  · simp [closeChan] at hc
  · simpa [pipeclose, Waits, Pipe.full] using hP

theorem Inv.close (h : Inv s) {w : Bool} (hidle : ∀ i, (s.pc i).on w = false) :
    Inv (s.close w) where
  fifo := by
    obtain ⟨stored, taken, hf⟩ := h.fifo
    exact ⟨stored, taken, hf.pipeclose w⟩
  inLoop := h.inLoop.signal _ _
  held j w' hj := by
    simp only [close_toSys, Sys.signal_pc, Sys.signal_shared] at hj ⊢
    have := h.held j w' hj
    cases w <;> cases w' <;> simp_all [Pipe.isOpen, pipeclose]
  writers := h.writers.signal fun c hc hs hP hw => close_keep h hidle c hc hs (hP hw)

theorem Inv.init (junk : Fin PIPESIZE → UInt8) : Inv (Procs.init junk : Procs ι) where
  fifo := ⟨[], [], fifo_fresh junk⟩
  inLoop i c h := by cases h
  held i w h := by cases w <;> cases h
  writers := covered_none _

variable [DecidableEq ι]

theorem Inv.exec (h : Inv s) (i : ι) {o : Outcome Pipe At Chan}
    (hfifo : ∃ stored taken, Fifo o.shared stored taken)
    (hopen : ∀ w, o.shared.isOpen w = s.shared.isOpen w)
    (hon : ∀ w, o.pc.on w = true → s.shared.isOpen w = true)
    (hloop : ∀ c, o.sleep = some c → o.pc.loop = some c)
    (hwr : Sys.Respects WriterWaits s.toSys o) : Inv (s.exec i o) where
  fifo := hfifo
  inLoop := h.inLoop.exec hloop i
  held j w hj := by
    simp only [exec_toSys, Sys.exec_pc, Sys.exec_shared] at hj ⊢
    rw [hopen]
    by_cases hji : j = i
    · subst hji
      rw [Function.update_self] at hj
      exact hon w hj
    · rw [Function.update_of_ne hji] at hj
      exact h.held j w hj
  writers := h.writers.exec hwr i

theorem Inv.pipewrite (h : Inv s) {i : ι} {addr : List UInt8} {j : Nat}
    (hi : s.pc i = .write addr j) (killed : Bool) :
    Inv (s.exec i (Pipes.pipewrite s.shared addr j killed)) := by
  obtain ⟨stored, taken, hf⟩ := h.fifo
  obtain ⟨stored', hf'⟩ := hf.pipewrite _ addr j killed
  refine h.exec i ⟨stored', taken, hf'⟩ (pipewrite_isOpen _ _ _ _) (fun w hw => ?_)
    (pipewrite_loop _ _ _ _)
    (pipewrite_respects_writers _ _ _ _)
  obtain rfl := pipewrite_on _ _ _ _ hw
  exact h.held i true (by rw [hi]; rfl)

theorem Inv.piperead (h : Inv s) {i : ι} {n : Nat} (hi : s.pc i = .read n) (killed : Bool) :
    Inv (s.exec i (Pipes.piperead s.shared n killed)) := by
  obtain ⟨stored, taken, hf⟩ := h.fifo
  refine h.exec i ⟨stored, hf.piperead _ _ _⟩ (piperead_isOpen _ _ _) (fun w hw => ?_)
    (piperead_loop _ _ _) ((piperead_respects _ _ _).restrict _)
  obtain rfl := piperead_on _ _ _ hw
  exact h.held i false (by rw [hi]; rfl)

theorem Inv.call (h : Inv s) {i : ι} {r : Int} {got : List UInt8} (hi : s.pc i = .done r got)
    (a : At) (ha : ∀ w, a.on w = true → s.shared.isOpen w = true) : Inv (s.call i a) where
  fifo := h.fifo
  inLoop := h.inLoop.goto (by rw [hi]; rfl) a
  held j w hj := by
    simp only [call_toSys, Sys.goto_pc, Sys.goto_shared] at hj ⊢
    by_cases hji : j = i
    · subst hji
      rw [Function.update_self] at hj
      exact ha w hj
    · rw [Function.update_of_ne hji] at hj
      exact h.held j w hj
  writers := h.writers.goto i a

theorem Inv.kill (h : Inv s) (i : ι) : Inv (s.kill i) where
  fifo := h.fifo
  inLoop := h.inLoop.wake i
  held := h.held
  writers := h.writers.wake i

theorem Inv.step (h : Inv s) (hs : Step s s') : Inv s' := by
  cases hs with
  | callWrite i addr hout _ hw =>
    exact h.call hout _ fun w hw' => by cases w <;> simp_all [At.on, Pipe.isOpen]
  | callRead i n hout _ hr =>
    exact h.call hout _ fun w hw' => by cases w <;> simp_all [At.on, Pipe.isOpen]
  | pipewrite i hi _ => exact h.pipewrite hi _
  | piperead i hi _ => exact h.piperead hi _
  | pipeclose w _ hidle => exact h.close hidle
  | kill i => exact h.kill i

theorem inv_of_reach {junk : Fin PIPESIZE → UInt8} (h : Reach junk s) : Inv s := by
  induction h with
  | refl => exact Inv.init junk
  | tail _ hs ih => exact ih.step hs

/-- Only `kill` sets a `killed` flag. -/
theorem Step.quiet (hs : Step s s') (hq : ∀ i, s'.killed i = false) (i : ι) :
    s.killed i = false := by
  cases hs with
  | kill k =>
    have := hq k
    simp at this
  | _ => exact hq i

/-- Without a killed process, every step keeps the readers' reason as well. -/
theorem covered_step (hs : Step s s') (h : Inv s) (hc : s.toSys.Covered Waits)
    (hq : ∀ i, s'.killed i = false) : s'.toSys.Covered Waits := by
  cases hs with
  | callWrite i addr _ _ _ => exact hc.goto i _
  | callRead i n _ _ _ => exact hc.goto i _
  | pipewrite i _ _ =>
    exact hc.exec (pipewrite_respects _ _ _ (hq i) fun r hr => h.readopen hr) i
  | piperead i _ _ => exact hc.exec (piperead_respects _ _ _) i
  | pipeclose w _ hidle => exact hc.signal (close_keep h hidle)
  | kill i => exact hc.wake i

theorem covered_of_reach {junk : Fin PIPESIZE → UInt8} (h : Reach junk s)
    (hq : ∀ i, s.killed i = false) : s.toSys.Covered Waits := by
  induction h with
  | refl => exact covered_none _
  | tail hr hs ih => exact covered_step hs (inv_of_reach hr) (ih (hs.quiet hq)) hq

/-! ### Lost wakeups -/

/-- In every reachable state, every process asleep in `pipewrite` finds the ring full and the
read end open; and as long as no process has been killed, every process asleep in `piperead`
finds the ring empty and the write end open. -/
theorem pipe_sleepers_wait {junk : Fin PIPESIZE → UInt8} (h : Reach junk s) :
    (∀ i, s.chan i = some .nwrite → s.shared.full = true ∧ s.shared.readopen = true) ∧
    ((∀ i, s.killed i = false) →
      ∀ i, s.chan i = some .nread → s.shared.empty = true ∧ s.shared.writeopen = true) :=
  ⟨fun i hi => (inv_of_reach h).writers i _ hi rfl, fun hq i hi => covered_of_reach h hq i _ hi⟩

/-- A reader asleep on a fresh pipe, and a writer of 513 bytes that has entered `pipewrite`. -/
def readerAsleep : Procs (Fin 2) :=
  (((Procs.init fun _ => 0).call 0 (.read 1)).exec 0
    (Pipes.piperead (Pipe.fresh fun _ => 0) 1 false)).call 1 (.write (List.replicate 513 7) 0)

theorem readerAsleep_reach : Reach (fun _ => 0) readerAsleep := by
  have h1 := (Relation.ReflTransGen.refl (r := Step) (a := Procs.init (ι := Fin 2) fun _ => 0)).tail
    (Step.callRead _ 0 1 rfl rfl rfl)
  have h2 := h1.tail (Step.piperead _ 0 (n := 1) rfl rfl)
  exact h2.tail (Step.callWrite _ 1 (List.replicate 513 7) rfl rfl rfl)

theorem pipe_sleepers_wait_readerAsleep :
    (∀ i, readerAsleep.chan i = some .nwrite →
      readerAsleep.shared.full = true ∧ readerAsleep.shared.readopen = true) ∧
    ((∀ i, readerAsleep.killed i = false) → ∀ i, readerAsleep.chan i = some .nread →
      readerAsleep.shared.empty = true ∧ readerAsleep.shared.writeopen = true) :=
  pipe_sleepers_wait readerAsleep_reach

/-- Without a killed process, no reader sleeps on a pipe while a writer does. -/
theorem pipe_sides_never_both_asleep {junk : Fin PIPESIZE → UInt8} (h : Reach junk s)
    (hq : ∀ i, s.killed i = false) {r w : ι} (hr : s.chan r = some .nread) :
    s.chan w ≠ some .nwrite := by
  intro hw
  obtain ⟨stored, taken, hf⟩ := (inv_of_reach h).fifo
  have hempty := hf.empty_iff.mp (covered_of_reach h hq r _ hr).1
  have hfull := hf.full_iff.mp ((inv_of_reach h).writers w _ hw rfl).1
  unfold PIPESIZE at hfull
  omega

theorem pipe_sides_never_both_asleep_readerAsleep :
    (∀ i, readerAsleep.killed i = false) ∧ readerAsleep.chan 0 = some .nread ∧
      readerAsleep.chan 1 ≠ some .nwrite :=
  ⟨by decide, rfl, pipe_sides_never_both_asleep readerAsleep_reach (by decide) (r := 0) rfl⟩

/-- `pipewrite` returns -1 from its wait loop, when its process has been killed, without
`wakeup(&p->nread)`: a killed writer with more bytes to store than the ring has room for fills
the ring and returns, and a reader asleep on the pipe stays asleep though the ring is full. -/
theorem killed_pipewrite_strands_reader {junk : Fin PIPESIZE → UInt8} (h : Reach junk s)
    {i r : ι} {addr : List UInt8} {j : Nat} (hi : s.pc i = .write addr j)
    (hrun : s.chan i = none) (hk : s.killed i = true) (hr : s.chan r = some .nread)
    (hmore : PIPESIZE - (s.shared.nwrite - s.shared.nread).toNat < addr.length - j) :
    Step s (s.exec i (pipewrite s.shared addr j (s.killed i))) ∧
      (s.exec i (pipewrite s.shared addr j (s.killed i))).chan r = some .nread ∧
      (s.exec i (pipewrite s.shared addr j (s.killed i))).shared.full = true ∧
      (s.exec i (pipewrite s.shared addr j (s.killed i))).shared.empty = false := by
  obtain ⟨stored, taken, hf⟩ := (inv_of_reach h).fifo
  -- the writer has more bytes left than the ring has room for: its loop stops at a full ring
  have hroom : taken.length + PIPESIZE - stored.length =
      PIPESIZE - (s.shared.nwrite - s.shared.nread).toNat := by
    rw [hf.count_toNat]
    have := hf.taken_le
    have := hf.room
    omega
  have hlt : (s.shared.fill (addr.drop j)).2 < (addr.drop j).length := by
    rw [hf.fill_count, List.length_drop]
    omega
  have hfull := Pipe.fill_full _ _ hlt
  -- so it leaves by `return -1`, and wakes nobody
  have ho : pipewrite s.shared addr j (s.killed i) =
      ⟨(s.shared.fill (addr.drop j)).1, .done (-1) [], [], none⟩ := by
    rcases pipewrite_cases s.shared addr j (s.killed i) with ⟨-, -, h'⟩ | ⟨-, -, hk', -⟩ | ⟨hge, -⟩
    · exact h'
    · rw [hk] at hk'
      cases hk'
    · rw [List.length_drop] at hlt
      omega
  have hri : r ≠ i := by
    rintro rfl
    rw [hrun] at hr
    cases hr
  have hf' := hf.fill (addr.drop j)
  refine ⟨Step.pipewrite s i hi hrun, ?_, ?_, ?_⟩
  · rw [ho]
    exact Sys.exec_chan_eq_some.mpr (.inr ⟨hri, hr, List.not_mem_nil⟩)
  · rw [ho]
    exact hfull
  · rw [ho]
    show (s.shared.fill (addr.drop j)).1.empty = false
    have hs := hf'.full_iff.mp hfull
    cases he : (s.shared.fill (addr.drop j)).1.empty
    · rfl
    · have := hf'.empty_iff.mp he
      unfold PIPESIZE at hs
      omega

/-- `readerAsleep` once the writer has been killed. -/
def strandedReader : Procs (Fin 2) := readerAsleep.kill 1

theorem killed_pipewrite_strands_reader_run :
    Step strandedReader (strandedReader.exec 1
        (pipewrite strandedReader.shared (List.replicate 513 7) 0 (strandedReader.killed 1))) ∧
      (strandedReader.exec 1 (pipewrite strandedReader.shared (List.replicate 513 7) 0
        (strandedReader.killed 1))).chan 0 = some .nread ∧
      (strandedReader.exec 1 (pipewrite strandedReader.shared (List.replicate 513 7) 0
        (strandedReader.killed 1))).shared.full = true ∧
      (strandedReader.exec 1 (pipewrite strandedReader.shared (List.replicate 513 7) 0
        (strandedReader.killed 1))).shared.empty = false :=
  killed_pipewrite_strands_reader (readerAsleep_reach.tail (Step.kill _ 1)) rfl rfl rfl
    (by decide) (by rw [List.length_replicate]; decide)

end Procs

end Xv6.Pipes
