import Xv6.Param
import Mathlib.Data.List.Nodup

/-!
# The IDE driver

`ide.c` keeps the requests in `idequeue`, the one at its head the request the disk is working
on: `iderw` appends a request and starts the disk when the queue was empty, and `ideintr`,
run when the disk finishes, completes the head request and starts the next. The model has the
buffers the requests name, the queue, the command the disk was given, the disk's data
register, and the disk's blocks; one block is one sector. The caller of `iderw` holds the
buffer's sleep-lock until the request completes, so a buffer is queued at most once and nobody
changes a queued buffer.

`ideintr` marks the head request's buffer valid even when `idewait(1)` finds the disk's error
bits set, and then it has not copied the sector in (`ideintr_error_marks_valid`). With a disk
that reports no error, the driver refines the synchronous `iderw` of `memide.c`: the requests
complete in the order they were made (`Run.fifo`), and the buffers and the disk are those that
`memide.c` computes for the same requests in that order (`ide_refines_memide`).
-/

namespace Xv6.Ide

/-- `B_VALID`, `B_DIRTY`, the block number and the data of a `struct buf` (on device 1). -/
structure Buf where
  valid : Bool
  dirty : Bool
  blockno : Nat
  data : Block

/-- The command `idestart` gives the disk: read a sector, or write the data `outsl` sent. -/
inductive Cmd where
  | read (sector : Nat)
  | write (sector : Nat) (data : Block)

/-- The driver's state over buffers named by `ι`: the buffers, `idequeue`, the command the disk
is carrying out, its data register and its blocks. -/
structure Driver (ι : Type) where
  bufs : ι → Buf
  idequeue : List ι
  cmd : Option Cmd
  dataReg : Block
  disk : Nat → Block

variable {ι : Type} [DecidableEq ι]

namespace Driver

/-- The command `idestart` issues for a buffer: a write when it is dirty. -/
def cmdOf (buf : Buf) : Cmd := if buf.dirty then .write buf.blockno buf.data else .read buf.blockno

/-- `idestart(b)`. A block is one sector, so the command names sector `blockno`. -/
def idestart (s : Driver ι) (b : ι) : Except String (Driver ι) :=
  if (s.bufs b).blockno ≥ FSSIZE then .error "incorrect blockno"
  else .ok { s with cmd := some (cmdOf (s.bufs b)) }

omit [DecidableEq ι] in
theorem idestart_eq {s t : Driver ι} {b : ι} (h : s.idestart b = .ok t) :
    t = { s with cmd := some (cmdOf (s.bufs b)) } ∧ (s.bufs b).blockno < FSSIZE := by
  unfold idestart at h
  split_ifs at h with hb
  cases h
  exact ⟨rfl, Nat.lt_of_not_le hb⟩

/-- `iderw(b)` up to its sleep: `b` appended to `idequeue`, and the disk started when `b` is
then at its head. -/
def iderw (s : Driver ι) (b : ι) : Except String (Driver ι) :=
  if (s.bufs b).valid && !(s.bufs b).dirty then .error "iderw: nothing to do"
  else
    let s := { s with idequeue := s.idequeue ++ [b] }
    if s.idequeue.head? = some b then s.idestart b else .ok s

/-- The disk carries out its command: a write stores the data in the sector, a read puts the
sector in the data register. -/
def complete (s : Driver ι) : Driver ι :=
  match s.cmd with
  | none => s
  | some (.read sec) => { s with dataReg := s.disk sec, cmd := none }
  | some (.write sec data) => { s with disk := Function.update s.disk sec data, cmd := none }

/-- The buffer of a completed request: `insl` copies the data register into a read's buffer
when `idewait(1)` finds no error (`err`: `IDE_ERR` or `IDE_DF` set), and the buffer is marked
valid and clean either way. -/
def finish (s : Driver ι) (b : ι) (err : Bool) : Buf :=
  let buf := s.bufs b
  let buf := if !buf.dirty && !err then { buf with data := s.dataReg } else buf
  { buf with valid := true, dirty := false }

/-- `ideintr()`: the head request completes and the next one is started. -/
def ideintr (s : Driver ι) (err : Bool) : Except String (Driver ι) :=
  match s.idequeue with
  | [] => .ok s
  | b :: rest =>
    let s := { s with bufs := Function.update s.bufs b (s.finish b err), idequeue := rest }
    match rest with
    | [] => .ok s
    | next :: _ => s.idestart next

omit [DecidableEq ι] in
theorem finish_error (s : Driver ι) (b : ι) :
    s.finish b true = { s.bufs b with valid := true, dirty := false } := by
  simp only [finish, Bool.not_true, Bool.and_false, Bool.false_eq_true, if_false]

/-- `ideintr` with `b` at the head of the queue: `b`'s buffer finished, the queue popped, and
the next request, if any, started. -/
theorem ideintr_eq {t s' : Driver ι} {b : ι} {err : Bool} {rest : List ι} (hq : t.idequeue = b :: rest)
    (h : t.ideintr err = .ok s') :
    s'.bufs = Function.update t.bufs b (t.finish b err) ∧ s'.disk = t.disk ∧ s'.idequeue = rest ∧
      (rest = [] → s'.cmd = t.cmd) ∧
      (∀ c, rest.head? = some c → s'.cmd = some (cmdOf (s'.bufs c)) ∧ (s'.bufs c).blockno < FSSIZE) := by
  rw [ideintr, hq] at h
  cases rest with
  | nil =>
    cases h
    exact ⟨rfl, rfl, rfl, fun _ => rfl, fun c hc => by cases hc⟩
  | cons next rest =>
    obtain ⟨rfl, hlt⟩ := idestart_eq h
    refine ⟨rfl, rfl, rfl, nofun, fun c hc => ?_⟩
    cases hc
    exact ⟨rfl, hlt⟩

end Driver

/-! ### A failed read -/

/-- When `idewait(1)` reports an error, `ideintr` marks the head request's buffer valid and clean
and leaves its data as it was: for a read, the sector was never copied in. -/
theorem ideintr_error_marks_valid {s s' : Driver ι} {b : ι} {rest : List ι} (hq : s.idequeue = b :: rest)
    (h : s.ideintr true = .ok s') :
    s'.bufs b = { s.bufs b with valid := true, dirty := false } := by
  rw [(Driver.ideintr_eq hq h).1, Function.update_self, Driver.finish_error]

/-- A read of block 5 into a buffer holding `0xEE` bytes, the only request, on a disk whose
block 5 is zeros. -/
def staleRead : Driver Unit :=
  ⟨fun _ => ⟨false, false, 5, fun _ => 0xEE⟩, [()], some (.read 5), fun _ => 0, fun _ _ => 0⟩

/-- The disk reports an error for that read: `ideintr` leaves the buffer valid, clean and
holding its `0xEE` bytes, while block 5 holds zeros. -/
theorem failed_read_valid :
    ∃ s', staleRead.complete.ideintr true = .ok s' ∧
      s'.bufs () = ⟨true, false, 5, fun _ => 0xEE⟩ ∧ s'.disk 5 = fun _ => 0 := by
  obtain ⟨s', hs'⟩ : ∃ s', staleRead.complete.ideintr true = .ok s' := ⟨_, rfl⟩
  refine ⟨s', hs', ideintr_error_marks_valid (show staleRead.complete.idequeue = [()] from rfl) hs', ?_⟩
  cases Except.ok.inj hs'
  rfl

/-! ### `memide.c` -/

/-- The synchronous driver of `memide.c`: the buffers and the disk image in memory. -/
structure MemDisk (ι : Type) where
  bufs : ι → Buf
  disk : Nat → Block

/-- `iderw(b)` of `memide.c`, on the image of `FSSIZE` blocks `mkfs` writes: a dirty buffer is
written and cleaned, an invalid one read; either way it is then valid. -/
def MemDisk.iderw (m : MemDisk ι) (b : ι) : Except String (MemDisk ι) :=
  let buf := m.bufs b
  if buf.valid && !buf.dirty then .error "iderw: nothing to do"
  else if buf.blockno ≥ FSSIZE then .error "iderw: block out of range"
  else if buf.dirty then
    .ok ⟨Function.update m.bufs b { buf with dirty := false, valid := true },
      Function.update m.disk buf.blockno buf.data⟩
  else .ok ⟨Function.update m.bufs b { buf with data := m.disk buf.blockno, valid := true }, m.disk⟩

/-- The holder of `b`'s sleep-lock changes the buffer. -/
def MemDisk.modify (m : MemDisk ι) (b : ι) (buf : Buf) : MemDisk ι :=
  ⟨Function.update m.bufs b buf, m.disk⟩

/-- `iderw(b)` does not look at another buffer, so a change to that buffer commutes with it. -/
theorem MemDisk.iderw_modify (m : MemDisk ι) {b c : ι} (buf : Buf) (hne : b ≠ c) :
    (m.modify c buf).iderw b = (m.iderw b).map (·.modify c buf) := by
  unfold MemDisk.iderw MemDisk.modify
  dsimp only
  rw [Function.update_of_ne hne]
  split_ifs <;> simp only [Except.map, Function.update_comm hne]

/-- The requests of a queue that does not hold `c` commute with a change to `c`. -/
theorem MemDisk.foldlM_modify {q : List ι} {c : ι} (buf : Buf) (hfree : c ∉ q) (m : MemDisk ι) :
    q.foldlM MemDisk.iderw (m.modify c buf) = (q.foldlM MemDisk.iderw m).map (·.modify c buf) := by
  induction q generalizing m with
  | nil => rfl
  | cons b q ih =>
    have hbc : b ≠ c := fun h => hfree (h ▸ List.mem_cons_self ..)
    rw [List.foldlM_cons, List.foldlM_cons, m.iderw_modify buf hbc]
    cases m.iderw b with
    | error e => rfl
    | ok m' => exact ih (fun h => hfree (List.mem_cons_of_mem b h)) m'

/-! ### Runs of the driver -/

/-- What a process or the disk does: a process holding `b`'s sleep-lock calls `iderw(b)` or
changes `b`, or the disk finishes the command for `b`. -/
inductive Event (ι : Type) where
  | request (b : ι)
  | modify (b : ι) (buf : Buf)
  | intr (b : ι)

/-- One step of the driver, with a disk that reports no error. -/
inductive Step : Driver ι → Event ι → Driver ι → Prop where
  /-- `iderw(b)` by the holder of `b`'s sleep-lock; `b` is not queued, since whoever queued it
  holds that lock until the request completes -/
  | request {s s' : Driver ι} {b : ι} (hfree : b ∉ s.idequeue) (h : s.iderw b = .ok s') :
      Step s (.request b) s'
  /-- the holder of `b`'s sleep-lock changes the buffer -/
  | modify (s : Driver ι) {b : ι} (buf : Buf) (hfree : b ∉ s.idequeue) :
      Step s (.modify b buf) { s with bufs := Function.update s.bufs b buf }
  /-- the disk finishes the command of the head request `b`, and `ideintr` runs -/
  | intr {s s' : Driver ι} {b : ι} (hhead : s.idequeue.head? = some b)
      (h : s.complete.ideintr false = .ok s') : Step s (.intr b) s'

/-- A run: steps one after another, with their events. -/
inductive Run : Driver ι → List (Event ι) → Driver ι → Prop where
  | nil (s : Driver ι) : Run s [] s
  | cons {s s' s'' : Driver ι} {e : Event ι} {es : List (Event ι)} (h : Step s e s')
      (hrest : Run s' es s'') : Run s (e :: es) s''

/-- The buffers the events request, in order. -/
def requests : List (Event ι) → List ι
  | [] => []
  | .request b :: es => b :: requests es
  | _ :: es => requests es

/-- The buffers whose requests the events complete, in order. -/
def completions : List (Event ι) → List ι
  | [] => []
  | .intr b :: es => b :: completions es
  | _ :: es => completions es

/-- `memide.c` replaying the events: `iderw` for each request and each change of a buffer;
completions are not seen. -/
def MemDisk.replay (m : MemDisk ι) : List (Event ι) → Except String (MemDisk ι)
  | [] => .ok m
  | .request b :: es => m.iderw b >>= fun m => m.replay es
  | .modify b buf :: es => (m.modify b buf).replay es
  | .intr _ :: es => m.replay es

@[simp] theorem MemDisk.replay_request (m : MemDisk ι) (b : ι) : m.replay [.request b] = m.iderw b :=
  bind_pure _

theorem MemDisk.replay_append (m : MemDisk ι) (es es' : List (Event ι)) :
    m.replay (es ++ es') = m.replay es >>= fun m => m.replay es' := by
  induction es generalizing m with
  | nil => rfl
  | cons e es ih =>
    cases e with
    | request b =>
      simp only [List.cons_append, replay, bind_assoc, ih]
    | modify b buf => exact ih _
    | intr b => exact ih _

/-! ### The invariant and the abstraction -/

namespace Driver

/-- The pending requests completed in queue order, as `memide.c` computes them. -/
def abs (s : Driver ι) : Except String (MemDisk ι) := s.idequeue.foldlM MemDisk.iderw ⟨s.bufs, s.disk⟩

/-- The queue has no duplicates, its head is the request the disk is carrying out, the disk is
idle when it is empty, and no queued buffer is valid and clean. -/
structure Inv (s : Driver ι) : Prop where
  nodup : s.idequeue.Nodup
  started : ∀ b, s.idequeue.head? = some b →
    s.cmd = some (cmdOf (s.bufs b)) ∧ (s.bufs b).blockno < FSSIZE
  idle : s.idequeue = [] → s.cmd = none
  pending : ∀ b ∈ s.idequeue, ¬((s.bufs b).valid = true ∧ (s.bufs b).dirty = false)

variable {s s' : Driver ι} {b : ι}

/-- What `iderw` does to a buffer that is not queued: it appends it, and starts it when the
queue was empty. -/
theorem iderw_eq (hfree : b ∉ s.idequeue) (h : s.iderw b = .ok s') :
    ¬((s.bufs b).valid = true ∧ (s.bufs b).dirty = false) ∧ s'.bufs = s.bufs ∧ s'.disk = s.disk ∧
      s'.idequeue = s.idequeue ++ [b] ∧
      (s.idequeue = [] → s'.cmd = some (cmdOf (s.bufs b)) ∧ (s.bufs b).blockno < FSSIZE) ∧
      (s.idequeue ≠ [] → s'.cmd = s.cmd) := by
  unfold iderw at h
  dsimp only at h
  split_ifs at h with hnothing hhead
  · -- `b` is at the head of the new queue: the queue was empty, and `idestart` ran
    obtain ⟨rfl, hlt⟩ := idestart_eq h
    have hempty : s.idequeue = [] := by
      cases hq : s.idequeue with
      | nil => rfl
      | cons c rest =>
        rw [hq, List.cons_append, List.head?_cons, Option.some.injEq] at hhead
        exact absurd (hhead ▸ List.mem_cons_self ..) (hq ▸ hfree)
    refine ⟨fun ⟨hv, hd⟩ => by simp [hv, hd] at hnothing, rfl, rfl, rfl, fun _ => ⟨rfl, hlt⟩,
      fun hne => absurd hempty hne⟩
  · cases h
    refine ⟨fun ⟨hv, hd⟩ => by simp [hv, hd] at hnothing, rfl, rfl, rfl, fun hempty => ?_, fun _ => rfl⟩
    simp [hempty] at hhead

omit [DecidableEq ι] in
theorem complete_read {sec : Nat} (h : s.cmd = some (.read sec)) :
    s.complete = { s with dataReg := s.disk sec, cmd := none } := by
  rw [complete, h]

omit [DecidableEq ι] in
theorem complete_write {sec : Nat} {data : Block} (h : s.cmd = some (.write sec data)) :
    s.complete = { s with disk := Function.update s.disk sec data, cmd := none } := by
  rw [complete, h]

omit [DecidableEq ι] in
@[simp] theorem complete_bufs (s : Driver ι) : s.complete.bufs = s.bufs := by
  unfold complete
  split <;> rfl

omit [DecidableEq ι] in
@[simp] theorem complete_idequeue (s : Driver ι) : s.complete.idequeue = s.idequeue := by
  unfold complete
  split <;> rfl

omit [DecidableEq ι] in
/-- The disk has carried out its command. -/
@[simp] theorem complete_cmd (s : Driver ι) : s.complete.cmd = none := by
  unfold complete
  split
  next h => exact h
  all_goals rfl

/-- The completion of the head request, with no error, does to the buffers and the disk what
`memide.c`'s `iderw` does. -/
theorem intr_memide (hinv : s.Inv) {rest : List ι} (hq : s.idequeue = b :: rest)
    (h : s.complete.ideintr false = .ok s') :
    MemDisk.iderw ⟨s.bufs, s.disk⟩ b = .ok ⟨s'.bufs, s'.disk⟩ := by
  obtain ⟨hcmd, hlt⟩ := hinv.started b (by rw [hq]; rfl)
  have hpend := hinv.pending b (by rw [hq]; exact List.mem_cons_self ..)
  obtain ⟨hbufs, hdisk, -⟩ := ideintr_eq (by rw [complete_idequeue, hq]) h
  rw [hbufs, hdisk]
  unfold MemDisk.iderw cmdOf at *
  cases hbuf : s.bufs b with
  | mk valid dirty blockno data =>
    rw [hbuf] at hcmd hlt hpend
    cases dirty with
    | false =>
      -- a read: the data register holds the sector when `ideintr` copies it
      have hv : valid = false := by cases valid <;> simp_all
      simp only [if_false, Bool.false_eq_true] at hcmd
      rw [complete_read hcmd]
      simp [finish, hbuf, hv, Nat.not_le.mpr hlt]
    | true =>
      simp only [if_true] at hcmd
      rw [complete_write hcmd]
      simp [finish, hbuf, Nat.not_le.mpr hlt]

/-- An interrupt for the head request `b` pops it. -/
theorem intr_queue (hhead : s.idequeue.head? = some b) (h : s.complete.ideintr false = .ok s') :
    s.idequeue = b :: s'.idequeue := by
  obtain ⟨rest, hq⟩ := List.head?_eq_some_iff.mp hhead
  obtain ⟨-, -, hq', -⟩ := ideintr_eq (by rw [complete_idequeue, hq]) h
  rw [hq, hq']

/-! ### Each step keeps the invariant -/

theorem Inv.request (hs : s.Inv) (hfree : b ∉ s.idequeue) (h : s.iderw b = .ok s') : s'.Inv := by
  obtain ⟨hpend, hbufs, -, hq, hstart, hcmd⟩ := iderw_eq hfree h
  refine ⟨?_, fun c hc => ?_, fun hnil => ?_, fun c hc => ?_⟩
  · rw [hq, ← List.concat_eq_append]
    exact hs.nodup.concat hfree
  · rw [hbufs]
    cases hempty : s.idequeue with
    | nil =>
      -- `b` alone in the queue: `iderw` started it
      rw [hq, hempty] at hc
      cases hc
      exact hstart hempty
    | cons d rest =>
      -- the head is unchanged, and so is the command
      rw [hq, hempty] at hc
      obtain rfl : d = c := Option.some.inj hc
      rw [hcmd (by simp [hempty])]
      exact hs.started d (by rw [hempty]; rfl)
  · rw [hq] at hnil
    simp at hnil
  · rw [hbufs]
    rw [hq, List.mem_append, List.mem_singleton] at hc
    rcases hc with hc | rfl
    · exact hs.pending c hc
    · exact hpend

theorem Inv.modify (hs : s.Inv) (buf : Buf) (hfree : b ∉ s.idequeue) :
    ({ s with bufs := Function.update s.bufs b buf } : Driver ι).Inv := by
  -- only the queued buffers matter, and `b` is not one of them
  have hq : ∀ c ∈ s.idequeue, Function.update s.bufs b buf c = s.bufs c :=
    fun c hc => Function.update_of_ne (ne_of_mem_of_not_mem hc hfree) ..
  refine ⟨hs.nodup, fun c hc => ?_, hs.idle, fun c hc => ?_⟩
  · dsimp only at hc ⊢
    rw [hq c (List.mem_of_mem_head? hc)]
    exact hs.started c hc
  · dsimp only at hc ⊢
    rw [hq c hc]
    exact hs.pending c hc

theorem Inv.intr (hs : s.Inv) (hhead : s.idequeue.head? = some b)
    (h : s.complete.ideintr false = .ok s') : s'.Inv := by
  have hq := intr_queue hhead h
  obtain ⟨hbufs, -, -, hidle, hstart⟩ := ideintr_eq (by rw [complete_idequeue, hq]) h
  have hnd : (b :: s'.idequeue).Nodup := hq ▸ hs.nodup
  refine ⟨hnd.of_cons, hstart, fun hnil => (hidle hnil).trans (complete_cmd s), fun c hc => ?_⟩
  -- the other queued buffers are untouched
  have hcb : c ≠ b := fun hcb => (List.nodup_cons.mp hnd).1 (hcb ▸ hc)
  rw [hbufs, Function.update_of_ne hcb, complete_bufs]
  exact hs.pending c (hq ▸ List.mem_cons_of_mem b hc)

/-! ### The abstraction -/

theorem abs_request (hfree : b ∉ s.idequeue) (h : s.iderw b = .ok s') :
    s'.abs = s.abs >>= fun m => m.iderw b := by
  obtain ⟨-, hbufs, hdisk, hq, -⟩ := iderw_eq hfree h
  rw [abs, hbufs, hdisk, hq, List.foldlM_append]
  simp only [List.foldlM_cons, List.foldlM_nil, bind_pure]
  rfl

theorem abs_modify (buf : Buf) (hfree : b ∉ s.idequeue) :
    ({ s with bufs := Function.update s.bufs b buf } : Driver ι).abs = s.abs.map (·.modify b buf) :=
  MemDisk.foldlM_modify buf hfree ⟨s.bufs, s.disk⟩

/-- The interrupt does what `abs` had already done for the head request. -/
theorem abs_intr (hs : s.Inv) (hhead : s.idequeue.head? = some b)
    (h : s.complete.ideintr false = .ok s') : s'.abs = s.abs := by
  have hq := intr_queue hhead h
  rw [abs, abs, hq, List.foldlM_cons, intr_memide hs hq h]
  rfl


end Driver

/-! ### Runs keep the invariant, and the queue is a FIFO -/

variable {s s' : Driver ι}

theorem Step.inv {e : Event ι} (hs : s.Inv) (h : Step s e s') : s'.Inv := by
  cases h with
  | request hfree h => exact hs.request hfree h
  | modify buf hfree => exact hs.modify buf hfree
  | intr hhead h => exact hs.intr hhead h

theorem Run.inv {es : List (Event ι)} (hs : s.Inv) (h : Run s es s') : s'.Inv := by
  induction h with
  | nil => exact hs
  | cons hstep _ ih => exact ih (hstep.inv hs)

/-- A step completes the head of the queue or appends to it. -/
theorem Step.fifo {e : Event ι} (h : Step s e s') :
    completions [e] ++ s'.idequeue = s.idequeue ++ requests [e] := by
  cases h with
  | request hfree h =>
    rw [(Driver.iderw_eq hfree h).2.2.2.1]
    rfl
  | modify buf hfree => exact (List.append_nil _).symm
  | intr hhead h =>
    rw [Driver.intr_queue hhead h]
    exact (List.append_nil _).symm

/-- Requests complete in the order they were made, each once. -/
theorem Run.fifo {es : List (Event ι)} (h : Run s es s') :
    completions es ++ s'.idequeue = s.idequeue ++ requests es := by
  induction h with
  | nil => exact (List.append_nil _).symm
  | @cons s s' s'' e es hstep _ ih =>
    have hc : completions (e :: es) = completions [e] ++ completions es := by cases e <;> rfl
    have hr : requests (e :: es) = requests [e] ++ requests es := by cases e <;> rfl
    calc completions (e :: es) ++ s''.idequeue
        = completions [e] ++ (s'.idequeue ++ requests es) := by rw [hc, List.append_assoc, ih]
      _ = (completions [e] ++ s'.idequeue) ++ requests es := (List.append_assoc ..).symm
      _ = s.idequeue ++ requests (e :: es) := by rw [hstep.fifo, hr, List.append_assoc]

theorem Step.abs {e : Event ι} (hs : s.Inv) (h : Step s e s') :
    s'.abs = s.abs >>= fun m => m.replay [e] := by
  cases h with
  | request hfree h =>
    rw [Driver.abs_request hfree h]
    simp only [MemDisk.replay_request]
  | modify buf hfree =>
    rw [Driver.abs_modify buf hfree]
    cases s.abs <;> rfl
  | intr hhead h =>
    rw [Driver.abs_intr hs hhead h]
    cases s.abs <;> rfl

theorem Run.abs {es : List (Event ι)} (hs : s.Inv) (h : Run s es s') :
    s'.abs = s.abs >>= fun m => m.replay es := by
  induction h with
  | nil => exact (bind_pure _).symm
  | @cons s s' s'' e es hstep hrest ih =>
    rw [ih (hstep.inv hs), hstep.abs hs, bind_assoc]
    simp only [← MemDisk.replay_append, List.singleton_append]

/-! ### The driver refines `memide.c` -/

/-- From an idle disk, every run keeps the invariant, completes the requests in the order they
were made, each once, and leaves buffers and a disk that, once the pending requests complete,
are those `memide.c` computes; with nothing pending, they are those buffers and that disk. -/
theorem ide_refines_memide {bufs : ι → Buf} {reg : Block} {disk : Nat → Block}
    {es : List (Event ι)} {s' : Driver ι} (h : Run ⟨bufs, [], none, reg, disk⟩ es s') :
    s'.Inv ∧ completions es ++ s'.idequeue = requests es ∧
      s'.abs = MemDisk.replay ⟨bufs, disk⟩ es ∧
      (s'.idequeue = [] → MemDisk.replay ⟨bufs, disk⟩ es = .ok ⟨s'.bufs, s'.disk⟩) := by
  have hinit : Driver.Inv (⟨bufs, [], none, reg, disk⟩ : Driver ι) :=
    ⟨List.nodup_nil, nofun, fun _ => rfl, nofun⟩
  -- nothing is pending at the start, so the abstraction is the initial buffers and disk
  have habs : s'.abs = MemDisk.replay ⟨bufs, disk⟩ es := h.abs hinit
  refine ⟨h.inv hinit, h.fifo, habs, fun hq => ?_⟩
  rw [← habs, Driver.abs, hq]
  rfl

/-- Buffer `false` writes sevens to block 3, and buffer `true` then reads block 3. -/
def writeRead : Driver Bool :=
  ⟨fun w => if w then ⟨false, false, 3, fun _ => 0⟩ else ⟨false, true, 3, fun _ => 7⟩,
    [], none, fun _ => 0, fun _ _ => 0⟩

/-- Both requests made before either completes: the read sees the write, as in `memide.c`. -/
theorem write_read_refines :
    ∃ s', Run writeRead [.request false, .request true, .intr false, .intr true] s' ∧
      s'.idequeue = [] ∧ (s'.bufs true).data = (fun _ => 7) ∧
      MemDisk.replay ⟨writeRead.bufs, writeRead.disk⟩
        [.request false, .request true, .intr false, .intr true] = .ok ⟨s'.bufs, s'.disk⟩ := by
  have hrun : Run writeRead [.request false, .request true, .intr false, .intr true] _ :=
    .cons (.request (by decide) rfl) <| .cons (.request (by decide) rfl) <|
      .cons (.intr rfl rfl) <| .cons (.intr rfl rfl) <| .nil _
  exact ⟨_, hrun, rfl, rfl, (ide_refines_memide hrun).2.2.2 rfl⟩

end Xv6.Ide
