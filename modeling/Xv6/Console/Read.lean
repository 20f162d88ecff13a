import Xv6.Console.Input

/-!
Reads of the console over whole runs.

Any number of processes may be in `consoleread` at once: a reader sleeps while
`input.r == input.w`, with `cons.lock` released, and takes bytes under the lock. A `Console`
keeps each process's read in progress and, as ghosts, the line editor the ring refines, a log
of every byte taken off the ring for good with the process that took it, and every finished
read with what it returned. `Inv` holds in every reachable state. From it: the log is the
committed text in order; the bytes a process has had copied are its bytes of the log less the
`^D`s; and a read returned -1 only when its process had been killed, and otherwise the number
of bytes it copied, which is 0 exactly when it asked for none or the first byte it saw was `^D`.

`p->killed` is set by `kill` and cleared when `wait` reaps the process; a reader reads it only
while the ring is empty.
-/

namespace Xv6.Consoles

/-- A finished read: the process, its reader, whether `p->killed` was set when it returned,
and the value returned. -/
structure Done where
  proc : Fin NPROC
  reader : Reader
  killed : Bool
  ret : Int

/-- The console input, each process's `consoleread` in progress, each process's `p->killed`,
and the ghosts. -/
structure Console where
  input : Input
  reader : Fin NPROC → Option Reader
  killed : Fin NPROC → Bool
  /-- the line editor the ring refines -/
  edit : Edit
  /-- every byte taken off the ring for good, with the process that took it -/
  log : List (Fin NPROC × UInt8)
  /-- every finished read -/
  reads : List Done

def Console.boot : Console := ⟨Input.zero, fun _ => none, fun _ => false, ⟨[], [], 0⟩, [], []⟩

def Console.setReader (s : Console) (p : Fin NPROC) (rd : Option Reader) : Console :=
  { s with reader := Function.update s.reader p rd }

/-- `p->killed` of process `p` set to `b`. -/
def Console.setKilled (s : Console) (p : Fin NPROC) (b : Bool) : Console :=
  { s with killed := Function.update s.killed p b }

/-- Process `p`'s read returns `ret`. -/
def Console.finish (s : Console) (p : Fin NPROC) (rd : Reader) (ret : Int) : Console :=
  { s.setReader p none with reads := s.reads ++ [⟨p, rd, s.killed p, ret⟩] }

/-- The log after process `p` takes the next byte, unless it puts it back. -/
def Console.logTake (s : Console) (p : Fin NPROC) (rd : Reader) : List (Fin NPROC × UInt8) :=
  if rd.putBack s.edit.front then s.log else s.log ++ [(p, s.edit.front)]

/-- Process `p` takes the next byte off the ring. -/
def Console.consume (s : Console) (p : Fin NPROC) (rd : Reader) : Console :=
  { s with input := s.input.consume rd, edit := s.edit.consume rd, log := s.logTake p rd }

/-- After taking `c`, process `p` breaks out of the loop and returns, or goes on. -/
def Console.next (s : Console) (p : Fin NPROC) (rd : Reader) (c : UInt8) : Console :=
  if stops c then s.finish p (rd.take c) (rd.take c).ret else s.setReader p (some (rd.take c))

/-- The console's steps: a key, `kill` and `wait`'s reaping of a process, and each way through
`consoleread`'s loop. A reader asleep in `while(input.r == input.w)` does nothing until it
wakes. -/
inductive Step : Console → Console → Prop
  /-- `consoleintr` handles a key. -/
  | intr (s : Console) (c : UInt8) :
      Step s { s with input := s.input.intr c, edit := s.edit.key c }
  /-- `kill` sets `p->killed`. -/
  | kill (s : Console) (p : Fin NPROC) : Step s (s.setKilled p true)
  /-- `wait` reaps `p`, a zombie and so not in `consoleread`, and clears `p->killed`. -/
  | reap (s : Console) (p : Fin NPROC) (h : s.reader p = none) : Step s (s.setKilled p false)
  /-- Process `p` calls `consoleread(ip, dst, n)`. -/
  | read (s : Console) (p : Fin NPROC) (n : Nat) (h : s.reader p = none) :
      Step s (s.setReader p (some (Reader.start n)))
  /-- `while(n > 0)` ends: the read returns `target - n`. -/
  | done (s : Console) (p : Fin NPROC) (rd : Reader) (h : s.reader p = some rd) (hn : rd.n = 0) :
      Step s (s.finish p rd rd.ret)
  /-- Nothing is committed and `myproc()->killed` is set: the read returns -1. -/
  | killed (s : Console) (p : Fin NPROC) (rd : Reader) (h : s.reader p = some rd) (hn : 0 < rd.n)
      (hr : s.input.r = s.input.w) (hk : s.killed p = true) : Step s (s.finish p rd (-1))
  /-- A committed byte is there: the reader takes it. -/
  | take (s : Console) (p : Fin NPROC) (rd : Reader) (h : s.reader p = some rd) (hn : 0 < rd.n)
      (hr : s.input.r ≠ s.input.w) : Step s ((s.consume p rd).next p rd s.input.front)

section Next

variable (s : Console) (p : Fin NPROC) (rd : Reader) (c : UInt8)

@[simp] theorem Console.next_input : (s.next p rd c).input = s.input := by
  unfold Console.next
  split <;> rfl

@[simp] theorem Console.next_edit : (s.next p rd c).edit = s.edit := by
  unfold Console.next
  split <;> rfl

@[simp] theorem Console.next_log : (s.next p rd c).log = s.log := by
  unfold Console.next
  split <;> rfl

end Next

def Reach (s : Console) : Prop := Relation.ReflTransGen Step Console.boot s

/-! ### What reads return -/

/-- A read in progress has copied `target - n` bytes, all it has seen, none of them `^D`. -/
structure Reader.Busy (rd : Reader) : Prop where
  count : rd.got.length + rd.n = rd.target
  seen : rd.seen = rd.got
  eof : C 'D' ∉ rd.got

/-- What a finished read returned: -1 only when its process had been killed, and otherwise the
number of bytes it copied, which is 0 exactly when it asked for none or the first byte it saw
was `^D`. -/
def Returned (rd : Reader) (killed : Bool) (ret : Int) : Prop :=
  (killed = true ∧ ret = -1) ∨
    (ret = rd.got.length ∧ (ret = 0 ↔ rd.target = 0 ∨ rd.seen.head? = some (C 'D')))

theorem Reader.busy_start (n : Nat) : (Reader.start n).Busy :=
  ⟨by simp [Reader.start], rfl, by simp [Reader.start]⟩

theorem Reader.take_got (rd : Reader) (c : UInt8) :
    (rd.take c).got = rd.got ++ if c = C 'D' then [] else [c] := by
  unfold Reader.take
  split <;> simp_all

section Busy

variable {rd : Reader}

theorem Reader.Busy.take (h : rd.Busy) (hn : 0 < rd.n) {c : UInt8} (hc : c ≠ C 'D') :
    (rd.take c).Busy := by
  obtain ⟨hcount, hseen, heof⟩ := h
  simp only [Reader.take, if_neg hc]
  refine ⟨by simp; omega, by simp [hseen], ?_⟩
  simp only [List.mem_append, List.mem_singleton, not_or]
  exact ⟨heof, Ne.symm hc⟩

theorem Reader.Busy.returned_done (h : rd.Busy) (hn : rd.n = 0) (k : Bool) : Returned rd k rd.ret := by
  have hret : rd.ret = rd.got.length := by
    rw [Reader.ret, ← h.count, hn]
    simp
  refine Or.inr ⟨hret, ?_⟩
  rw [hret, h.seen, Int.natCast_eq_zero, ← h.count, hn, Nat.add_zero]
  constructor
  · intro h0
    exact Or.inl h0
  · rintro (h0 | hd)
    · exact h0
    · -- a read in progress has seen no `^D`
      exact absurd (List.mem_of_mem_head? hd) h.eof

/-- A read that stops at a `^D` or after a newline returns the bytes it copied. -/
theorem Reader.Busy.returned_stop (h : rd.Busy) (hn : 0 < rd.n) {c : UInt8} (hc : stops c) (k : Bool) :
    Returned (rd.take c) k (rd.take c).ret := by
  obtain ⟨hcount, hseen, heof⟩ := h
  refine Or.inr ⟨?_, ?_⟩
  · rw [Reader.ret, Reader.take_got]
    unfold Reader.take
    split <;> simp <;> omega
  · by_cases hd : c = C 'D'
    · -- the `^D` is taken back out of what is returned: 0 exactly when nothing was copied
      subst hd
      simp only [Reader.take, Reader.ret, hseen]
      cases hg : rd.got with
      | nil => simp [← hcount, hg]
      | cons b bs =>
        have hb : b ≠ C 'D' := fun hb => heof (by simp [hg, hb])
        simp only [hg, List.length_cons] at hcount
        simp [hb]
        omega
    · -- a newline: at least one byte copied, and the first byte seen is not `^D`
      have hnl : c = ch '\n' := by simpa [stops, hd] using hc
      simp only [Reader.take, if_neg hd, Reader.ret, hseen]
      have hfirst : (rd.got ++ [c]).head? ≠ some (C 'D') := by
        cases hg : rd.got with
        | nil => simpa using hd
        | cons b bs => simpa using fun hb => heof (by simp [hg, hb])
      simp only [hfirst, or_false]
      omega

end Busy

/-! ### The bytes each process gets -/

/-- The bytes process `p`'s finished reads copied. -/
def Console.past (s : Console) (p : Fin NPROC) : List UInt8 :=
  ((s.reads.filter fun x => x.proc == p).map fun x => x.reader.got).flatten

/-- The bytes process `p` has had copied, over its finished reads and the one in progress. -/
def Console.copied (s : Console) (p : Fin NPROC) : List UInt8 :=
  s.past p ++ ((s.reader p).map Reader.got).getD []

/-- The bytes of a log that process `p` took, less the `^D`s. -/
def takenBy (log : List (Fin NPROC × UInt8)) (p : Fin NPROC) : List UInt8 :=
  ((log.filter fun x => x.1 == p).map Prod.snd).filter fun c => c != C 'D'

theorem takenBy_append (log : List (Fin NPROC × UInt8)) (p q : Fin NPROC) (c : UInt8) :
    takenBy (log ++ [(p, c)]) q = takenBy log q ++ if q = p ∧ c ≠ C 'D' then [c] else [] := by
  unfold takenBy
  by_cases hq : q = p
  · subst hq
    by_cases hc : c = C 'D' <;> simp [hc]
  · simp [hq, Ne.symm hq]

section Copied

variable (s : Console) (p q : Fin NPROC)

@[simp] theorem Console.reader_setReader (o : Option Reader) :
    (s.setReader p o).reader = Function.update s.reader p o := rfl

theorem Console.copied_setReader (rd : Reader) :
    (s.setReader p (some rd)).copied q = if q = p then s.past p ++ rd.got else s.copied q := by
  unfold Console.copied
  by_cases hq : q = p
  · subst hq
    simp [Console.past, Console.setReader]
  · simp [hq, Console.past, Console.setReader]

theorem Console.copied_finish (rd : Reader) (ret : Int) :
    (s.finish p rd ret).copied q = if q = p then s.past p ++ rd.got else s.copied q := by
  unfold Console.copied Console.past Console.finish
  by_cases hq : q = p
  · subst hq
    simp [Console.setReader]
  · simp [hq, Ne.symm hq, Console.setReader]

/-- Whether the read goes on or returns, what `p` has had copied is its past reads and the
reader's bytes. -/
theorem Console.copied_next (rd : Reader) (c : UInt8) :
    (s.next p rd c).copied q = if q = p then s.past p ++ (rd.take c).got else s.copied q := by
  unfold Console.next
  split
  · exact s.copied_finish p q _ _
  · exact s.copied_setReader p q _

theorem Console.copied_of_reader {rd : Reader} (h : s.reader p = some rd) :
    s.copied p = s.past p ++ rd.got := by
  simp [Console.copied, h]

/-- A read that returns moves its bytes from the read in progress to the finished ones. -/
theorem Console.copied_finish_self {rd : Reader} (hp : s.reader p = some rd) (ret : Int) :
    (s.finish p rd ret).copied = s.copied := by
  funext q
  rw [Console.copied_finish]
  split
  · subst_vars
    rw [s.copied_of_reader _ hp]
  · rfl

end Copied

/-! ### The invariant -/

/-- Every read in progress is busy and every finished read returned what it should. -/
structure Readers (s : Console) : Prop where
  busy : ∀ p rd, s.reader p = some rd → rd.Busy
  returned : ∀ x ∈ s.reads, Returned x.reader x.killed x.ret

section Readers

variable {s : Console} (h : Readers s) {p : Fin NPROC}
include h

theorem Readers.setReader {rd : Reader} (hrd : rd.Busy) : Readers (s.setReader p (some rd)) where
  busy q rd' hq := by
    by_cases hqp : q = p
    · subst hqp
      simp only [Console.reader_setReader, Function.update_self, Option.some.injEq] at hq
      exact hq ▸ hrd
    · exact h.busy q rd' (by simpa [hqp] using hq)
  returned := h.returned

theorem Readers.finish {rd : Reader} {ret : Int} (hret : Returned rd (s.killed p) ret) :
    Readers (s.finish p rd ret) where
  busy q rd' hq := by
    by_cases hqp : q = p
    · subst hqp
      simp [Console.finish] at hq
    · exact h.busy q rd' (by simpa [Console.finish, hqp] using hq)
  returned x hx := by
    rcases List.mem_append.mp hx with hx | hx
    · exact h.returned x hx
    · rw [List.mem_singleton.mp hx]
      exact hret

end Readers

/-- The console invariant: the ring refines the editor, whose line holds no newline; the
readers are as `Readers` says; the log is the committed text taken so far; and each process
has had copied exactly its bytes of the log, less the `^D`s. -/
structure Inv (s : Console) : Prop where
  refines : Refines s.input s.edit
  clean : ch '\n' ∉ s.edit.line
  readers : Readers s
  log : s.log.map Prod.snd = s.edit.committed.take s.edit.taken
  copied : ∀ p, s.copied p = takenBy s.log p

theorem inv_boot : Inv Console.boot where
  refines := refines_zero
  clean := List.not_mem_nil
  readers := ⟨fun p rd h => by simp [Console.boot] at h, fun x hx => by simp [Console.boot] at hx⟩
  log := rfl
  copied p := rfl

section Inv

variable {s : Console}

/-- A read that returns keeps the invariant, given what it returns. -/
theorem Inv.finish (h : Inv s) {p : Fin NPROC} {rd : Reader} (hp : s.reader p = some rd)
    {ret : Int} (hret : Returned rd (s.killed p) ret) : Inv (s.finish p rd ret) where
  refines := h.refines
  clean := h.clean
  readers := h.readers.finish hret
  log := h.log
  copied := by
    rw [Console.copied_finish_self _ _ hp]
    exact h.copied

/-- Typing edits the line and only ever extends the committed text, past what was taken. -/
theorem Inv.intr (h : Inv s) (c : UInt8) :
    Inv { s with input := s.input.intr c, edit := s.edit.key c } where
  refines := h.refines.intr h.clean c
  clean := Edit.key_clean h.clean c
  readers := ⟨h.readers.busy, h.readers.returned⟩
  log := by
    obtain ⟨more, hmore⟩ := s.edit.committed_prefix_key c
    simp only [Edit.key_taken, ← hmore, h.log]
    exact (List.take_append_of_le_length h.refines.ordered).symm
  copied := h.copied

theorem Inv.read (h : Inv s) {p : Fin NPROC} (hp : s.reader p = none) (n : Nat) :
    Inv (s.setReader p (some (Reader.start n))) where
  refines := h.refines
  clean := h.clean
  readers := h.readers.setReader (Reader.busy_start n)
  log := h.log
  copied q := by
    rw [Console.copied_setReader, show (s.setReader p _).log = s.log from rfl, ← h.copied q]
    split
    · subst_vars
      simp [Console.copied, hp, Reader.start]
    · rfl

@[simp] theorem Edit.consume_line (q : Edit) (rd : Reader) : (q.consume rd).line = q.line := by
  unfold Edit.consume
  split <;> rfl

@[simp] theorem Edit.consume_committed (q : Edit) (rd : Reader) :
    (q.consume rd).committed = q.committed := by
  unfold Edit.consume
  split <;> rfl

/-- The log grows by the byte taken, unless it is put back. -/
theorem takenBy_logTake (s : Console) (p q : Fin NPROC) (rd : Reader) :
    takenBy (s.logTake p rd) q =
      takenBy s.log q ++ if q = p then (if s.edit.front = C 'D' then [] else [s.edit.front])
        else [] := by
  unfold Console.logTake
  split
  · rename_i hback
    have hd : s.edit.front = C 'D' := (by simpa [Reader.putBack] using hback : _ ∧ _).1
    simp [hd]
  · rw [takenBy_append]
    by_cases hq : q = p <;> by_cases hd : s.edit.front = C 'D' <;> simp [hq, hd]

/-- Taking a committed byte keeps the log the committed text taken so far. -/
theorem Inv.log_consume (h : Inv s) (p : Fin NPROC) (rd : Reader)
    (ht : s.edit.taken < s.edit.committed.length) :
    (s.consume p rd).log.map Prod.snd =
      (s.consume p rd).edit.committed.take (s.consume p rd).edit.taken := by
  simp only [Console.consume, Console.logTake, Edit.consume]
  split
  · exact h.log
  · rw [List.map_append, h.log, Edit.advance, List.take_add_one, List.getElem?_eq_getElem ht]
    simp [Edit.front, List.getD_eq_getElem?_getD, List.getElem?_eq_getElem ht]

/-- A byte taken by a reader: the read goes on, or returns at a `^D` or a newline. -/
theorem Inv.take (h : Inv s) {p : Fin NPROC} {rd : Reader} (hp : s.reader p = some rd)
    (hn : 0 < rd.n) (hr : s.input.r ≠ s.input.w) :
    Inv ((s.consume p rd).next p rd s.input.front) := by
  have ht : s.edit.taken < s.edit.committed.length := by
    have := h.refines.ordered
    have := mt h.refines.r_eq_w_iff.mpr hr
    omega
  have hfront : s.input.front = s.edit.front := h.refines.front ht
  have hbusy := h.readers.busy p rd hp
  have hcopied (q : Fin NPROC) : ((s.consume p rd).next p rd s.input.front).copied q =
      takenBy (s.consume p rd).log q := by
    rw [Console.copied_next, show (s.consume p rd).log = s.logTake p rd from rfl,
      takenBy_logTake, ← h.copied q, hfront]
    split
    · subst_vars
      rw [s.copied_of_reader _ hp, Reader.take_got, List.append_assoc]
      rfl
    · rw [List.append_nil]
      rfl
  have hreaders : Readers (s.consume p rd) := ⟨h.readers.busy, h.readers.returned⟩
  refine ⟨?_, ?_, ?_, ?_, fun q => ?_⟩
  · rw [Console.next_input, Console.next_edit]
    exact h.refines.consume ht rd
  · rw [Console.next_edit]
    simpa [Console.consume] using h.clean
  · -- the read returns at a `^D` or a newline, and goes on after any other byte
    unfold Console.next
    split
    · exact hreaders.finish (hbusy.returned_stop hn ‹_› _)
    · rename_i hstop
      have hd : s.input.front ≠ C 'D' := fun hd => hstop (by simp [stops, hd])
      exact hreaders.setReader (hbusy.take hn hd)
  · rw [Console.next_log, Console.next_edit]
    exact h.log_consume p rd ht
  · rw [Console.next_log]
    exact hcopied q

/-- `kill` and reaping touch no read: a read in progress keeps its bytes, and a finished one
keeps the flag it returned with. -/
theorem Inv.setKilled (h : Inv s) (p : Fin NPROC) (b : Bool) : Inv (s.setKilled p b) where
  refines := h.refines
  clean := h.clean
  readers := ⟨h.readers.busy, h.readers.returned⟩
  log := h.log
  copied := h.copied

theorem Inv.step {s s' : Console} (hs : Step s s') (h : Inv s) : Inv s' := by
  cases hs with
  | intr c => exact h.intr c
  | kill p => exact h.setKilled p true
  | reap p _ => exact h.setKilled p false
  | read p n hp => exact h.read hp n
  | done p rd hp hn => exact h.finish hp (h.readers.busy p rd hp |>.returned_done hn _)
  | killed p rd hp _ _ hk => exact h.finish hp (Or.inl ⟨hk, rfl⟩)
  | take p rd hp hn hr => exact h.take hp hn hr

theorem inv_of_reach {s : Console} (h : Reach s) : Inv s := by
  induction h with
  | refl => exact inv_boot
  | tail _ hs ih => exact ih.step hs

end Inv

/-! ### The input discipline over whole runs -/

/-- In every reachable state the ring holds the line editor's text, with
`input.w - input.r ≤ input.e - input.r ≤ INPUT_BUF`; the bytes taken off the ring are the
committed text in order; each process has had copied its bytes of them less the `^D`s; and
every finished read returned -1 only if its process had been killed, and otherwise the number of
bytes it copied, 0 exactly when it asked for none or saw `^D` first. -/
theorem console_discipline {s : Console} (h : Reach s) :
    Refines s.input s.edit ∧
    s.input.w - s.input.r ≤ s.input.e - s.input.r ∧ s.input.e - s.input.r ≤ 128 ∧
    s.log.map Prod.snd <+: s.edit.committed ∧
    (∀ p, s.copied p = takenBy s.log p) ∧
    ∀ x ∈ s.reads, Returned x.reader x.killed x.ret := by
  have hi := inv_of_reach h
  have hr := hi.refines
  refine ⟨hr, ?_, ?_, ?_, hi.copied, hi.readers.returned⟩
  · rw [UInt32.le_iff_toNat_le, hr.w_sub_r, hr.e_sub_r, Edit.fill]
    omega
  · rw [UInt32.le_iff_toNat_le, hr.e_sub_r]
    exact hr.fill_le
  · rw [hi.log]
    exact List.take_prefix _ _

/-- Process 1 reads 5 bytes with nothing typed, is killed, and returns -1. Then `a` and a
newline are typed, and process 0's read of 2 bytes, begun first, returns both. -/
theorem console_discipline_killed :
    ∃ s, Reach s ∧ s.reads.map (fun x => (x.proc.val, x.killed, x.ret)) = [(1, true, -1), (0, false, 2)] ∧
      ∀ x ∈ s.reads, Returned x.reader x.killed x.ret := by
  let p₀ : Fin NPROC := ⟨0, by decide⟩
  let p₁ : Fin NPROC := ⟨1, by decide⟩
  let s₁ := (Console.boot.setReader p₀ (some (Reader.start 2))).setReader p₁ (some (Reader.start 5))
  let s₂ := (s₁.setKilled p₁ true).finish p₁ (Reader.start 5) (-1)
  let s₃ : Console := { s₂ with input := s₂.input.intr (ch 'a'), edit := s₂.edit.key (ch 'a') }
  let s₄ : Console := { s₃ with input := s₃.input.intr (ch '\n'), edit := s₃.edit.key (ch '\n') }
  let rd := (Reader.start 2).take (ch 'a')
  let s₅ := (s₄.consume p₀ (Reader.start 2)).next p₀ (Reader.start 2) s₄.input.front
  let s₆ := (s₅.consume p₀ rd).next p₀ rd s₅.input.front
  -- both reads begin, process 1 is killed and returns
  have h₁ : Reach s₁ :=
    ((Relation.ReflTransGen.single (Step.read _ p₀ 2 rfl)).tail (Step.read _ p₁ 5 rfl))
  have h₂ : Reach s₂ :=
    (h₁.tail (Step.kill _ p₁)).tail (Step.killed _ p₁ _ rfl (by decide) rfl rfl)
  -- the line is typed, and process 0 takes `a`, then the newline, and returns
  have h₄ : Reach s₄ := (h₂.tail (Step.intr _ _)).tail (Step.intr _ _)
  have h₅ : Reach s₅ := h₄.tail (Step.take _ p₀ _ rfl (by decide) (by decide))
  have h₆ : Reach s₆ := h₅.tail (Step.take _ p₀ rd (by decide) (by decide) (by decide))
  exact ⟨s₆, h₆, by decide, (console_discipline h₆).2.2.2.2.2⟩

/-- A read of 0 bytes returns 0 at once, without having seen a `^D`. -/
theorem zero_read_returns_zero :
    ∃ s, Reach s ∧ ∃ x ∈ s.reads, x.ret = 0 ∧ x.reader.seen = [] := by
  let p : Fin NPROC := ⟨0, by decide⟩
  let s₁ := Console.boot.setReader p (some (Reader.start 0))
  have h₁ : Step Console.boot s₁ := Step.read _ p 0 rfl
  have h₂ : Step s₁ (s₁.finish p (Reader.start 0) (Reader.start 0).ret) :=
    Step.done _ p _ (by simp [s₁]) rfl
  refine ⟨_, (Relation.ReflTransGen.single h₁).tail h₂, ⟨p, Reader.start 0, false, 0⟩, ?_, rfl, rfl⟩
  simp [s₁, Console.finish, Console.boot, Console.setReader, Reader.ret, Reader.start]

end Xv6.Consoles
