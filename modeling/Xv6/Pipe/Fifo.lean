import Xv6.Lib.Wrap
import Mathlib.Logic.Relation
import Mathlib.Logic.Function.Basic

/-!
# Pipes as bounded FIFO queues

`pipe.c` keeps a pipe's bytes in a ring of `PIPESIZE` bytes indexed by two free-running
32-bit counters: the ring is full when `nwrite == nread + PIPESIZE`, empty when
`nread == nwrite`, and byte number `n` lives in slot `n % PIPESIZE`. Each iteration of
`pipewrite`'s byte loop and of `piperead`'s copy loop runs with the pipe lock held, and a
writer may sleep between two iterations while readers drain the ring.

We take one loop iteration as one step of a transition system whose state also records the
calls in progress and, as ghost state, every byte stored and every byte taken, in order. The
steps are finer than the lock makes them (a whole `piperead` copy loop runs under the lock),
so every interleaving the kernel allows is among the runs. The invariant `Fifo` ties the
counters to the true totals through `Wrap.counter` and says that every unread byte still
sits in its slot; from it the ring is a FIFO queue of at most `PIPESIZE` bytes however often
the counters wrap.
-/

namespace Xv6.Pipes

open Wrap

/-- `PIPESIZE`, the capacity of a pipe's ring. -/
def PIPESIZE : Nat := 512

theorem PIPESIZE_dvd : PIPESIZE ∣ 2 ^ 32 := ⟨2 ^ 23, by decide⟩

/-- The ring slot of a counter value, `n % PIPESIZE`. -/
def slot (n : UInt32) : Fin PIPESIZE :=
  ⟨(n % 512).toNat, by rw [UInt32.toNat_mod]; exact Nat.mod_lt _ (by decide)⟩

theorem slot_counter (n : Nat) : (slot (counter n)).val = n % PIPESIZE :=
  counter_mod_toNat n PIPESIZE_dvd (by decide)

/-- Two byte numbers less than a ring apart have different slots. -/
theorem slot_counter_ne {j k : Nat} (hjk : j < k) (hk : k < j + PIPESIZE) :
    slot (counter j) ≠ slot (counter k) := by
  intro h
  have hj := slot_counter j
  have hk' := slot_counter k
  rw [h] at hj
  unfold PIPESIZE at *
  omega

/-- `struct pipe`, less its spinlock. -/
structure Pipe where
  data : Fin PIPESIZE → UInt8
  /-- number of bytes read -/
  nread : UInt32
  /-- number of bytes written -/
  nwrite : UInt32
  readopen : Bool
  writeopen : Bool

namespace Pipe

/-- The pipe `pipealloc` sets up in a fresh page, whose bytes are whatever the page held. -/
def fresh (junk : Fin PIPESIZE → UInt8) : Pipe :=
  { data := junk, nread := 0, nwrite := 0, readopen := true, writeopen := true }

/-- The test of `pipewrite`'s wait loop, `p->nwrite == p->nread + PIPESIZE`. -/
def full (p : Pipe) : Bool := p.nwrite == p.nread + 512

/-- The test that ends `piperead`'s copy loop, `p->nread == p->nwrite`. -/
def empty (p : Pipe) : Bool := p.nread == p.nwrite

/-- The body of `pipewrite`'s loop, `p->data[p->nwrite++ % PIPESIZE] = addr[i]`. -/
def put (p : Pipe) (c : UInt8) : Pipe :=
  { p with data := Function.update p.data (slot p.nwrite) c, nwrite := p.nwrite + 1 }

/-- The body of `piperead`'s copy loop, `addr[i] = p->data[p->nread++ % PIPESIZE]`: the byte
copied out and the pipe after. -/
def take (p : Pipe) : UInt8 × Pipe :=
  (p.data (slot p.nread), { p with nread := p.nread + 1 })

@[simp] theorem put_nread (p : Pipe) (c : UInt8) : (p.put c).nread = p.nread := rfl
@[simp] theorem put_nwrite (p : Pipe) (c : UInt8) : (p.put c).nwrite = p.nwrite + 1 := rfl
@[simp] theorem take_data (p : Pipe) : p.take.2.data = p.data := rfl
@[simp] theorem take_nwrite (p : Pipe) : p.take.2.nwrite = p.nwrite := rfl
@[simp] theorem take_nread (p : Pipe) : p.take.2.nread = p.nread + 1 := rfl

end Pipe

/-- `pipeclose` up to its `kfree`: the closed end's flag drops. -/
def pipeclose (p : Pipe) (writable : Bool) : Pipe :=
  if writable then { p with writeopen := false } else { p with readopen := false }

@[simp] theorem pipeclose_data (p : Pipe) (w : Bool) : (pipeclose p w).data = p.data := by
  cases w <;> rfl
@[simp] theorem pipeclose_nread (p : Pipe) (w : Bool) : (pipeclose p w).nread = p.nread := by
  cases w <;> rfl
@[simp] theorem pipeclose_nwrite (p : Pipe) (w : Bool) : (pipeclose p w).nwrite = p.nwrite := by
  cases w <;> rfl

/-! ### Calls in progress and the transition system -/

/-- A call in progress on the pipe, at the head of its loop. -/
inductive Call where
  /-- `pipewrite` about to store `addr[i]`, possibly asleep on a full ring -/
  | write (addr : List UInt8) (i : Nat)
  /-- `piperead` of at most `n` bytes in its copy loop, having copied `got` -/
  | read (n : Nat) (got : List UInt8)

/-- A pipe with the calls working on it, and the ghost record of what went through it. -/
structure PipeSys where
  pipe : Pipe
  calls : List Call
  /-- every byte `pipewrite` stored, in order -/
  stored : List UInt8
  /-- every byte `piperead` copied out, in order -/
  taken : List UInt8

def PipeSys.init (junk : Fin PIPESIZE → UInt8) : PipeSys :=
  ⟨Pipe.fresh junk, [], [], []⟩

/-- One step taken under the pipe lock. A `piperead` killed in its wait loop changes
nothing and has no step. -/
inductive Step : PipeSys → PipeSys → Prop where
  /-- `pipewrite` enters its loop -/
  | writeBegin (s : PipeSys) (addr : List UInt8) :
      Step s { s with calls := .write addr 0 :: s.calls }
  /-- one iteration of `pipewrite`'s loop, on a ring with room -/
  | put (s : PipeSys) {k i : Nat} {addr : List UInt8}
      (hk : s.calls[k]? = some (.write addr i)) (hi : i < addr.length)
      (hroom : s.pipe.full = false) :
      Step s { pipe := s.pipe.put addr[i], calls := s.calls.set k (.write addr (i + 1)),
               stored := s.stored ++ [addr[i]], taken := s.taken }
  /-- `pipewrite` returns `n` after its last byte -/
  | writeDone (s : PipeSys) {k : Nat} {addr : List UInt8}
      (hk : s.calls[k]? = some (.write addr addr.length)) :
      Step s { s with calls := s.calls.eraseIdx k }
  /-- `pipewrite` returns -1 from its wait loop: the read end is closed or it was killed -/
  | writeFail (s : PipeSys) {k i : Nat} {addr : List UInt8} (killed : Bool)
      (hk : s.calls[k]? = some (.write addr i)) (hfull : s.pipe.full = true)
      (hquit : s.pipe.readopen = false ∨ killed = true) :
      Step s { s with calls := s.calls.eraseIdx k }
  /-- `piperead` leaves its wait loop: there are bytes, or no writer is left -/
  | readBegin (s : PipeSys) (n : Nat)
      (hready : s.pipe.empty = false ∨ s.pipe.writeopen = false) :
      Step s { s with calls := .read n [] :: s.calls }
  /-- one iteration of `piperead`'s copy loop, on a ring that is not empty -/
  | take (s : PipeSys) {k n : Nat} {got : List UInt8}
      (hk : s.calls[k]? = some (.read n got)) (hi : got.length < n)
      (havail : s.pipe.empty = false) :
      Step s { pipe := s.pipe.take.2, calls := s.calls.set k (.read n (got ++ [s.pipe.take.1])),
               stored := s.stored, taken := s.taken ++ [s.pipe.take.1] }
  /-- `piperead` returns the number of bytes copied -/
  | readDone (s : PipeSys) {k n : Nat} {got : List UInt8}
      (hk : s.calls[k]? = some (.read n got))
      (hend : n ≤ got.length ∨ s.pipe.empty = true) :
      Step s { s with calls := s.calls.eraseIdx k }
  /-- `pipeclose` of one end -/
  | close (s : PipeSys) (writable : Bool) :
      Step s { s with pipe := pipeclose s.pipe writable }

/-! ### The FIFO invariant -/

/-- The ring holds exactly the bytes stored but not yet taken, in their slots, and the
counters are the wrapped totals. -/
structure Fifo (p : Pipe) (stored taken : List UInt8) : Prop where
  ordered : taken <+: stored
  room : stored.length ≤ taken.length + PIPESIZE
  nwrite : p.nwrite = counter stored.length
  nread : p.nread = counter taken.length
  unread : ∀ k (hk : k < stored.length), taken.length ≤ k →
    p.data (slot (counter k)) = stored[k]

section Fifo

variable {p : Pipe} {stored taken : List UInt8}

theorem Fifo.taken_le (h : Fifo p stored taken) : taken.length ≤ stored.length :=
  h.ordered.length_le

theorem Fifo.span_lt (h : Fifo p stored taken) : stored.length - taken.length < 2 ^ 32 := by
  have := h.room
  unfold PIPESIZE at this
  omega

theorem Fifo.full_iff (h : Fifo p stored taken) :
    p.full = true ↔ stored.length = taken.length + PIPESIZE := by
  have hle := h.taken_le
  have hpipe : (512 : UInt32) = counter PIPESIZE := rfl
  rw [Pipe.full, beq_iff_eq, h.nwrite, h.nread, hpipe,
    counter_eq_add_iff hle h.span_lt (by decide)]
  omega

theorem Fifo.empty_iff (h : Fifo p stored taken) :
    p.empty = true ↔ stored.length = taken.length := by
  rw [Pipe.empty, beq_iff_eq, h.nwrite, h.nread, eq_comm,
    counter_eq_iff h.taken_le h.span_lt]

/-- The wrapped difference of the counters is the number of unread bytes. -/
theorem Fifo.count_toNat (h : Fifo p stored taken) :
    (p.nwrite - p.nread).toNat = stored.length - taken.length := by
  rw [h.nwrite, h.nread, counter_sub_toNat h.taken_le h.span_lt]

theorem fifo_fresh (junk : Fin PIPESIZE → UInt8) : Fifo (Pipe.fresh junk) [] [] where
  ordered := List.prefix_refl []
  room := Nat.zero_le _
  nwrite := rfl
  nread := rfl
  unread k hk := absurd hk (Nat.not_lt_zero k)

/-- Storing a byte into a ring with room appends it to the queue. -/
theorem Fifo.put (h : Fifo p stored taken) (hroom : p.full = false) (c : UInt8) :
    Fifo (p.put c) (stored ++ [c]) taken := by
  have hlt : stored.length < taken.length + PIPESIZE := by
    have := h.room
    have := h.full_iff.not.mp (by simp [hroom])
    omega
  refine ⟨h.ordered.trans (List.prefix_append _ _), by simp; omega, ?_, h.nread, ?_⟩
  · rw [Pipe.put_nwrite, h.nwrite, List.length_append, List.length_singleton, counter_succ]
  · intro k hk hle
    rw [List.length_append, List.length_singleton] at hk
    simp only [Pipe.put, h.nwrite]
    rcases Nat.lt_succ_iff_lt_or_eq.mp hk with hk | rfl
    · -- an older unread byte sits in another slot, less than a ring away
      rw [Function.update_of_ne (slot_counter_ne hk (by omega)), h.unread k hk hle,
        List.getElem_append_left hk]
    · rw [Function.update_self, List.getElem_concat_length rfl]

/-- Copying out of a ring that is not empty returns the oldest unread byte. -/
theorem Fifo.take_fst (h : Fifo p stored taken) (havail : p.empty = false) :
    stored[taken.length]? = some p.take.1 := by
  have hlt : taken.length < stored.length := by
    have := h.taken_le
    have := h.empty_iff.not.mp (by simp [havail])
    omega
  rw [List.getElem?_eq_getElem hlt, Pipe.take, h.nread, h.unread _ hlt le_rfl]

theorem Fifo.take (h : Fifo p stored taken) (havail : p.empty = false) :
    Fifo p.take.2 stored (taken ++ [p.take.1]) := by
  have hfst := h.take_fst havail
  have hlt : taken.length < stored.length := (List.getElem?_eq_some_iff.mp hfst).1
  refine ⟨?_, by simp; have := h.room; omega, h.nwrite, ?_, ?_⟩
  · -- the queue read so far grows by the byte right after it
    obtain ⟨rest, hrest⟩ := h.ordered
    subst hrest
    cases rest with
    | nil => simp at hlt
    | cons b rest =>
      rw [List.getElem?_append_right le_rfl, Nat.sub_self] at hfst
      cases hfst
      exact ⟨rest, by simp⟩
  · rw [Pipe.take_nread, h.nread, List.length_append, List.length_singleton, counter_succ]
  · intro k hk hle
    rw [List.length_append, List.length_singleton] at hle
    exact h.unread k hk (by omega)

theorem Fifo.pipeclose (h : Fifo p stored taken) (w : Bool) :
    Fifo (pipeclose p w) stored taken := by
  obtain ⟨hpre, hroom, hw, hr, hun⟩ := h
  exact ⟨hpre, hroom, by rw [pipeclose_nwrite, hw], by rw [pipeclose_nread, hr],
    by simpa only [pipeclose_data] using hun⟩

end Fifo

/-- Every step keeps the FIFO invariant. -/
theorem Fifo.step {s s' : PipeSys} (hs : Step s s') (h : Fifo s.pipe s.stored s.taken) :
    Fifo s'.pipe s'.stored s'.taken := by
  cases hs with
  | writeBegin => exact h
  | put _ _ hroom => exact h.put hroom _
  | writeDone => exact h
  | writeFail => exact h
  | readBegin => exact h
  | take _ _ havail => exact h.take havail
  | readDone => exact h
  | close w => exact h.pipeclose w

theorem fifo_of_reach {junk : Fin PIPESIZE → UInt8} {s : PipeSys}
    (hreach : Relation.ReflTransGen Step (PipeSys.init junk) s) :
    Fifo s.pipe s.stored s.taken := by
  induction hreach with
  | refl => exact fifo_fresh junk
  | tail _ hstep ih => exact ih.step hstep

/-- A writer stores `7, 8` and returns; a reader then copies the `7` out and is still in its
copy loop. -/
def writeTwoReadOne : PipeSys :=
  { pipe := (((Pipe.fresh fun _ => 0).put 7).put 8).take.2,
    calls := [.read 1 [7]], stored := [7, 8], taken := [7] }

end Xv6.Pipes
