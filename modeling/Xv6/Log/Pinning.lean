import Xv6.Log.Admission
import Xv6.Bio.Coherence

/-!
# One header entry per logged block, and every logged block pinned

`log_write` enters the block number of the buffer it is given in the in-memory header unless
it is there already (`absorbStore_eq_absorb`), and sets the buffer's `B_DIRTY`. The system here
is the buffer cache of `Xv6.Bio` together with the log state of `Xv6.Log` and the block numbers
passed to `log_write` so far. Its steps are every step of the cache, `begin_op`, `end_op` and
`log_write`, interleaved in any order, until the first disk write of a logged block. That write
is `install_trans`'s: before it, the only `bwrite`s are those of `write_log` and `write_head` to
the log area, and `bread` asks the disk only for buffers that are not valid.

In every state of such a run the header holds each block passed to `log_write` exactly once,
and each has a buffer that is valid, dirty and has no disk request queued (`Pinned`). `bget`
recycles only clean buffers, and `ideintr` clears `B_DIRTY` only of the buffer whose request it
finishes, so nothing unpins it. That buffer is then the only live one carrying its block, and
`bget` returns it, so the `bread` of each header entry in `write_log` returns it without asking
the disk: `write_log` copies the latest in-memory content of every logged block, once
(`log_absorption`).
-/

namespace Xv6.Log

open Xv6.Bio

/-- The buffer cache and the in-memory log during one transaction, with the block numbers
passed to `log_write` so far. -/
structure Tx where
  sys : Sys
  log : LogState
  written : List Nat

/-- Buffer `i` carries block `b` of the device `dev`. -/
def Carries (s : Sys) (dev b : Nat) (i : Fin NBUF) : Prop :=
  (s.cache.buf i).dev = dev ∧ (s.cache.buf i).blockno = b

/-- Some buffer carries block `b` of `dev`, holds valid data, is dirty, and has no disk request
queued. -/
def Pinned (s : Sys) (dev b : Nat) : Prop :=
  ∃ i, Carries s dev b i ∧ (s.cache.buf i).valid = true ∧ (s.cache.buf i).dirty = true ∧
    i ∉ s.idequeue

/-- A step of the cache from `t` to `s` that queues no disk request for a buffer carrying a
block in the header of `t`. -/
def Quiet (dev : Nat) (t : Tx) (s : Sys) : Prop :=
  ∀ i ∈ s.idequeue, i ∉ t.sys.idequeue → ∀ b ∈ t.log.lh, ¬Carries t.sys dev b i

/-- One step of a transaction on a log of `size` blocks on the device `dev`. -/
inductive TxStep (size dev : Nat) : Tx → Tx → Prop
  /-- a step of the buffer cache that starts no disk write of a logged block -/
  | cache {t : Tx} {s : Sys} (h : Bio.Step t.sys s) (hq : Quiet dev t s) :
      TxStep size dev t { t with sys := s }
  /-- `begin_op` -/
  | begin {t : Tx} {l : LogState} (h : beginOp t.log = some l) :
      TxStep size dev t { t with log := l }
  /-- `end_op`, up to its call of `commit` -/
  | finish {t : Tx} {l : LogState} (h : endOp t.log = .ok l) :
      TxStep size dev t { t with log := l }
  /-- `log_write(b)` by the holder of a buffer of the log's device that `bread` returned: the
  header entry and `b->flags |= B_DIRTY`, under `log.lock` -/
  | logWrite {t : Tx} {i : Fin NBUF} {l : LogState} (hh : 0 < (t.sys.refs i).held)
      (hvalid : (t.sys.cache.buf i).valid = true) (hdev : (t.sys.cache.buf i).dev = dev)
      (h : logWrite size t.log (t.sys.cache.buf i).blockno = .ok l) :
      TxStep size dev t ⟨t.sys.modify i fun b => { b with dirty := true }, l,
        t.written ++ [(t.sys.cache.buf i).blockno]⟩

/-- What a transaction keeps: the cache invariant, one header entry per block, the header's
blocks those passed to `log_write`, and each of them pinned. -/
structure TxInv (dev : Nat) (t : Tx) : Prop where
  sys : t.sys.Inv
  nodup : t.log.lh.Nodup
  logged : ∀ b, b ∈ t.log.lh ↔ b ∈ t.written
  pinned : ∀ b ∈ t.log.lh, Pinned t.sys dev b

variable {dev b : Nat} {s s' : Sys}

/-! ### What keeps a block pinned -/

/-- A step of the cache that queues no request for the pinned buffer leaves it pinned. -/
theorem Pinned.step (h : s.Inv) (hs : Bio.Step s s') (hp : Pinned s dev b)
    (hq : ∀ i ∈ s'.idequeue, i ∉ s.idequeue → ¬Carries s dev b i) : Pinned s' dev b := by
  obtain ⟨i, hc, hv, hd, hnq⟩ := hp
  have hkeep := h.step_keeps hs (Or.inr hd)
  have hflags := h.step_flags hs hd hnq
  refine ⟨i, ⟨hkeep.1.trans hc.1, hkeep.2.1.trans hc.2⟩, hflags.1.trans hv, hflags.2, ?_⟩
  -- a request for it would be a new one
  exact fun hi => hq i hi hnq hc

/-- Marking a buffer dirty keeps every pinned block pinned. -/
theorem Pinned.modify_dirty (hp : Pinned s dev b) (i : Fin NBUF) :
    Pinned (s.modify i fun b => { b with dirty := true }) dev b := by
  obtain ⟨j, hc, hv, hd, hnq⟩ := hp
  by_cases hji : j = i
  · -- the pinned buffer itself: only its dirty flag changes, to true
    subst hji
    exact ⟨j, by simpa [Carries] using hc, by simpa using hv, by simp, hnq⟩
  · exact ⟨j, by simpa [Carries, hji] using hc, by simpa [hji] using hv, by simpa [hji] using hd, hnq⟩

/-- `log_write` pins the block of the buffer it is given: the caller holds the buffer, so no
request of it is queued. -/
theorem Pinned.logWrite (h : s.Inv) {i : Fin NBUF} (hh : 0 < (s.refs i).held)
    (hvalid : (s.cache.buf i).valid = true) (hdev : (s.cache.buf i).dev = dev) :
    Pinned (s.modify i fun b => { b with dirty := true }) dev (s.cache.buf i).blockno :=
  ⟨i, by simp [Carries, hdev], by simpa using hvalid, by simp, h.not_queued hh⟩

/-! ### Each step keeps the invariant -/

section Steps

variable {size : Nat} {t : Tx}

theorem TxInv.cache (ht : TxInv dev t) (h : Bio.Step t.sys s) (hq : Quiet dev t s) :
    TxInv dev { t with sys := s } :=
  ⟨ht.sys.step h, ht.nodup, ht.logged,
    fun b hb => (ht.pinned b hb).step ht.sys h fun i hi hni => hq i hi hni b hb⟩

/-- `begin_op` and `end_op` leave the header as it is. -/
theorem TxInv.setLog (ht : TxInv dev t) {l : LogState} (hlh : l.lh = t.log.lh) :
    TxInv dev { t with log := l } :=
  ⟨ht.sys, hlh ▸ ht.nodup, fun b => hlh ▸ ht.logged b, fun b hb => ht.pinned b (hlh ▸ hb)⟩

theorem TxInv.logWrite (ht : TxInv dev t) {i : Fin NBUF} {l : LogState}
    (hh : 0 < (t.sys.refs i).held) (hvalid : (t.sys.cache.buf i).valid = true)
    (hdev : (t.sys.cache.buf i).dev = dev)
    (h : logWrite size t.log (t.sys.cache.buf i).blockno = .ok l) :
    TxInv dev ⟨t.sys.modify i fun b => { b with dirty := true }, l,
      t.written ++ [(t.sys.cache.buf i).blockno]⟩ := by
  obtain ⟨-, -, -, rfl⟩ := logWrite_eq_ok h
  refine ⟨ht.sys.logWrite hh, nodup_absorb ht.nodup _, fun b => ?_, fun b hb => ?_⟩
  · simp only [mem_absorb, List.mem_append, List.mem_singleton, ht.logged b]
  · rcases mem_absorb.mp hb with hb | rfl
    · exact (ht.pinned b hb).modify_dirty i
    · exact Pinned.logWrite ht.sys hh hvalid hdev

theorem TxInv.step (ht : TxInv dev t) {t' : Tx} (h : TxStep size dev t t') : TxInv dev t' := by
  cases h with
  | cache h hq => exact ht.cache h hq
  | begin h =>
    obtain ⟨-, -, rfl⟩ := beginOp_eq_some h
    exact ht.setLog rfl
  | finish h => exact ht.setLog (endOp_eq_ok h).2.1
  | logWrite hh hvalid hdev h => exact ht.logWrite hh hvalid hdev h

end Steps

/-- A transaction starts with an empty header. -/
theorem txInv_start {s₀ : Sys} (hs₀ : s₀.Inv) {l₀ : LogState} (hl₀ : l₀.lh = []) :
    TxInv dev ⟨s₀, l₀, []⟩ :=
  ⟨hs₀, hl₀ ▸ List.nodup_nil, fun b => by simp [hl₀], fun b hb => by simp [hl₀] at hb⟩

theorem txInv_of_reach {size : Nat} {t₀ t : Tx} (h₀ : TxInv dev t₀)
    (h : Relation.ReflTransGen (TxStep size dev) t₀ t) : TxInv dev t := by
  induction h with
  | refl => exact h₀
  | tail _ hs ih => exact ih.step hs

/-! ### A transaction that logs one block -/

/-- A run of the cache alone, while the header is empty, is a run of the transaction. -/
theorem TxStep.cache_run {size dev : Nat} {l : LogState} (hl : l.lh = []) {s s' : Sys}
    (h : Relation.ReflTransGen Bio.Step s s') (w : List Nat) :
    Relation.ReflTransGen (TxStep size dev) ⟨s, l, w⟩ ⟨s', l, w⟩ := by
  induction h with
  | refl => exact .refl
  | tail _ hs ih =>
    exact ih.tail (TxStep.cache hs fun _ _ _ b hb => absurd (hl ▸ hb) List.not_mem_nil)

/-- Buffer 0, the least recently used after `binit`. -/
def buf0 : Fin NBUF := ⟨0, NBUF_pos⟩

/-- `bget(1, 5)` on the cache `binit` leaves: buffer 0 is recycled for it. -/
def gotBuf : Sys :=
  { Sys.init (fun _ _ _ => 0) with
    cache := binit.setBuf buf0 ((binit.buf buf0).recycle 1 5) }.setRefs buf0
    fun r => { r with waiting := r.waiting + 1 }

/-- `acquiresleep` of buffer 0. -/
def lockedBuf : Sys :=
  (gotBuf.modify buf0 fun b => { b with locked := true }).setRefs buf0
    fun r => { r with waiting := r.waiting - 1, held := r.held + 1 }

/-- `bread` finds buffer 0 not valid and `iderw` queues the read. -/
def queuedBuf : Sys :=
  { lockedBuf.setRefs buf0 (fun r => { r with held := r.held - 1, io := r.io + 1 }) with
    idequeue := lockedBuf.idequeue ++ [buf0] }

/-- `ideintr` finishes the read and `iderw` returns: `bread(1, 5)` is done. -/
def readBuf : Sys :=
  queuedBuf.ideintr.setRefs buf0 fun r => { r with io := r.io - 1, held := r.held + 1 }

/-- `bread(1, 5)` on the cache as `binit` leaves it, as five steps of the cache. -/
theorem bread_run : Relation.ReflTransGen Bio.Step (Sys.init fun _ _ _ => 0) readBuf := by
  have hb : binit.bget 1 5 = .ok (buf0, binit.setBuf buf0 ((binit.buf buf0).recycle 1 5)) := by
    have hnone : (List.finRange NBUF).reverse.find? (binit.holds 1 5) = none := by decide
    have hlru : (List.finRange NBUF).reverse.reverse.find? binit.reusable = some buf0 := by decide
    rw [BCache.ordered_binit.bget_eq, hnone, hlru]
  have hio : lockedBuf.iderw buf0 = .ok queuedBuf := by
    have hl : (lockedBuf.cache.buf buf0).locked = true := by decide
    have hv : (lockedBuf.cache.buf buf0).valid = false := by decide
    simp only [Sys.iderw, hl, hv, Bool.not_true, Bool.false_and, Bool.false_eq_true, if_false]
    rfl
  have h₁ : Bio.Step (Sys.init fun _ _ _ => 0) gotBuf := Step.bget (Sys.init fun _ _ _ => 0) hb
  have h₂ : Bio.Step gotBuf lockedBuf := Step.acquiresleep gotBuf (by decide) (by decide)
  have h₃ : Bio.Step lockedBuf queuedBuf := Step.bread lockedBuf (by decide) (by decide) hio
  have h₄ : Bio.Step queuedBuf.ideintr readBuf := Step.iderwDone _ (by decide) (by decide)
  exact ((((Relation.ReflTransGen.single h₁).tail h₂).tail h₃).tail
    (Step.ideintr queuedBuf)).tail h₄

/-- One `begin_op`, then `bread(1, 5)` and `log_write` of its buffer. -/
def loggedOne : Tx :=
  ⟨readBuf.modify buf0 fun b => { b with dirty := true }, ⟨[5], 1, false⟩, [5]⟩

theorem loggedOne_run :
    Relation.ReflTransGen (TxStep 30 1) ⟨Sys.init fun _ _ _ => 0, ⟨[], 0, false⟩, []⟩
      loggedOne := by
  have hbegin : beginOp ⟨[], 0, false⟩ = some ⟨[], 1, false⟩ := rfl
  have hlog : logWrite 30 ⟨[], 1, false⟩ (readBuf.cache.buf buf0).blockno =
      .ok ⟨[5], 1, false⟩ := rfl
  exact ((Relation.ReflTransGen.single (TxStep.begin hbegin)).trans
    (TxStep.cache_run rfl bread_run [])).tail
    (TxStep.logWrite (by decide) (by decide) (by decide) hlog)

/-- Then a second `log_write` of the same buffer, still held: `log_write` was called twice for
block 5. -/
def loggedTwice : Tx :=
  ⟨loggedOne.sys.modify buf0 fun b => { b with dirty := true }, ⟨[5], 1, false⟩, [5, 5]⟩

theorem loggedTwice_run :
    Relation.ReflTransGen (TxStep 30 1) ⟨Sys.init fun _ _ _ => 0, ⟨[], 0, false⟩, []⟩
      loggedTwice := by
  -- the second call finds block 5 in the header and adds no entry
  have hlog : logWrite 30 ⟨[5], 1, false⟩ (loggedOne.sys.cache.buf buf0).blockno =
      .ok ⟨[5], 1, false⟩ := rfl
  exact loggedOne_run.tail (TxStep.logWrite (by decide) (by decide) (by decide) hlog)

/-- Log absorption. From any reachable state of the buffer cache and an empty header, along any
interleaving of cache steps, `begin_op`, `end_op` and `log_write` up to the first disk write of
a logged block: the header has no duplicate, its blocks are those passed to `log_write`, and
each occurs once and has a buffer that is valid and dirty, the only live one carrying it, which
`bget` (hence `write_log`'s `bread`) returns. -/
theorem log_absorption (size dev : Nat) (disk : Nat → Nat → Block) {s₀ : Sys} {l₀ : LogState}
    (hs₀ : Relation.ReflTransGen Bio.Step (Sys.init disk) s₀) (hl₀ : l₀.lh = []) {t : Tx}
    (ht : Relation.ReflTransGen (TxStep size dev) ⟨s₀, l₀, []⟩ t) :
    t.log.lh.Nodup ∧ (∀ b, b ∈ t.log.lh ↔ b ∈ t.written) ∧
    ∀ b ∈ t.log.lh, t.log.lh.count b = 1 ∧ ∃ i c,
      (t.sys.cache.buf i).dev = dev ∧ (t.sys.cache.buf i).blockno = b ∧
      (t.sys.cache.buf i).valid = true ∧ (t.sys.cache.buf i).dirty = true ∧
      t.sys.cache.bget dev b = .ok (i, c) ∧
      ∀ j, j ≠ i → (t.sys.cache.buf j).dev = dev → (t.sys.cache.buf j).blockno = b →
        ¬(t.sys.cache.buf j).Live := by
  have hinv := txInv_of_reach (txInv_start (Sys.inv_of_reach hs₀) hl₀) ht
  refine ⟨hinv.nodup, hinv.logged, fun b hb => ⟨List.count_eq_one_of_mem hinv.nodup hb, ?_⟩⟩
  obtain ⟨i, ⟨hdev, hblk⟩, hv, hd, -⟩ := hinv.pinned b hb
  obtain ⟨order, ho⟩ := hinv.sys.ordered
  -- a dirty buffer is live: the first of its block, and the one `bget` finds
  have hlive : (t.sys.cache.buf i).Live := Or.inr (Or.inr hd)
  obtain ⟨c, hc⟩ := ho.bget_of_live hlive
  rw [hdev, hblk] at hc
  refine ⟨i, c, hdev, hblk, hv, hd, hc, fun j hji hjdev hjblk => ?_⟩
  exact ho.not_live_of_sameBlock hlive hji ⟨hdev.trans hjdev.symm, hblk.trans hjblk.symm⟩

/-- `log_write` called twice for block 5 leaves one header entry for it, and `bget(1, 5)` returns
its dirty buffer. -/
theorem log_absorption_loggedTwice :
    loggedTwice.written = [5, 5] ∧ loggedTwice.log.lh.count 5 = 1 ∧
      ∃ i c, (loggedTwice.sys.cache.buf i).dirty = true ∧ loggedTwice.sys.cache.bget 1 5 = .ok (i, c) := by
  obtain ⟨-, -, h⟩ := log_absorption 30 1 (fun _ _ _ => 0) .refl rfl loggedTwice_run
  obtain ⟨hcount, i, c, -, -, -, hd, hb, -⟩ := h 5 (by decide)
  exact ⟨rfl, hcount, i, c, hd, hb⟩

end Xv6.Log
