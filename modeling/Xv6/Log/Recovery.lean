import Xv6.Param
import Xv6.Lib.Crash
import Xv6.Lib.LittleEndian

/-!
The on-disk side of `log.c`: the header block, `write_log`, `write_head`,
`install_trans`, `commit` and `recover_from_log`, each as the list of atomic block writes
(`bwrite`) it performs.

Only the disk is modelled here. During `commit` the logged blocks sit pinned in the
buffer cache (`B_DIRTY`), and nothing else changes them, since `commit` runs with
`log.committing` set and `begin_op` admits no new operation; `write_log` reads their
contents from the cache, given as a function `cache`. Every other `bread` in these
routines returns what is on disk: `bwrite` writes through the cache, and after a crash
the cache is empty.
-/

namespace Xv6.Log

open Crash

/-- The disk: block number ↦ the block's bytes. -/
abbrev Disk := Nat → Block

/-- Where the log lives, `log.start` and `log.size`, as `initlog` reads them from the
superblock. Block `start` holds the header and blocks `start + 1 ..` the logged copies, so
the region has room at least for the header. -/
structure LogArea where
  start : Nat
  size : Nat
  hasHeader : 0 < size

/-- The log area of the disk `mkfs` builds: `sb.logstart = 2`, `sb.nlog = LOGSIZE`. -/
def mkfsLogArea : LogArea := ⟨2, LOGSIZE, by decide⟩

namespace LogArea

/-- The block holding the copy of `lh.block[tail]`: `log.start + tail + 1`. -/
def slot (lg : LogArea) (tail : Nat) : Nat := lg.start + tail + 1

/-- Block `b` lies in the log region `[log.start, log.start + log.size)`. -/
def InLog (lg : LogArea) (b : Nat) : Prop := lg.start ≤ b ∧ b < lg.start + lg.size

theorem slot_inLog {lg : LogArea} {tail : Nat} (h : tail + 1 < lg.size) : lg.InLog (lg.slot tail) := by
  simp only [InLog, slot]
  omega

theorem start_inLog (lg : LogArea) : lg.InLog lg.start := by
  have := lg.hasHeader
  simp only [InLog]
  omega

theorem ne_start_of_not_inLog {lg : LogArea} {x : Nat} (hx : ¬ lg.InLog x) : x ≠ lg.start :=
  fun h => hx (h ▸ lg.start_inLog)

end LogArea

/-! ### The header block

`struct logheader { int n; int block[LOGSIZE]; }` cast over the header block's bytes:
`n` in bytes `0..3`, `block[i]` in bytes `4 + 4i .. 7 + 4i`, little-endian. The in-memory
header is the list `lh.block[0..lh.n)`, so `lh.n` is its length. -/

/-- A 32-bit pattern read as a C `int`. -/
def toInt32 (v : Nat) : Int := if v < 2 ^ 31 then v else v - 2 ^ 32

/-- `lh->n` as `read_head` reads it. -/
def headerCount (blk : Block) : Int := toInt32 (LittleEndian.read blk.mem 0 4)

/-- What `read_head` copies into `log.lh`: `lh->block[i]` for `i < lh->n`. -/
def decodeHeader (blk : Block) : List Nat :=
  (List.range (headerCount blk).toNat).map fun i => LittleEndian.read blk.mem (4 + 4 * i) 4

/-- The loop of `write_head` that copies `log.lh.block[i]` into `hb->block[i]`. -/
def encodeEntries (m : Nat → UInt8) : List Nat → Nat → Nat → UInt8
  | [], _ => m
  | b :: bs, off => encodeEntries (LittleEndian.write m off 4 b) bs (off + 4)

/-- The header buffer after `write_head` sets `hb->n` and `hb->block[0..n)`; entries past
`n` keep whatever the block held. -/
def encodeHeader (blk : Block) (lh : List Nat) : Block :=
  Block.ofMem (encodeEntries (LittleEndian.write blk.mem 0 4 lh.length) lh 4)

theorem encodeEntries_apply_of_lt {m : Nat → UInt8} {lh : List Nat} {off x : Nat}
    (hx : x < off) : encodeEntries m lh off x = m x := by
  induction lh generalizing m off with
  | nil => rfl
  | cons b bs ih =>
      rw [encodeEntries, ih (by omega), LittleEndian.write_apply_of_not_mem b (by omega)]

theorem read_encodeEntries (m : Nat → UInt8) {lh : List Nat} (off : Nat) {i : Nat}
    (hi : i < lh.length) (hw : ∀ b ∈ lh, b < 2 ^ 32) :
    LittleEndian.read (encodeEntries m lh off) (off + 4 * i) 4 = lh[i] := by
  induction lh generalizing m off i with
  | nil => simp at hi
  | cons b bs ih =>
      cases i with
      | zero =>
          rw [encodeEntries, @LittleEndian.read_congr _ (LittleEndian.write m off 4 b) _ _
            (fun x _ hx => encodeEntries_apply_of_lt (by omega))]
          exact LittleEndian.read_write_of_lt (by simpa using hw b List.mem_cons_self)
      | succ i =>
          rw [encodeEntries, show off + 4 * (i + 1) = off + 4 + 4 * i by ring]
          exact ih _ _ (by simpa using hi) (fun c hc => hw c (List.mem_cons_of_mem b hc))

/-- The header codec: `read_head` reads back what `write_head` wrote, for a header that fits
the `LOGSIZE` array and block numbers that fit a `uint`. -/
theorem decodeHeader_encodeHeader (blk : Block) {lh : List Nat} (hlen : lh.length ≤ LOGSIZE)
    (hw : ∀ b ∈ lh, b < 2 ^ 32) : decodeHeader (encodeHeader blk lh) = lh := by
  set m := encodeEntries (LittleEndian.write blk.mem 0 4 lh.length) lh 4
  have hmem : ∀ x, x < 4 + 4 * lh.length → (Block.ofMem m).mem x = m x := by
    intro x hx
    exact Block.mem_ofMem (by simp only [LOGSIZE_eq] at hlen; simp only [BSIZE_eq]; omega)
  have hcount : headerCount (Block.ofMem m) = lh.length := by
    have hread : LittleEndian.read (Block.ofMem m).mem 0 4 = lh.length := by
      rw [@LittleEndian.read_congr _ (LittleEndian.write blk.mem 0 4 lh.length) _ _]
      · exact LittleEndian.read_write_of_lt (by simp only [LOGSIZE_eq] at hlen; omega)
      · intro x _ hx
        rw [hmem x (by omega)]
        exact encodeEntries_apply_of_lt (by omega)
    rw [headerCount, hread, toInt32, if_pos (by simp only [LOGSIZE_eq] at hlen; omega)]
  change decodeHeader (Block.ofMem m) = lh
  apply List.ext_getElem
  · simp [decodeHeader, hcount]
  · intro i h1 h2
    have hi : i < lh.length := h2
    simp only [decodeHeader, List.getElem_map, List.getElem_range]
    rw [@LittleEndian.read_congr _ m _ _ (fun x _ hx => hmem x (by omega))]
    exact read_encodeEntries _ 4 hi hw

/-- Writing an empty header twice is writing it once: only `hb->n` is written. -/
theorem encodeHeader_encodeHeader_nil (blk : Block) :
    encodeHeader (encodeHeader blk []) [] = encodeHeader blk [] := by
  simp only [encodeHeader, encodeEntries, List.length_nil]
  congr 1
  apply LittleEndian.write_congr
  intro x hx
  by_cases hb : x < BSIZE
  · rw [Block.mem_ofMem hb, LittleEndian.write_apply_of_not_mem 0 hx]
  · rw [Block.mem_of_le (Nat.le_of_not_lt hb), Block.mem_of_le (Nat.le_of_not_lt hb)]

/-! ### The log routines as atomic writes -/

/-- `read_head`: the transaction the on-disk header records. -/
def readHead (lg : LogArea) (d : Disk) : List Nat := decodeHeader (d lg.start)

/-- `write_head` with `log.lh` holding `lh`: one `bwrite` of the header block. -/
def writeHead (lg : LogArea) (lh : List Nat) (d : Disk) : Disk :=
  Function.update d lg.start (encodeHeader (d lg.start) lh)

/-- `install_trans`: for `tail = 0 .. n-1`, copy log block `start + tail + 1` over
`lh.block[tail]`. The second argument is the loop index of the first block of the list. -/
def installTrans (lg : LogArea) : List Nat → Nat → List (Disk → Disk)
  | [], _ => []
  | b :: bs, tail =>
      (fun d => Function.update d b (d (lg.slot tail))) :: installTrans lg bs (tail + 1)

/-- `write_log`: copy the cached contents of each logged block into its log block. -/
def writeLog (lg : LogArea) (cache : Nat → Block) : List Nat → Nat → List (Disk → Disk)
  | [], _ => []
  | b :: bs, tail =>
      (fun d => Function.update d (lg.slot tail) (cache b)) :: writeLog lg cache bs (tail + 1)

/-- `commit`: the log copies, the header (the commit point), the installs, and the header
again with `lh.n = 0`. Nothing is written for an empty transaction. -/
def commit (lg : LogArea) (cache : Nat → Block) (lh : List Nat) : List (Disk → Disk) :=
  if 0 < lh.length then
    writeLog lg cache lh 0 ++ writeHead lg lh :: (installTrans lg lh 0 ++ [writeHead lg []])
  else []

/-- The writes of `recover_from_log`, which reads the header once, before any of them. -/
def recoverSteps (lg : LogArea) (d : Disk) : List (Disk → Disk) :=
  installTrans lg (readHead lg d) 0 ++ [writeHead lg []]

/-- `recover_from_log`: `read_head; install_trans; log.lh.n = 0; write_head`. -/
def recoverFromLog (lg : LogArea) (d : Disk) : Disk := run (recoverSteps lg d) d

/-! ### What each routine writes -/

theorem writeHead_apply_of_ne {lg : LogArea} {lh : List Nat} {d : Disk} {x : Nat}
    (hx : x ≠ lg.start) : writeHead lg lh d x = d x :=
  Function.update_of_ne hx _ _

theorem readHead_writeHead (lg : LogArea) {lh : List Nat} (d : Disk) (hlen : lh.length ≤ LOGSIZE)
    (hw : ∀ b ∈ lh, b < 2 ^ 32) : readHead lg (writeHead lg lh d) = lh := by
  rw [readHead, writeHead, Function.update_self, decodeHeader_encodeHeader _ hlen hw]

@[simp] theorem readHead_writeHead_nil (lg : LogArea) (d : Disk) :
    readHead lg (writeHead lg [] d) = [] :=
  readHead_writeHead lg d (by simp) (by simp)

theorem writeHead_writeHead_nil (lg : LogArea) (d : Disk) :
    writeHead lg [] (writeHead lg [] d) = writeHead lg [] d := by
  simp only [writeHead, Function.update_self, encodeHeader_encodeHeader_nil, Function.update_idem]

/-- The header of a zeroed disk, as `mkfs` leaves it, records no transaction. -/
theorem readHead_zero (lg : LogArea) : readHead lg (fun _ _ => 0) = [] := by
  show decodeHeader (fun _ => 0) = []
  decide

@[simp] theorem length_writeLog (lg : LogArea) (cache : Nat → Block) (bs : List Nat) (tail : Nat) :
    (writeLog lg cache bs tail).length = bs.length := by
  induction bs generalizing tail with
  | nil => rfl
  | cons b bs ih => simp [writeLog, ih]

@[simp] theorem length_installTrans (lg : LogArea) (bs : List Nat) (tail : Nat) :
    (installTrans lg bs tail).length = bs.length := by
  induction bs generalizing tail with
  | nil => rfl
  | cons b bs ih => simp [installTrans, ih]

/-- A crash in the middle of `install_trans` has installed a prefix of the transaction. -/
theorem writeLog_take (lg : LogArea) (cache : Nat → Block) (bs : List Nat) (tail m : Nat) :
    (writeLog lg cache bs tail).take m = writeLog lg cache (bs.take m) tail := by
  induction bs generalizing tail m with
  | nil => simp [writeLog]
  | cons b bs ih =>
      cases m with
      | zero => simp [writeLog]
      | succ m => simp [writeLog, ih]

theorem installTrans_take (lg : LogArea) (bs : List Nat) (tail m : Nat) :
    (installTrans lg bs tail).take m = installTrans lg (bs.take m) tail := by
  induction bs generalizing tail m with
  | nil => simp [installTrans]
  | cons b bs ih =>
      cases m with
      | zero => simp [installTrans]
      | succ m => simp [installTrans, ih]

theorem run_writeLog_apply {lg : LogArea} {cache : Nat → Block} {bs : List Nat} {tail : Nat}
    {x : Nat} (hx : ∀ j < bs.length, x ≠ lg.slot (tail + j)) (d : Disk) :
    run (writeLog lg cache bs tail) d x = d x := by
  induction bs generalizing tail d with
  | nil => rfl
  | cons b bs ih =>
      have h0 : x ≠ lg.slot tail := by simpa using hx 0 (by simp)
      rw [writeLog, run_cons, ih, Function.update_of_ne h0]
      intro j hj
      rw [show tail + 1 + j = tail + (j + 1) by omega]
      exact hx (j + 1) (by simpa using hj)

/-- After `write_log`, log block `start + tail + i + 1` holds the cached `lh.block[i]`. -/
theorem run_writeLog_slot (lg : LogArea) (cache : Nat → Block) {bs : List Nat} (tail : Nat)
    {i : Nat} (hi : i < bs.length) (d : Disk) :
    run (writeLog lg cache bs tail) d (lg.slot (tail + i)) = cache bs[i] := by
  induction bs generalizing tail i d with
  | nil => simp at hi
  | cons b bs ih =>
      rw [writeLog, run_cons]
      cases i with
      | zero =>
          rw [run_writeLog_apply, Nat.add_zero, Function.update_self]
          · rfl
          · intro j _
            simp only [LogArea.slot]
            omega
      | succ i =>
          rw [show tail + (i + 1) = tail + 1 + i by omega]
          exact ih (tail + 1) (by simpa using hi) _

theorem run_installTrans_apply_of_not_mem {lg : LogArea} {bs : List Nat} {x : Nat}
    (hx : x ∉ bs) (tail : Nat) (d : Disk) : run (installTrans lg bs tail) d x = d x := by
  induction bs generalizing tail d with
  | nil => rfl
  | cons b bs ih =>
      have hne : x ≠ b := fun h => hx (h ▸ List.mem_cons_self)
      rw [installTrans, run_cons, ih (fun h => hx (List.mem_cons_of_mem b h)),
        Function.update_of_ne hne]

/-- After `install_trans`, each logged block holds the copy from its log block, provided
no logged block is itself one of the log blocks being read. -/
theorem run_installTrans_getElem {lg : LogArea} {bs : List Nat} (hnd : bs.Nodup) {tail : Nat}
    (hslot : ∀ b ∈ bs, ∀ j < bs.length, b ≠ lg.slot (tail + j)) {i : Nat} (hi : i < bs.length)
    (d : Disk) : run (installTrans lg bs tail) d bs[i] = d (lg.slot (tail + i)) := by
  induction bs generalizing tail i d with
  | nil => simp at hi
  | cons b bs ih =>
      rw [List.nodup_cons] at hnd
      rw [installTrans, run_cons]
      cases i with
      | zero =>
          rw [List.getElem_cons_zero, run_installTrans_apply_of_not_mem hnd.1,
            Function.update_self, Nat.add_zero]
      | succ i =>
          have hi' : i < bs.length := by simpa using hi
          have hne : bs[i] ≠ b := fun h => hnd.1 (h ▸ List.getElem_mem _)
          rw [List.getElem_cons_succ, ih hnd.2 _ hi',
            Function.update_of_ne, show tail + 1 + i = tail + (i + 1) by omega]
          · have := hslot b List.mem_cons_self (i + 1) (by simpa using hi)
            rw [show tail + 1 + i = tail + (i + 1) by omega]
            exact Ne.symm this
          · intro c hc j hj
            rw [show tail + 1 + j = tail + (j + 1) by omega]
            exact hslot c (List.mem_cons_of_mem b hc) (j + 1) (by simpa using hj)

end Xv6.Log
