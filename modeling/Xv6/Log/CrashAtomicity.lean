import Xv6.Log.Recovery

/-!
Crash atomicity of the write-ahead log.

A crash can stop `commit` after any number of its block writes. The disk it leaves is in
one of three phases: the log copies are being written and the header still records no
transaction; the header has been written (the commit point) and the installs are under
way; or everything is done and the header is clear again. `recover_from_log` takes each
phase to the disk before the transaction or to the disk after it, and a crash during
recovery changes nothing about where recovery ends.

The argument rests on the blocks of the transaction lying outside the log region: the
installs then never touch the header or a log copy, and recovery can always re-read
them. This is what `log_write`'s callers guarantee, since they only log bitmap, inode and
data blocks, all past the log in the layout `mkfs` writes.
-/

namespace Xv6.Log

open Crash

/-- The headers `commit` writes: the distinct block numbers of `lh.block[0..n)`, at most
`log.size - 1` of them so that their copies fit after the header, within the `LOGSIZE`
array, each a `uint` block number outside the log region. -/
structure LogArea.Fits (lg : LogArea) (lh : List Nat) : Prop where
  nodup : lh.Nodup
  fits : lh.length ≤ lg.size - 1
  bounded : lh.length ≤ LOGSIZE
  home : ∀ b ∈ lh, ¬ lg.InLog b
  word : ∀ b ∈ lh, b < 2 ^ 32

/-- A transaction as `commit` finds it in `log.lh`. -/
structure Txn (lg : LogArea) where
  block : List Nat
  fits : lg.Fits block

/-- The disk after the transaction: every logged block at its cached contents. -/
def Txn.post {lg : LogArea} (t : Txn lg) (cache : Nat → Block) (d : Disk) : Disk :=
  fun x => if x ∈ t.block then cache x else d x

theorem LogArea.fits_nil (lg : LogArea) : lg.Fits [] :=
  ⟨List.nodup_nil, by simp, by simp, by simp, by simp⟩

namespace LogArea.Fits

variable {lg : LogArea} {lh : List Nat}

/-- No logged block is one of the log blocks its copies go to. -/
theorem ne_slot (h : lg.Fits lh) {b : Nat} (hb : b ∈ lh) {j : Nat} (hj : j < lh.length) :
    b ≠ lg.slot j := by
  intro hbj
  apply h.home b hb
  rw [hbj]
  exact LogArea.slot_inLog (by have := h.fits; omega)

theorem ne_start (h : lg.Fits lh) {b : Nat} (hb : b ∈ lh) : b ≠ lg.start :=
  fun hbs => h.home b hb (hbs ▸ lg.start_inLog)

/-- The log blocks are neither the header nor outside the log region. -/
theorem slot_ne_start (lg : LogArea) (j : Nat) : lg.slot j ≠ lg.start := by
  simp only [LogArea.slot]
  omega

theorem readHead_writeHead (h : lg.Fits lh) (d : Disk) : readHead lg (writeHead lg lh d) = lh :=
  Xv6.Log.readHead_writeHead lg d h.bounded h.word

/-- Installing a prefix of the transaction leaves the header, the log blocks and every
block outside the transaction as they were. -/
theorem run_installTrans_take_apply (h : lg.Fits lh) (m : Nat) (d : Disk)
    {x : Nat} (hx : x = lg.start ∨ (∃ j < lh.length, x = lg.slot j) ∨ x ∉ lh) :
    run (installTrans lg (lh.take m) 0) d x = d x := by
  apply run_installTrans_apply_of_not_mem
  intro hmem
  have hmem' := List.mem_of_mem_take hmem
  rcases hx with rfl | ⟨j, hj, rfl⟩ | hx
  · exact h.ne_start hmem' rfl
  · exact h.ne_slot hmem' hj rfl
  · exact hx hmem'

end LogArea.Fits

/-! ### The phases of `commit` -/

/-- The disks a crash during `commit` of transaction `t` can leave, starting from `d`. -/
inductive CommitPhase {lg : LogArea} (t : Txn lg) (cache : Nat → Block) (d : Disk) :
    Disk → Prop
  /-- Before the commit point: the header records nothing, and outside the log region
  nothing has changed. -/
  | logging {D : Disk} (hhead : readHead lg D = [])
      (hout : ∀ x, ¬ lg.InLog x → D x = d x) : CommitPhase t cache d D
  /-- After the commit point: the header records `t`, its copies are in the log, and
  outside the log region only logged blocks may have changed. -/
  | installing {D : Disk} (hhead : readHead lg D = t.block)
      (hslot : ∀ i (hi : i < t.block.length), D (lg.slot i) = cache t.block[i])
      (hout : ∀ x, ¬ lg.InLog x → x ∉ t.block → D x = d x) : CommitPhase t cache d D
  /-- After `commit` returned: the header is clear and the transaction is home. -/
  | done {D : Disk} (hhead : readHead lg D = [])
      (hout : ∀ x, ¬ lg.InLog x → D x = t.post cache d x) : CommitPhase t cache d D

section Phases

variable {lg : LogArea} {t : Txn lg} {cache : Nat → Block} {d : Disk}

/-- Installing every copy from a disk past the commit point puts the transaction home. -/
theorem CommitPhase.run_installTrans {D : Disk}
    (hD : CommitPhase t cache d D) (hphase : readHead lg D = t.block) {x : Nat}
    (hx : ¬ lg.InLog x) : run (installTrans lg t.block 0) D x = t.post cache d x := by
  cases hD with
  | logging hhead hout =>
      -- the header is clear, so the transaction is empty
      have hnil : t.block = [] := hphase.symm.trans hhead
      rw [hnil, installTrans, run_nil, hout x hx, Txn.post, if_neg (by simp [hnil])]
  | done hhead hout =>
      have hnil : t.block = [] := hphase.symm.trans hhead
      rw [hnil, installTrans, run_nil, hout x hx]
  | installing _ hslot hout =>
      by_cases hmem : x ∈ t.block
      · obtain ⟨i, hi, rfl⟩ := List.getElem_of_mem hmem
        rw [run_installTrans_getElem t.fits.nodup
            (fun b hb j hj => by simpa using t.fits.ne_slot hb hj) hi, Nat.zero_add, hslot i hi,
          Txn.post, if_pos hmem]
      · rw [run_installTrans_apply_of_not_mem hmem, hout x hx hmem, Txn.post, if_neg hmem]

/-- The header `commit` writes, the commit point, survives every prefix of the installs. -/
theorem readHead_commitPoint (j : Nat) :
    readHead lg (run (installTrans lg (t.block.take j) 0)
      (writeHead lg t.block (run (writeLog lg cache t.block 0) d))) = t.block := by
  rw [readHead, t.fits.run_installTrans_take_apply j _ (Or.inl rfl)]
  exact t.fits.readHead_writeHead _

/-- Past the commit point: after the header write, and after any prefix of the installs,
the disk is in the installing phase. -/
theorem installing_of_commitPoint (j : Nat) :
    CommitPhase t cache d
      (run (installTrans lg (t.block.take j) 0)
        (writeHead lg t.block (run (writeLog lg cache t.block 0) d))) := by
  have hslots : ∀ i < t.block.length, lg.slot i ≠ lg.start := fun i _ =>
    LogArea.Fits.slot_ne_start lg i
  refine CommitPhase.installing (readHead_commitPoint j) ?_ ?_
  · intro i hi
    rw [t.fits.run_installTrans_take_apply j _ (Or.inr (Or.inl ⟨i, hi, rfl⟩)),
      writeHead_apply_of_ne (hslots i hi)]
    simpa using run_writeLog_slot lg cache 0 hi d
  · intro x hx hmem
    have hstart : x ≠ lg.start := LogArea.ne_start_of_not_inLog hx
    rw [t.fits.run_installTrans_take_apply j _ (Or.inr (Or.inr hmem)),
      writeHead_apply_of_ne hstart]
    apply run_writeLog_apply
    intro i hi hxi
    exact hx (hxi ▸ LogArea.slot_inLog (by have := t.fits.fits; omega))

/-- A crash before the header write, the commit point: the header records nothing and outside
the log region nothing has changed. -/
theorem uncommitted_crashAfter (hclean : readHead lg d = []) {k : Nat} (hk : k ≤ t.block.length) :
    readHead lg (crashAfter k (commit lg cache t.block) d) = [] ∧
      ∀ x, ¬ lg.InLog x → crashAfter k (commit lg cache t.block) d x = d x := by
  by_cases hN : t.block.length = 0
  · -- an empty transaction writes nothing
    rw [commit, if_neg (by omega), crashAfter, List.take_nil, run_nil]
    exact ⟨hclean, fun _ _ => rfl⟩
  -- the crash came while `write_log` was copying: the header is untouched
  have hsize : t.block.length + 1 ≤ lg.size := by have := t.fits.fits; omega
  rw [commit, if_pos (by omega), crashAfter_append_of_le (by simpa using hk), crashAfter, writeLog_take]
  have hslot : ∀ x, (x = lg.start ∨ ¬ lg.InLog x) →
      run (writeLog lg cache (t.block.take k) 0) d x = d x := by
    rintro x hx
    apply run_writeLog_apply
    intro j hj hxj
    rcases hx with rfl | hx
    · exact LogArea.Fits.slot_ne_start lg (0 + j) hxj.symm
    · exact hx (hxj ▸ LogArea.slot_inLog (by simp at hj; omega))
  refine ⟨?_, fun x hx => hslot x (Or.inr hx)⟩
  rw [readHead, hslot lg.start (Or.inl rfl)]
  exact hclean

/-- A crash after the header write: the header and a prefix of the installs reached the disk,
or all of `commit` did. -/
theorem crashAfter_commit_of_lt {k : Nat} (hk : t.block.length < k) :
    (∃ j, crashAfter k (commit lg cache t.block) d =
        run (installTrans lg (t.block.take j) 0)
          (writeHead lg t.block (run (writeLog lg cache t.block 0) d))) ∨
      crashAfter k (commit lg cache t.block) d = run (commit lg cache t.block) d := by
  by_cases hN : t.block.length = 0
  · -- an empty transaction writes nothing
    exact .inr (crashAfter_of_length_le (by rw [commit, if_neg (by omega)]; simp) d)
  replace hN : 0 < t.block.length := by omega
  obtain ⟨j, rfl⟩ : ∃ j, k = (writeLog lg cache t.block 0).length + (j + 1) :=
    ⟨k - t.block.length - 1, by simp; omega⟩
  by_cases hj : j ≤ t.block.length
  · refine .inl ⟨j, ?_⟩
    rw [commit, if_pos hN, crashAfter_append_add, crashAfter_succ_cons,
      crashAfter_append_of_le (by simpa using hj), crashAfter, installTrans_take]
  · exact .inr (crashAfter_of_length_le (by rw [commit, if_pos hN]; simp; omega) d)

/-- `commit` run to its end: the header is clear again and the transaction is home. -/
theorem commit_done (hclean : readHead lg d = []) :
    readHead lg (run (commit lg cache t.block) d) = [] ∧
      ∀ x, ¬ lg.InLog x → run (commit lg cache t.block) d x = t.post cache d x := by
  by_cases hN : t.block.length = 0
  · -- an empty transaction writes nothing and has nothing to put home
    have hnil : t.block = [] := List.eq_nil_of_length_eq_zero hN
    rw [commit, if_neg (by omega), run_nil]
    exact ⟨hclean, fun x _ => by rw [Txn.post, if_neg (by simp [hnil])]⟩
  replace hN : 0 < t.block.length := by omega
  have hD1 : CommitPhase t cache d _ := installing_of_commitPoint 0
  rw [List.take_zero, installTrans, run_nil] at hD1
  rw [commit, if_pos hN, run_append, run_cons, run_append, run_cons, run_nil]
  refine ⟨readHead_writeHead_nil _ _, fun x hx => ?_⟩
  rw [writeHead_apply_of_ne (LogArea.ne_start_of_not_inLog hx)]
  exact hD1.run_installTrans (t.fits.readHead_writeHead _) hx

/-- Every crash point of `commit`: the disk left after any number `k` of its writes is in
one of the three phases. -/
theorem commitPhase_crashAfter (hclean : readHead lg d = []) (k : Nat) :
    CommitPhase t cache d (crashAfter k (commit lg cache t.block) d) := by
  by_cases hk : k ≤ t.block.length
  · exact CommitPhase.logging (uncommitted_crashAfter hclean hk).1 (uncommitted_crashAfter hclean hk).2
  -- the header write, the commit point, has reached the disk
  rcases crashAfter_commit_of_lt (Nat.lt_of_not_le hk) with ⟨j, hD⟩ | hD
  · rw [hD]
    exact installing_of_commitPoint j
  · rw [hD]
    exact CommitPhase.done (commit_done hclean).1 (commit_done hclean).2

/-- `recover_from_log` is `install_trans` of the header it reads, then the header cleared. -/
theorem recoverFromLog_eq (lg : LogArea) (D : Disk) :
    recoverFromLog lg D = writeHead lg [] (run (installTrans lg (readHead lg D) 0) D) := by
  rw [recoverFromLog, recoverSteps, run_append, run_cons, run_nil]

theorem recoverFromLog_apply {lg : LogArea} (D : Disk) {x : Nat} (hx : ¬ lg.InLog x) :
    recoverFromLog lg D x = run (installTrans lg (readHead lg D) 0) D x := by
  rw [recoverFromLog_eq, writeHead_apply_of_ne (LogArea.ne_start_of_not_inLog hx)]

/-- Durability: once the header write, the commit point, has reached the disk, recovery puts
the transaction home, whatever of the installs the crash cut off. -/
theorem recoverFromLog_committed (hclean : readHead lg d = []) {k : Nat} (hk : t.block.length < k)
    {x : Nat} (hx : ¬ lg.InLog x) :
    recoverFromLog lg (crashAfter k (commit lg cache t.block) d) x = t.post cache d x := by
  rcases crashAfter_commit_of_lt hk with ⟨j, hD⟩ | hD
  · -- recovery installs the transaction the header records from its copies
    rw [hD, recoverFromLog_apply _ hx, readHead_commitPoint j]
    exact (installing_of_commitPoint j).run_installTrans (readHead_commitPoint j) hx
  · -- `commit` finished, and recovery finds the header clear
    obtain ⟨hhead, hout⟩ : readHead lg (run (commit lg cache t.block) d) = [] ∧
        ∀ x, ¬ lg.InLog x → run (commit lg cache t.block) d x = t.post cache d x := commit_done hclean
    rw [hD, recoverFromLog_apply _ hx, hhead, installTrans, run_nil, hout x hx]

/-- Before the commit point, recovery leaves the disk as before the transaction. -/
theorem recoverFromLog_uncommitted (hclean : readHead lg d = []) {k : Nat}
    (hk : k ≤ t.block.length) {x : Nat} (hx : ¬ lg.InLog x) :
    recoverFromLog lg (crashAfter k (commit lg cache t.block) d) x = d x := by
  obtain ⟨hhead, hout⟩ : readHead lg (crashAfter k (commit lg cache t.block) d) = [] ∧
      ∀ x, ¬ lg.InLog x → crashAfter k (commit lg cache t.block) d x = d x :=
    uncommitted_crashAfter hclean hk
  rw [recoverFromLog_apply _ hx, hhead, installTrans, run_nil, hout x hx]

/-- Recovery from any phase of `commit`: outside the log region the disk is as before the
transaction, or as after it. -/
theorem CommitPhase.recoverFromLog {D : Disk} (hD : CommitPhase t cache d D) :
    (∀ x, ¬ lg.InLog x → recoverFromLog lg D x = d x) ∨
      ∀ x, ¬ lg.InLog x → recoverFromLog lg D x = t.post cache d x := by
  cases hD with
  | logging hhead hout =>
      left
      intro x hx
      rw [recoverFromLog_apply D hx, hhead, installTrans, run_nil, hout x hx]
  | installing hhead hslot hout =>
      right
      intro x hx
      rw [recoverFromLog_apply D hx, hhead]
      exact (CommitPhase.installing hhead hslot hout).run_installTrans hhead hx
  | done hhead hout =>
      right
      intro x hx
      rw [recoverFromLog_apply D hx, hhead, installTrans, run_nil, hout x hx]

end Phases

/-! ### Recovery is idempotent -/

theorem readHead_recoverFromLog (lg : LogArea) (D : Disk) : readHead lg (recoverFromLog lg D) = [] := by
  rw [recoverFromLog_eq, readHead_writeHead_nil]

/-- A crash during `recover_from_log`, then recovery again, ends where one recovery ends. -/
theorem recoverFromLog_crashAfter {lg : LogArea} {D : Disk} (hD : lg.Fits (readHead lg D))
    (j : Nat) :
    recoverFromLog lg (crashAfter j (recoverSteps lg D) D) = recoverFromLog lg D := by
  by_cases hj : j ≤ (readHead lg D).length
  · -- a prefix of the installs reached the disk; the header and the log copies are intact
    rw [recoverSteps, crashAfter_append_of_le (by simpa using hj), crashAfter, installTrans_take]
    have hhead : readHead lg (run (installTrans lg ((readHead lg D).take j) 0) D) = readHead lg D := by
      rw [readHead, hD.run_installTrans_take_apply j D (Or.inl rfl)]
      rfl
    rw [recoverFromLog_eq, recoverFromLog_eq, hhead]
    congr 1
    funext x
    by_cases hmem : x ∈ readHead lg D
    · obtain ⟨i, hi, rfl⟩ := List.getElem_of_mem hmem
      have hslot : ∀ b ∈ readHead lg D, ∀ k < (readHead lg D).length, b ≠ lg.slot (0 + k) :=
        fun b hb k hk => by simpa using hD.ne_slot hb hk
      rw [run_installTrans_getElem hD.nodup hslot hi, run_installTrans_getElem hD.nodup hslot hi,
        hD.run_installTrans_take_apply j D (Or.inr (Or.inl ⟨0 + i, by omega, rfl⟩))]
    · rw [run_installTrans_apply_of_not_mem hmem, run_installTrans_apply_of_not_mem hmem,
        hD.run_installTrans_take_apply j D (Or.inr (Or.inr hmem))]
  · -- recovery finished; the header it left is clear, so recovery only clears it again
    rw [crashAfter_of_length_le (by simp [recoverSteps]; omega)]
    change recoverFromLog lg (recoverFromLog lg D) = recoverFromLog lg D
    rw [recoverFromLog_eq lg (recoverFromLog lg D), readHead_recoverFromLog, installTrans, run_nil,
      recoverFromLog_eq, writeHead_writeHead_nil]

theorem CommitPhase.fits_readHead {lg : LogArea} {t : Txn lg} {cache : Nat → Block} {d D : Disk}
    (hD : CommitPhase t cache d D) : lg.Fits (readHead lg D) := by
  cases hD with
  | logging hhead _ => rw [hhead]; exact lg.fits_nil
  | installing hhead _ _ => rw [hhead]; exact t.fits
  | done hhead _ => rw [hhead]; exact lg.fits_nil

/-- Crash atomicity of `commit`. Whatever number `k` of its block writes reach the disk
before a crash, `recover_from_log` leaves every block outside the log region at its
contents before the transaction, or every one at its contents after it: before, when the
crash came during `write_log`, and after, once the header write reached the disk. A second
crash at any point `j` of that recovery, followed by another recovery, ends the same. -/
theorem commit_crash_atomic (lg : LogArea) (t : Txn lg) (cache : Nat → Block) (d : Disk)
    (hclean : readHead lg d = []) (k : Nat) :
    ((∀ x, ¬ lg.InLog x → recoverFromLog lg (crashAfter k (commit lg cache t.block) d) x = d x) ∨
      ∀ x, ¬ lg.InLog x →
        recoverFromLog lg (crashAfter k (commit lg cache t.block) d) x = t.post cache d x) ∧
    (k ≤ t.block.length → ∀ x, ¬ lg.InLog x →
      recoverFromLog lg (crashAfter k (commit lg cache t.block) d) x = d x) ∧
    (t.block.length < k → ∀ x, ¬ lg.InLog x →
      recoverFromLog lg (crashAfter k (commit lg cache t.block) d) x = t.post cache d x) ∧
    ∀ j, recoverFromLog lg (crashAfter j (recoverSteps lg (crashAfter k (commit lg cache t.block) d))
        (crashAfter k (commit lg cache t.block) d)) =
      recoverFromLog lg (crashAfter k (commit lg cache t.block) d) := by
  have hphase : CommitPhase t cache d (crashAfter k (commit lg cache t.block) d) :=
    commitPhase_crashAfter hclean k
  exact ⟨hphase.recoverFromLog, fun hk _ hx => recoverFromLog_uncommitted hclean hk hx,
    fun hk _ hx => recoverFromLog_committed hclean hk hx, recoverFromLog_crashAfter hphase.fits_readHead⟩

/-- A one-block transaction on the `mkfs` layout: block 100, cached as all ones. -/
def oneBlockTxn : Txn mkfsLogArea :=
  ⟨[100], ⟨by decide, by decide, by decide, by simp [LogArea.InLog, mkfsLogArea], by simp⟩⟩

/-- A crash right after the header write of `oneBlockTxn`: recovery puts block 100 home, at its
cached contents. -/
theorem commit_crash_atomic_oneBlock :
    recoverFromLog mkfsLogArea
        (crashAfter 2 (commit mkfsLogArea (fun _ _ => 1) oneBlockTxn.block) fun _ _ => 0) 100 =
      fun _ => 1 :=
  (commit_crash_atomic mkfsLogArea oneBlockTxn (fun _ _ => 1) (fun _ _ => 0) (readHead_zero _) 2).2.2.1
    (by decide) 100 (by simp [LogArea.InLog, mkfsLogArea])

end Xv6.Log
