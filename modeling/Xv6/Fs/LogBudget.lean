import Xv6.Fs.FileBytes

/-!
# The blocks one `writei` logs

`filewrite` splits a write into chunks of `((MAXOPBLOCKS-1-1-2)/2) * BSIZE` bytes and gives each
its own `begin_op`/`end_op`, whose admission reserves `MAXOPBLOCKS` header entries for it. What
makes the reservation enough is that one chunk's `writei` passes at most `MAXOPBLOCKS` distinct
blocks to `log_write`.

`log_write` absorbs a block already in the header, so what a call leaves is the header it found
with new blocks appended, each once (`Logs`). `balloc` logs the bitmap block and the block it
hands out, `bmap` those and the indirect block, and each pass of `writei`'s loop the data block it
writes: the bitmap block once, two blocks a pass and the inode's block (`writei_logs`). A chunk
makes at most four passes.
-/

namespace Xv6.Fs

open Xv6.Mkfs (nlog)

/-- Over `d`, the log header of `d'` is `d`'s with new blocks appended, each once, all of them
in `S`. -/
def Logs (S : Finset Nat) (d d' : Disk) : Prop :=
  ∃ l, d'.log.lh = d.log.lh ++ l ∧ l.Nodup ∧ ∀ x ∈ l, x ∉ d.log.lh ∧ x ∈ S

section Logs

variable {S T : Finset Nat} {d d₁ d₂ : Disk}

theorem Logs.refl (S : Finset Nat) (d : Disk) : Logs S d d :=
  ⟨[], (List.append_nil _).symm, List.nodup_nil, nofun⟩

theorem Logs.mono (h : Logs S d d₁) (hST : S ⊆ T) : Logs T d d₁ := by
  obtain ⟨l, hl, hnd, hx⟩ := h
  exact ⟨l, hl, hnd, fun x hmem => ⟨(hx x hmem).1, hST (hx x hmem).2⟩⟩

theorem Logs.trans (h₁ : Logs S d d₁) (h₂ : Logs T d₁ d₂) : Logs (S ∪ T) d d₂ := by
  obtain ⟨l₁, hl₁, hnd₁, hx₁⟩ := h₁
  obtain ⟨l₂, hl₂, hnd₂, hx₂⟩ := h₂
  -- what the second call appends is in neither the first header nor what the first appended
  have hnew : ∀ x ∈ l₂, x ∉ d.log.lh ∧ x ∉ l₁ := fun x hx => by
    have := (hx₂ x hx).1
    rw [hl₁, List.mem_append, not_or] at this
    exact this
  refine ⟨l₁ ++ l₂, by rw [hl₂, hl₁, List.append_assoc], ?_, fun x hx => ?_⟩
  · exact List.nodup_append.mpr ⟨hnd₁, hnd₂, fun a ha b hb hab => (hnew b hb).2 (hab ▸ ha)⟩
  · rcases List.mem_append.mp hx with hx | hx
    · exact ⟨(hx₁ x hx).1, Finset.mem_union_left _ (hx₁ x hx).2⟩
    · exact ⟨(hnew x hx).1, Finset.mem_union_right _ (hx₂ x hx).2⟩

/-- The header grows by at most the number of blocks it may take. -/
theorem Logs.length_le (h : Logs S d d₁) : d₁.log.lh.length ≤ d.log.lh.length + S.card := by
  obtain ⟨l, hl, hnd, hx⟩ := h
  have hsub : l.toFinset ⊆ S := fun x hmem => (hx x (List.mem_toFinset.mp hmem)).2
  have hlen : l.length = l.toFinset.card := (List.toFinset_card_of_nodup hnd).symm
  rw [hl, List.length_append, hlen]
  exact Nat.add_le_add_left (Finset.card_le_card hsub) _

end Logs

/-! ### What each call logs -/

section Calls

variable {d d' : Disk} {ip ip' : Inode}

/-- `log_write` of `b`: `b` appended unless the header has it. -/
theorem logWrite_logs {s l : Log.LogState} {b : Nat} (h : Log.logWrite nlog s b = .ok l) :
    ∃ xs, l.lh = s.lh ++ xs ∧ xs.Nodup ∧ ∀ x ∈ xs, x ∉ s.lh ∧ x ∈ ({b} : Finset Nat) := by
  unfold Log.logWrite at h
  split_ifs at h
  cases h
  unfold Log.absorb
  split_ifs with hb
  · exact ⟨[], (List.append_nil _).symm, List.nodup_nil, nofun⟩
  · refine ⟨[b], rfl, List.nodup_singleton b, fun x hx => ?_⟩
    rw [List.mem_singleton.mp hx]
    exact ⟨hb, Finset.mem_singleton_self b⟩

theorem write_logs {b : Nat} {blk : Block} (h : d.write b blk = .ok d') : Logs {b} d d' := by
  obtain ⟨l, hl, rfl⟩ := (Except.map_eq_ok _ _ _).mp h
  exact logWrite_logs hl

theorem iupdate_logs (h : d.iupdate ip = .ok d') : Logs {IBLOCK ip.inum} d d' := by
  obtain ⟨l, hl, rfl⟩ := (Except.map_eq_ok _ _ _).mp h
  exact logWrite_logs hl

/-- `balloc` logs the bitmap block, the one block of this disk's bitmap, and the block it
hands out. -/
theorem balloc_logs {a : Nat} (h : balloc sb d = .ok (a, d')) : Logs {Mkfs.bmapstart, a} d d' := by
  -- `sb.size ≤ BPB`: the loop makes one pass, at `b = 0`
  change ballocLoop sb d 1 0 = _ at h
  rw [ballocLoop] at h
  split at h
  · obtain ⟨d₁, h₁, h⟩ := (Except.bind_eq_ok _ _ _).mp h
    obtain ⟨d₂, h₂, h⟩ := (Except.bind_eq_ok _ _ _).mp h
    simp only [Except.pure_eq_ok, Prod.mk.injEq] at h
    obtain ⟨rfl, rfl⟩ := h
    have hbm : BBLOCK 0 sb = Mkfs.bmapstart := BBLOCK_eq (by decide)
    rw [hbm] at h₁
    exact (write_logs h₁).trans (write_logs h₂)
  · simp [ballocLoop] at h

/-- The first half of `bmap` past the direct blocks, whatever follows it: the indirect block,
allocated when there is none, with the bitmap block. -/
theorem indirect_logs {β : Type} {k : Nat × Inode × Disk → Except String β} {r : β}
    (h : (if ip.addrs (Fin.last NDIRECT) = 0 then
          (balloc sb d).map (fun (addr, d) => (addr, ip.setAddr (Fin.last NDIRECT) addr, d)) >>= k
        else (Except.ok (ip.addrs (Fin.last NDIRECT), ip, d) : Except String _) >>= k) = .ok r) :
    ∃ ip₁ d₁, Logs {Mkfs.bmapstart, ip₁.addrs (Fin.last NDIRECT)} d d₁ ∧
      k (ip₁.addrs (Fin.last NDIRECT), ip₁, d₁) = .ok r := by
  split_ifs at h with hz
  · obtain ⟨⟨a, ip₁, d₁⟩, h₁, h⟩ := (Except.bind_eq_ok _ _ _).mp h
    obtain ⟨⟨a', d₂⟩, ha, he⟩ := (Except.map_eq_ok _ _ _).mp h₁
    simp only [Prod.mk.injEq] at he
    obtain ⟨rfl, rfl, rfl⟩ := he
    have hlast : (ip.setAddr (Fin.last NDIRECT) a').addrs (Fin.last NDIRECT) = a' := by
      rw [setAddr_addrs, Function.update_self]
    exact ⟨_, _, hlast ▸ balloc_logs ha, by rw [hlast]; exact h⟩
  · exact ⟨ip, d, Logs.refl _ _, h⟩

/-- `bmap` logs the bitmap block, the indirect block the inode has after it, and the block it
returns. -/
theorem bmap_logs {bn addr : Nat} (h : bmap sb d ip bn = .ok (addr, ip', d')) :
    Logs {Mkfs.bmapstart, ip'.addrs (Fin.last NDIRECT), addr} d d' := by
  unfold bmap at h
  by_cases hd : bn < NDIRECT
  · rw [dif_pos hd] at h
    split_ifs at h with hz
    · -- a direct block, allocated
      obtain ⟨⟨a, d₁⟩, ha, he⟩ := (Except.map_eq_ok _ _ _).mp h
      simp only [Prod.mk.injEq] at he
      obtain ⟨rfl, rfl, rfl⟩ := he
      refine (balloc_logs ha).mono fun x hx => ?_
      simp only [Finset.mem_insert, Finset.mem_singleton] at hx ⊢
      omega
    · -- a direct block, mapped
      cases h
      exact Logs.refl _ _
  by_cases hk : bn - NDIRECT < NINDIRECT
  swap
  · rw [dif_neg hd, if_neg hk] at h
    cases h
  rw [dif_neg hd, if_pos hk] at h
  obtain ⟨ip₁, d₁, hl₁, h⟩ := indirect_logs h
  dsimp only at h
  split_ifs at h
  · -- the entry, allocated and written into the indirect block
    obtain ⟨⟨a, d₂⟩, h₂, h⟩ := (Except.bind_eq_ok _ _ _).mp h
    obtain ⟨d₃, h₃, h⟩ := (Except.bind_eq_ok _ _ _).mp h
    simp only [Except.pure_eq_ok, Prod.mk.injEq] at h
    obtain ⟨rfl, rfl, rfl⟩ := h
    refine ((hl₁.trans (balloc_logs h₂)).trans (write_logs h₃)).mono fun x hx => ?_
    simp only [Finset.mem_union, Finset.mem_insert, Finset.mem_singleton] at hx ⊢
    omega
  · simp only [Except.pure_eq_ok, Prod.mk.injEq] at h
    obtain ⟨rfl, rfl, rfl⟩ := h
    refine hl₁.mono fun x hx => ?_
    simp only [Finset.mem_insert, Finset.mem_singleton] at hx ⊢
    omega

end Calls

/-! ### `writei` -/

section Writei

variable {d d' : Disk} {ip ip' : Inode}

/-- Each pass of `writei`'s loop logs at most two blocks besides the bitmap block: the indirect
block and the block it writes. -/
theorem writeiLoop_logs {fuel off : Nat} {src : List UInt8}
    (h : writeiLoop sb fuel d ip off src = .ok (ip', d')) :
    ∃ S : Finset Nat, S.card ≤ 2 * passes off src.length ∧ Logs (insert Mkfs.bmapstart S) d d' := by
  -- induction on the fuel; each pass spends one of the passes `src` needs
  induction fuel generalizing d ip off src with
  | zero =>
    cases src with
    | nil =>
      cases h
      exact ⟨∅, Nat.zero_le _, Logs.refl _ _⟩
    | cons x xs => cases h
  | succ fuel ih =>
    cases src with
    | nil =>
      cases h
      exact ⟨∅, Nat.zero_le _, Logs.refl _ _⟩
    | cons x xs =>
      rw [writeiLoop] at h
      swap
      · exact List.cons_ne_nil x xs
      obtain ⟨⟨addr, ip₁, d₁⟩, h₁, h⟩ := (Except.bind_eq_ok _ _ _).mp h
      dsimp only at h
      obtain ⟨d₂, h₂, h⟩ := (Except.bind_eq_ok _ _ _).mp h
      obtain ⟨S, hS, hl⟩ := ih h
      have hp := @passes_step off _ (List.length_pos_of_ne_nil (List.cons_ne_nil x xs))
      rw [List.length_drop] at hS
      refine ⟨insert (ip₁.addrs (Fin.last NDIRECT)) (insert addr S), ?_, ?_⟩
      · have h₁ := Finset.card_insert_le (ip₁.addrs (Fin.last NDIRECT)) (insert addr S)
        have h₂ := Finset.card_insert_le addr S
        omega
      · refine (((bmap_logs h₁).trans (write_logs h₂)).trans hl).mono fun y hy => ?_
        simp only [Finset.mem_union, Finset.mem_insert, Finset.mem_singleton] at hy ⊢
        tauto

/-- `writei` logs the bitmap block, two blocks a pass and the inode's block. -/
theorem writei_logs {src : List UInt8} {off : Nat} {r : Int}
    (h : writei sb d ip src off = .ok (r, ip', d')) :
    ∃ S : Finset Nat, S.card ≤ 2 * passes off src.length + 1 ∧
      Logs (insert Mkfs.bmapstart S) d d' := by
  unfold writei at h
  split_ifs at h with hbad hmax
  · cases h
    exact ⟨∅, Nat.zero_le _, Logs.refl _ _⟩
  · cases h
    exact ⟨∅, Nat.zero_le _, Logs.refl _ _⟩
  obtain ⟨⟨ip₁, d₁⟩, h₁, h⟩ := (Except.bind_eq_ok _ _ _).mp h
  obtain ⟨S, hS, hl⟩ := writeiLoop_logs h₁
  dsimp only at h
  split_ifs at h with hgrow
  · -- the size grew: `iupdate` logs the inode's block
    obtain ⟨d₂, h₂, h⟩ := (Except.bind_eq_ok _ _ _).mp h
    simp only [Except.pure_eq_ok, Prod.mk.injEq] at h
    obtain ⟨-, -, rfl⟩ := h
    refine ⟨insert (IBLOCK ip₁.inum) S, (Finset.card_insert_le _ _).trans (by omega), ?_⟩
    refine (hl.trans (iupdate_logs h₂)).mono fun y hy => ?_
    simp only [Finset.mem_union, Finset.mem_insert, Finset.mem_singleton] at hy ⊢
    tauto
  · simp only [Except.pure_eq_ok, Prod.mk.injEq] at h
    obtain ⟨-, -, rfl⟩ := h
    exact ⟨S, by omega, hl⟩

theorem filewrite_chunk_fits_log_op {src : List UInt8} {off : Nat} {r : Int}
    (hn : src.length ≤ (MAXOPBLOCKS - 1 - 1 - 2) / 2 * BSIZE)
    (h : writei sb d ip src off = .ok (r, ip', d')) :
    ∃ S : Finset Nat, S.card ≤ MAXOPBLOCKS ∧ Logs S d d' ∧
      d'.log.lh.length ≤ d.log.lh.length + MAXOPBLOCKS := by
  obtain ⟨S, hS, hl⟩ := writei_logs h
  -- a chunk of three blocks' bytes touches at most four blocks
  have hpasses : passes off src.length ≤ 4 := by
    unfold passes BSIZE
    unfold MAXOPBLOCKS BSIZE at hn
    split_ifs <;> omega
  have hcard : (insert Mkfs.bmapstart S).card ≤ MAXOPBLOCKS :=
    (Finset.card_insert_le _ _).trans (by unfold MAXOPBLOCKS; omega)
  exact ⟨_, hcard, hl, hl.length_le.trans (Nat.add_le_add_left hcard _)⟩

/-- A full chunk, three blocks' bytes written to a new file on `metaDisk`. -/
theorem filewrite_chunk_fits_log_op_full :
    ∃ ip' d', writei sb metaDisk newFile (List.replicate 1536 0x61) 0 = .ok (1536, ip', d') ∧
      ∃ S : Finset Nat, S.card ≤ MAXOPBLOCKS ∧ Logs S metaDisk d' ∧
        d'.log.lh.length ≤ metaDisk.log.lh.length + MAXOPBLOCKS := by
  obtain ⟨ip', d', h, -⟩ := @writei_spec metaDisk newFile (FileWF.newFile (by decide))
    (List.replicate 1536 0x61) 0 (by rw [List.length_replicate]; decide) (by decide)
    (by rw [List.length_replicate]; decide) (by rw [List.length_replicate]; decide +kernel)
  simp only [List.length_replicate, Nat.cast_ofNat] at h
  exact ⟨ip', d', h, filewrite_chunk_fits_log_op (by rw [List.length_replicate]; decide) h⟩

end Writei

end Xv6.Fs
