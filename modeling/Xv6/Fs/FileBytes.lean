import Xv6.Fs.Bmap
import Xv6.Lib.ExceptOk
import Mathlib.Data.Finset.Card

/-!
# A file as bytes

`writei` and `iupdate` over the disk of `Xv6.Fs.Bmap`, and what `readi` and `writei` do to a file
seen as the bytes `[0, size)` through its blocks (`content`).

A file's blocks are well formed (`FileWF`) when they lie in the data area, are marked in the
bitmap, and no two of them are one block. The metadata blocks must be marked too, and every
block below `size` must be mapped. `balloc` then hands out a block that is none of them, and
`bmap` maps the one block asked for and moves no other (`bmap_spec`). Each pass of `writei`'s
loop writes its bytes and leaves every other byte of the file (`Wrote`).

`writei` allocates and logs as it goes. Running out of free blocks or of log space is a panic,
so its result holds for writes that fit in both. `log_write` absorbs a block already in the
header, so a pass adds at most two entries: its data block and the indirect block. The bitmap
block, which every `balloc` writes, is charged once, before its first write (`charge`), and the
inode block of the final `iupdate` once more. The number of passes is the potential the loop
spends, one pass at a time (`passes`), and each pass takes at most two free blocks.
-/

namespace Xv6.Fs

open Xv6.Mkfs (Dinode entry setEntry nlog nmeta copyIn)

/-- `IBLOCK(i, sb)`: the block of inode `i`, from `sb.inodestart = 2 + nlog`. -/
def IBLOCK (i : Nat) : Nat := i / Mkfs.IPB + (2 + nlog)

/-- `iupdate(ip)`: the inode's block is logged, and its `struct dinode` takes the type, size and
addresses of the cached inode. The model's inode has no `nlink`, `major` or `minor`: `writei`
changes none of them, so they stay as the disk has them. -/
def Disk.iupdate (d : Disk) (ip : Inode) : Except String Disk :=
  (Log.logWrite nlog d.log (IBLOCK ip.inum)).map fun l =>
    { d with
      dinode := Function.update d.dinode ip.inum
        { d.dinode ip.inum with type := ip.type, size := ip.size, addrs := ip.addrs },
      log := l }

/-- `writei`'s loop, with the bytes `src` still to write from `off`. Each pass copies
`m = min(n - tot, BSIZE - off%BSIZE)` bytes into block `off/BSIZE` and logs the block. -/
def writeiLoop (sb : Superblock) : Nat → Disk → Inode → Nat → List UInt8 →
    Except String (Inode × Disk)
  | _, d, ip, _, [] => .ok (ip, d)
  | 0, _, _, _, _ :: _ => .error "writei: fuel"
  | fuel + 1, d, ip, off, src => do
    let (addr, ip, d) ← bmap sb d ip (off / BSIZE)
    let m := min src.length (BSIZE - off % BSIZE)
    let d ← d.write addr (copyIn (d.block addr) (off % BSIZE) (src.take m))
    writeiLoop sb fuel d ip (off + m) (src.drop m)

/-- `writei(ip, src, off, n)` of an inode that is not a device, with `n` the length of `src`:
-1, or `n` with the bytes written and the size grown. -/
def writei (sb : Superblock) (d : Disk) (ip : Inode) (src : List UInt8) (off : Nat) :
    Except String (Int × Inode × Disk) :=
  if off > ip.size ∨ (off + src.length) % 2 ^ 32 < off then .ok (-1, ip, d)
  else if off + src.length > MAXFILE * BSIZE then .ok (-1, ip, d)
  else do
    let (ip, d) ← writeiLoop sb src.length d ip off src
    if src.length > 0 ∧ off + src.length > ip.size then
      let ip := { ip with size := off + src.length }
      let d ← d.iupdate ip
      pure (src.length, ip, d)
    else pure (src.length, ip, d)

/-! ### The file's bytes -/

/-- The disk block of file block `bn` as `bmap` finds it, without allocating: 0 where there is
none. -/
def blockAddr (d : Disk) (ip : Inode) (bn : Nat) : Nat :=
  if h : bn < NDIRECT then ip.addrs ⟨bn, Nat.lt_succ_of_lt h⟩
  else if ip.addrs (Fin.last NDIRECT) = 0 then 0
  else entry (d.block (ip.addrs (Fin.last NDIRECT))) (bn - NDIRECT)

/-- Byte `o` of the file, read through its block. -/
def byteAt (d : Disk) (ip : Inode) (o : Nat) : UInt8 :=
  (d.block (blockAddr d ip (o / BSIZE))).mem (o % BSIZE)

/-- The file's bytes `[0, size)`. -/
def content (d : Disk) (ip : Inode) : List UInt8 := (List.range ip.size).map (byteAt d ip)

/-- Block `b` is one of the file's: a block it maps or its indirect block. -/
def Owns (d : Disk) (ip : Inode) (b : Nat) : Prop :=
  b ≠ 0 ∧ ((∃ bn < MAXFILE, blockAddr d ip bn = b) ∨ ip.addrs (Fin.last NDIRECT) = b)

/-- The free blocks: those whose bit is clear. -/
def freeBlocks (d : Disk) : Finset Nat := (Finset.range FSSIZE).filter fun b => d.inUse b = false

/-- Two clear bits of the bitmap are two free blocks. -/
theorem two_le_card_freeBlocks {d : Disk} (a b : Nat) (hab : a ≠ b) (ha : a < FSSIZE)
    (hb : b < FSSIZE) (hfa : d.inUse a = false) (hfb : d.inUse b = false) :
    2 ≤ (freeBlocks d).card :=
  Finset.one_lt_card.mpr ⟨a, Finset.mem_filter.mpr ⟨Finset.mem_range.mpr ha, hfa⟩,
    b, Finset.mem_filter.mpr ⟨Finset.mem_range.mpr hb, hfb⟩, hab⟩

/-- A file whose blocks `writei` can extend: its blocks lie in the data area and are marked in
use, no two file blocks share a disk block nor share the indirect block, and every block below
`size` is mapped. The metadata blocks are marked in use. -/
structure FileWF (d : Disk) (ip : Inode) : Prop where
  metaUsed : ∀ b < nmeta, d.inUse b = true
  owned : ∀ b, Owns d ip b → nmeta ≤ b ∧ b < FSSIZE ∧ d.inUse b = true
  inj : ∀ bn < MAXFILE, ∀ bn' < MAXFILE, blockAddr d ip bn ≠ 0 →
    blockAddr d ip bn = blockAddr d ip bn' → bn = bn'
  indirect : ∀ bn < MAXFILE, blockAddr d ip bn ≠ 0 → blockAddr d ip bn ≠ ip.addrs (Fin.last NDIRECT)
  mapped : ∀ bn < MAXFILE, bn * BSIZE < ip.size → blockAddr d ip bn ≠ 0
  size_le : ip.size ≤ MAXFILE * BSIZE

/-! ### The bitmap -/

theorem sb_size : sb.size = FSSIZE := rfl

theorem BBLOCK_eq {b : Nat} (hb : b < FSSIZE) : BBLOCK b sb = Mkfs.bmapstart := by
  show b / BPB + Mkfs.bmapstart = Mkfs.bmapstart
  unfold BPB BSIZE FSSIZE at *
  omega

theorem nmeta_lt : nmeta < FSSIZE := by decide

theorem bmapstart_lt_nmeta : Mkfs.bmapstart < nmeta := by decide

/-- A block's bit, for a block of the disk: bit `b` of the bitmap block. -/
theorem inUse_eq {d : Disk} {b : Nat} (hb : b < FSSIZE) :
    d.inUse b = Bitmap.test (d.block Mkfs.bmapstart).mem b := by
  have hmod : b % BPB = b := Nat.mod_eq_of_lt (by unfold BPB BSIZE; unfold FSSIZE at hb; omega)
  rw [Disk.inUse, BBLOCK_eq hb, hmod]

/-- The bitmap block stored back after `Bitmap.set` reads as the set bitmap, for the disk's
blocks. -/
theorem test_ofMem {m : Nat → UInt8} {b : Nat} (hb : b < FSSIZE) :
    Bitmap.test (Block.ofMem m).mem b = Bitmap.test m b := by
  have hbyte : b / 8 < BSIZE := by
    unfold BSIZE
    unfold FSSIZE at hb
    omega
  rw [Bitmap.test, Bitmap.test, Block.mem_ofMem hbyte]

/-- The disk after `log_write` of block `b` with the bytes `blk`. -/
def Disk.logged (d : Disk) (b : Nat) (blk : Block) : Disk :=
  { d with
    block := Function.update d.block b blk
    log := { d.log with lh := Log.absorb d.log.lh b } }

/-- `log_write` inside an operation, with room in the header. -/
theorem write_ok {d : Disk} (hout : 1 ≤ d.log.outstanding) (hroom : d.log.lh.length + 1 ≤ nlog - 1)
    (b : Nat) (blk : Block) : d.write b blk = .ok (d.logged b blk) := by
  have hsize : ¬(d.log.lh.length ≥ LOGSIZE ∨ d.log.lh.length ≥ nlog - 1) := by
    unfold nlog at *
    omega
  rw [Disk.write, Log.logWrite, if_neg hsize, if_neg (by omega)]
  rfl

theorem length_absorb_le (lh : List Nat) (b : Nat) : (Log.absorb lh b).length ≤ lh.length + 1 := by
  rw [Log.length_absorb]
  split <;> omega

/-! ### What a write spends of the log -/

/-- The entry that logging block `b` adds to the header `lh`: none when `b` is in it already. -/
def cost (lh : List Nat) (b : Nat) : Nat := if b ∈ lh then 0 else 1

/-- The entries the header holds, and the one the bitmap block will take while it is not among
them. -/
def charge (lh : List Nat) : Nat := lh.length + cost lh Mkfs.bmapstart

theorem cost_le_one (lh : List Nat) (b : Nat) : cost lh b ≤ 1 := by
  unfold cost
  split <;> omega

theorem cost_absorb_self (lh : List Nat) (b : Nat) : cost (Log.absorb lh b) b = 0 :=
  if_pos (Log.mem_absorb.mpr (.inr rfl))

/-- A block in the header stays in it. -/
theorem cost_absorb_le (lh : List Nat) (b c : Nat) : cost (Log.absorb lh c) b ≤ cost lh b := by
  unfold cost
  by_cases hb : b ∈ lh
  · rw [if_pos (Log.mem_absorb.mpr (.inl hb)), if_pos hb]
  · rw [if_neg hb]
    split <;> omega

theorem length_le_charge (lh : List Nat) : lh.length ≤ charge lh := Nat.le_add_right _ _

theorem charge_le_length (lh : List Nat) : charge lh ≤ lh.length + 1 :=
  Nat.add_le_add_left (cost_le_one lh _) _

/-- Logging block `b` spends its cost. -/
theorem charge_absorb (lh : List Nat) (b : Nat) : charge (Log.absorb lh b) ≤ charge lh + cost lh b := by
  have hlen : (Log.absorb lh b).length = lh.length + cost lh b := by
    rw [Log.length_absorb, cost]
    split <;> rfl
  have hbm := cost_absorb_le lh Mkfs.bmapstart b
  unfold charge
  omega

/-- Logging the bitmap block spends the entry it was charged. -/
theorem charge_absorb_bmapstart (lh : List Nat) : charge (Log.absorb lh Mkfs.bmapstart) = charge lh := by
  unfold charge
  rw [cost_absorb_self, Log.length_absorb, cost]
  split <;> rfl

/-- A free block is not metadata. -/
theorem nmeta_le_of_free {d : Disk} (hmeta : ∀ b < nmeta, d.inUse b = true) {b : Nat}
    (hfree : d.inUse b = false) : nmeta ≤ b := by
  by_contra hlt
  rw [hmeta b (by omega)] at hfree
  cases hfree

/-! ### `balloc` -/

/-- The disk after `balloc` hands out block `a`: its bit set in the bitmap block, and the block
zeroed, each logged. -/
def Disk.alloc (d : Disk) (a : Nat) : Disk :=
  (d.logged Mkfs.bmapstart (Block.ofMem (Bitmap.set (d.block Mkfs.bmapstart).mem a))).logged a
    fun _ => 0

/-- `balloc` with a free block, inside an operation with room for its two writes, the bitmap
block's being charged: the first free block `a`, marked in the bitmap and zeroed. -/
theorem balloc_spec {d : Disk} (hout : 1 ≤ d.log.outstanding) (hroom : charge d.log.lh + 1 ≤ nlog - 1)
    (hfree : (freeBlocks d).Nonempty) :
    ∃ a, a < FSSIZE ∧ d.inUse a = false ∧ balloc sb d = .ok (a, d.alloc a) := by
  obtain ⟨b, hb⟩ := hfree
  rw [freeBlocks, Finset.mem_filter, Finset.mem_range] at hb
  have hrange : min BPB (sb.size - 0) = FSSIZE := by decide
  -- the loop's one bitmap block has a clear bit below `sb.size`
  have hsome : ((List.range (min BPB (sb.size - 0))).find?
      fun bi => !Bitmap.test (d.block Mkfs.bmapstart).mem bi).isSome := by
    rw [List.find?_isSome]
    refine ⟨b, List.mem_range.mpr ?_, ?_⟩
    · rw [hrange]
      exact hb.1
    · rw [← inUse_eq hb.1, hb.2]
      rfl
  obtain ⟨a, ha⟩ := Option.isSome_iff_exists.mp hsome
  have hmem := List.mem_range.mp (List.mem_of_find?_eq_some ha)
  have hclear := List.find?_some ha
  have ha' : a < FSSIZE := by
    rw [hrange] at hmem
    exact hmem
  have hfreea : d.inUse a = false := by
    rw [inUse_eq ha']
    simpa using hclear
  refine ⟨a, ha', hfreea, ?_⟩
  have hk : (sb.size + BPB - 1) / BPB = 0 + 1 := by decide
  set d₁ := d.logged Mkfs.bmapstart (Block.ofMem (Bitmap.set (d.block Mkfs.bmapstart).mem a))
  have hroom₀ := length_le_charge d.log.lh
  have hroom₁ : d₁.log.lh.length + 1 ≤ nlog - 1 := by
    have := length_le_charge (Log.absorb d.log.lh Mkfs.bmapstart)
    rw [charge_absorb_bmapstart] at this
    show (Log.absorb d.log.lh Mkfs.bmapstart).length + 1 ≤ nlog - 1
    omega
  rw [balloc, hk, ballocLoop, show BBLOCK 0 sb = Mkfs.bmapstart from rfl, freeBit, ha]
  dsimp only
  rw [write_ok hout (by omega), Except.ok_bind, write_ok (d := d₁) hout hroom₁, Except.ok_bind,
    Nat.zero_add]
  rfl

section Alloc

variable {d : Disk} {a : Nat}

@[simp] theorem logged_dinode (b : Nat) (blk : Block) : (d.logged b blk).dinode = d.dinode := rfl

@[simp] theorem logged_outstanding (b : Nat) (blk : Block) :
    (d.logged b blk).log.outstanding = d.log.outstanding := rfl

@[simp] theorem logged_block_self (b : Nat) (blk : Block) : (d.logged b blk).block b = blk :=
  Function.update_self _ _ _

theorem logged_block_of_ne {x b : Nat} (blk : Block) (h : x ≠ b) : (d.logged b blk).block x = d.block x :=
  Function.update_of_ne h _ _

@[simp] theorem alloc_dinode (a : Nat) : (d.alloc a).dinode = d.dinode := rfl

@[simp] theorem alloc_outstanding (a : Nat) : (d.alloc a).log.outstanding = d.log.outstanding := rfl

@[simp] theorem alloc_block_self (a : Nat) : (d.alloc a).block a = fun _ => 0 :=
  logged_block_self _ _

theorem alloc_block_of_ne {x : Nat} (h₁ : x ≠ Mkfs.bmapstart) (h₂ : x ≠ a) :
    (d.alloc a).block x = d.block x := by
  rw [Disk.alloc, logged_block_of_ne _ h₂, logged_block_of_ne _ h₁]

/-- `balloc` spends one entry, the zeroed block's: the bitmap block's was charged. -/
theorem alloc_charge (a : Nat) : charge (d.alloc a).log.lh ≤ charge d.log.lh + 1 := by
  have h₁ := charge_absorb (Log.absorb d.log.lh Mkfs.bmapstart) a
  have h₂ := cost_le_one (Log.absorb d.log.lh Mkfs.bmapstart) a
  rw [charge_absorb_bmapstart] at h₁
  exact h₁.trans (Nat.add_le_add_left h₂ _)

theorem alloc_cost_self (a : Nat) : cost (d.alloc a).log.lh a = 0 := cost_absorb_self _ _

theorem alloc_cost_le (a b : Nat) : cost (d.alloc a).log.lh b ≤ cost d.log.lh b :=
  (cost_absorb_le _ b a).trans (cost_absorb_le _ b _)

/-- After `balloc` hands out `a`, the blocks in use are those before and `a`. -/
theorem alloc_inUse (ha : a ≠ Mkfs.bmapstart) {x : Nat} (hx : x < FSSIZE) :
    (d.alloc a).inUse x = (x == a || d.inUse x) := by
  have hbm : (d.alloc a).block Mkfs.bmapstart =
      Block.ofMem (Bitmap.set (d.block Mkfs.bmapstart).mem a) := by
    rw [Disk.alloc, logged_block_of_ne _ (Ne.symm ha), logged_block_self]
  rw [inUse_eq hx, inUse_eq hx, hbm, test_ofMem hx, Bitmap.test_set]

theorem freeBlocks_alloc (ha : a ≠ Mkfs.bmapstart) : freeBlocks (d.alloc a) = (freeBlocks d).erase a := by
  ext x
  simp only [freeBlocks, Finset.mem_filter, Finset.mem_range, Finset.mem_erase]
  constructor
  · rintro ⟨hx, hfree⟩
    rw [alloc_inUse ha hx, Bool.or_eq_false_iff, beq_eq_false_iff_ne] at hfree
    exact ⟨hfree.1, hx, hfree.2⟩
  · rintro ⟨hne, hx, hfree⟩
    rw [alloc_inUse ha hx, hfree, beq_eq_false_iff_ne.mpr hne]
    exact ⟨hx, rfl⟩

/-- A write of a block other than the bitmap block leaves every block's bit. -/
theorem inUse_logged_of_ne {b x : Nat} {blk : Block} (hb : b ≠ Mkfs.bmapstart) (hx : x < FSSIZE) :
    (d.logged b blk).inUse x = d.inUse x := by
  rw [inUse_eq hx, inUse_eq hx, logged_block_of_ne _ (Ne.symm hb)]

theorem freeBlocks_congr {d' : Disk} (h : ∀ x < FSSIZE, d'.inUse x = d.inUse x) :
    freeBlocks d' = freeBlocks d := by
  ext x
  simp only [freeBlocks, Finset.mem_filter, Finset.mem_range]
  constructor
  · rintro ⟨hx, hfree⟩
    exact ⟨hx, (h x hx).symm.trans hfree⟩
  · rintro ⟨hx, hfree⟩
    exact ⟨hx, (h x hx).trans hfree⟩

/-- `balloc` takes one free block. -/
theorem card_freeBlocks_alloc (ha : a ≠ Mkfs.bmapstart) (hfree : a ∈ freeBlocks d) :
    (freeBlocks (d.alloc a)).card + 1 = (freeBlocks d).card := by
  rw [freeBlocks_alloc ha, Finset.card_erase_of_mem hfree]
  have := Finset.card_pos.mpr ⟨a, hfree⟩
  omega

end Alloc

/-! ### Block addresses -/

/-- `blockAddr` reads the disk only at the indirect block. -/
theorem blockAddr_congr {d d' : Disk} {ip : Inode}
    (h : ip.addrs (Fin.last NDIRECT) ≠ 0 →
      d'.block (ip.addrs (Fin.last NDIRECT)) = d.block (ip.addrs (Fin.last NDIRECT))) :
    blockAddr d' ip = blockAddr d ip := by
  funext bn
  unfold blockAddr
  split_ifs with h₁ h₂
  · rfl
  · rfl
  · rw [h h₂]

theorem mem_zero : Block.mem (fun _ => 0) = fun _ => 0 := by
  funext o
  unfold Block.mem
  split <;> rfl

theorem entry_zero (k : Nat) : entry (fun _ => 0) k = 0 := by
  rw [entry, mem_zero, LittleEndian.read_zero]

/-- Entry `k'` of an indirect block after entry `k` is set. -/
theorem entry_setEntry (blk : Block) {k k' v : Nat} (hk : k < NINDIRECT) (hk' : k' < NINDIRECT)
    (hv : v < 2 ^ 32) : entry (setEntry blk k v) k' = if k' = k then v else entry blk k' := by
  have hin : ∀ o, 4 * k' ≤ o → o < 4 * k' + 4 →
      (setEntry blk k v).mem o = LittleEndian.write blk.mem (4 * k) 4 v o := by
    intro o h₁ h₂
    rw [setEntry, Block.mem_ofMem (by unfold NINDIRECT BSIZE at *; omega)]
  rw [entry, LittleEndian.read_congr hin]
  split_ifs with heq
  · subst heq
    exact LittleEndian.read_write_of_lt (by norm_num; omega)
  · exact LittleEndian.read_write_of_disjoint v (by omega)

/-! ### Well-formed files -/

section WF

variable {d : Disk} {ip : Inode}

theorem owns_blockAddr {bn : Nat} (hbn : bn < MAXFILE) (h : blockAddr d ip bn ≠ 0) :
    Owns d ip (blockAddr d ip bn) :=
  ⟨h, .inl ⟨bn, hbn, rfl⟩⟩

theorem owns_indirect (h : ip.addrs (Fin.last NDIRECT) ≠ 0) : Owns d ip (ip.addrs (Fin.last NDIRECT)) :=
  ⟨h, .inr rfl⟩

/-- A block of the file is not a free block. -/
theorem FileWF.ne_free (hwf : FileWF d ip) {b a : Nat} (hb : Owns d ip b) (ha : d.inUse a = false) :
    b ≠ a := by
  rintro rfl
  rw [(hwf.owned b hb).2.2] at ha
  cases ha

/-- A block of the file is not the bitmap block. -/
theorem FileWF.ne_bmapstart (hwf : FileWF d ip) {b : Nat} (hb : Owns d ip b) : b ≠ Mkfs.bmapstart := by
  have := (hwf.owned b hb).1
  have := bmapstart_lt_nmeta
  omega

/-- A free block of the disk is no block of the file's, not the bitmap block, and not 0. -/
theorem FileWF.free_facts (hwf : FileWF d ip) {a : Nat} (ha : d.inUse a = false) :
    a ≠ Mkfs.bmapstart ∧ a ≠ 0 ∧ nmeta ≤ a := by
  have := nmeta_le_of_free hwf.metaUsed ha
  have := bmapstart_lt_nmeta
  have : 0 < nmeta := by decide
  omega

end WF

section WF

variable {d d' : Disk} {ip ip' : Inode}

/-- The file mapping one more block: `a`, free before, at file block `bn`. The bitmap gains `a`
and nothing else, and the indirect block stays where it was. -/
theorem FileWF.map_fresh (hwf : FileWF d ip) {a bn : Nat} (ha : a < FSSIZE) (hfree : d.inUse a = false)
    (huse : ∀ x < FSSIZE, d'.inUse x = (x == a || d.inUse x))
    (hind : ip'.addrs (Fin.last NDIRECT) = ip.addrs (Fin.last NDIRECT)) (hsize : ip'.size = ip.size)
    (haddr : ∀ bn' < MAXFILE, blockAddr d' ip' bn' = if bn' = bn then a else blockAddr d ip bn') :
    FileWF d' ip' := by
  obtain ⟨-, ha0, hmeta⟩ := hwf.free_facts hfree
  -- a block the file had stays in use
  have hkeep : ∀ b, Owns d ip b → nmeta ≤ b ∧ b < FSSIZE ∧ d'.inUse b = true := by
    intro b hb
    obtain ⟨h₁, h₂, h₃⟩ := hwf.owned b hb
    exact ⟨h₁, h₂, by rw [huse b h₂, h₃, Bool.or_true]⟩
  -- `a` is none of the file's old blocks
  have hnew : ∀ bn' < MAXFILE, bn' ≠ bn → blockAddr d' ip' bn' ≠ a := by
    intro bn' hbn' hne heq
    rw [haddr bn' hbn', if_neg hne] at heq
    by_cases h0 : blockAddr d ip bn' = 0
    · exact ha0 (heq.symm.trans h0)
    · exact hwf.ne_free (owns_blockAddr hbn' h0) hfree heq
  refine ⟨fun b hb => ?_, fun b hb => ?_, fun bn₁ h₁ bn₂ h₂ hne heq => ?_, fun bn' hbn' hne => ?_,
    fun bn' hbn' hlt => ?_, hsize ▸ hwf.size_le⟩
  · rw [huse b (lt_trans hb nmeta_lt), hwf.metaUsed b hb, Bool.or_true]
  · obtain ⟨hb0, ⟨bn', hbn', hb'⟩ | hb'⟩ := hb
    · rw [haddr bn' hbn'] at hb'
      split_ifs at hb' with heq
      · subst hb'
        exact ⟨hmeta, ha, by rw [huse _ ha, beq_self_eq_true, Bool.true_or]⟩
      · exact hkeep b ⟨hb0, .inl ⟨bn', hbn', hb'⟩⟩
    · rw [hind] at hb'
      exact hkeep b ⟨hb0, .inr hb'⟩
  · by_cases e₁ : bn₁ = bn <;> by_cases e₂ : bn₂ = bn
    · rw [e₁, e₂]
    · -- `a` at `bn` and at another block
      rw [haddr bn₁ h₁, if_pos e₁] at heq
      exact absurd heq.symm (hnew bn₂ h₂ e₂)
    · rw [haddr bn₂ h₂, if_pos e₂] at heq
      exact absurd heq (hnew bn₁ h₁ e₁)
    · rw [haddr bn₁ h₁, if_neg e₁] at hne heq
      rw [haddr bn₂ h₂, if_neg e₂] at heq
      exact hwf.inj bn₁ h₁ bn₂ h₂ hne heq
  · rw [hind]
    rw [haddr bn' hbn'] at hne ⊢
    split_ifs at hne ⊢ with e
    · -- the indirect block is in use or absent, `a` is free
      intro heq
      by_cases hi : ip.addrs (Fin.last NDIRECT) = 0
      · exact ha0 (heq.trans hi)
      · exact hwf.ne_free (owns_indirect hi) hfree heq.symm
    · exact hwf.indirect bn' hbn' hne
  · rw [haddr bn' hbn']
    split_ifs
    · exact ha0
    · exact hwf.mapped bn' hbn' (hsize ▸ hlt)

/-- The file with a new indirect block `a`, free before, that maps the same blocks. -/
theorem FileWF.set_indirect (hwf : FileWF d ip) {a : Nat} (ha : a < FSSIZE) (hfree : d.inUse a = false)
    (huse : ∀ x < FSSIZE, d'.inUse x = (x == a || d.inUse x))
    (hind : ip'.addrs (Fin.last NDIRECT) = a) (hsize : ip'.size = ip.size)
    (haddr : ∀ bn < MAXFILE, blockAddr d' ip' bn = blockAddr d ip bn) : FileWF d' ip' := by
  obtain ⟨-, ha0, hmeta⟩ := hwf.free_facts hfree
  refine ⟨fun b hb => ?_, fun b hb => ?_, fun bn₁ h₁ bn₂ h₂ hne heq => ?_, fun bn hbn hne => ?_,
    fun bn hbn hlt => ?_, hsize ▸ hwf.size_le⟩
  · rw [huse b (lt_trans hb nmeta_lt), hwf.metaUsed b hb, Bool.or_true]
  · obtain ⟨hb0, ⟨bn, hbn, hb'⟩ | hb'⟩ := hb
    · rw [haddr bn hbn] at hb'
      obtain ⟨h₁, h₂, h₃⟩ := hwf.owned b ⟨hb0, .inl ⟨bn, hbn, hb'⟩⟩
      exact ⟨h₁, h₂, by rw [huse b h₂, h₃, Bool.or_true]⟩
    · rw [hind] at hb'
      subst hb'
      exact ⟨hmeta, ha, by rw [huse _ ha, beq_self_eq_true, Bool.true_or]⟩
  · rw [haddr bn₁ h₁, haddr bn₂ h₂] at heq
    rw [haddr bn₁ h₁] at hne
    exact hwf.inj bn₁ h₁ bn₂ h₂ hne heq
  · rw [haddr bn hbn] at hne ⊢
    rw [hind]
    exact hwf.ne_free (owns_blockAddr hbn hne) hfree
  · rw [haddr bn hbn]
    exact hwf.mapped bn hbn (hsize ▸ hlt)

/-- A file whose map, bitmap and size are as they were. -/
theorem FileWF.congr (hwf : FileWF d ip) (huse : ∀ x < FSSIZE, d'.inUse x = d.inUse x)
    (hind : ip'.addrs (Fin.last NDIRECT) = ip.addrs (Fin.last NDIRECT)) (hsize : ip'.size = ip.size)
    (haddr : ∀ bn < MAXFILE, blockAddr d' ip' bn = blockAddr d ip bn) : FileWF d' ip' := by
  refine ⟨fun b hb => ?_, fun b hb => ?_, fun bn₁ h₁ bn₂ h₂ hne heq => ?_, fun bn hbn hne => ?_,
    fun bn hbn hlt => ?_, hsize ▸ hwf.size_le⟩
  · rw [huse b (lt_trans hb nmeta_lt), hwf.metaUsed b hb]
  · have hb' : Owns d ip b := by
      obtain ⟨hb0, ⟨bn, hbn, hb'⟩ | hb'⟩ := hb
      · exact ⟨hb0, .inl ⟨bn, hbn, (haddr bn hbn).symm.trans hb'⟩⟩
      · exact ⟨hb0, .inr (hind.symm.trans hb')⟩
    obtain ⟨h₁, h₂, h₃⟩ := hwf.owned b hb'
    exact ⟨h₁, h₂, by rw [huse b h₂, h₃]⟩
  · rw [haddr bn₁ h₁, haddr bn₂ h₂] at heq
    rw [haddr bn₁ h₁] at hne
    exact hwf.inj bn₁ h₁ bn₂ h₂ hne heq
  · rw [haddr bn hbn] at hne ⊢
    rw [hind]
    exact hwf.indirect bn hbn hne
  · rw [haddr bn hbn]
    exact hwf.mapped bn hbn (hsize ▸ hlt)

end WF

/-! ### `bmap` -/

/-- What `bmap` keeps of a file: its inode number, type and size, the inodes on disk, the
operation in progress, and every block it maps, where it was and with the bytes it had. -/
structure Extends (d : Disk) (ip : Inode) (d' : Disk) (ip' : Inode) : Prop where
  inum : ip'.inum = ip.inum
  type : ip'.type = ip.type
  size : ip'.size = ip.size
  dinode : d'.dinode = d.dinode
  outstanding : d'.log.outstanding = d.log.outstanding
  keep : ∀ bn < MAXFILE, blockAddr d ip bn ≠ 0 → blockAddr d' ip' bn = blockAddr d ip bn
  bytes : ∀ bn < MAXFILE, blockAddr d ip bn ≠ 0 →
    d'.block (blockAddr d ip bn) = d.block (blockAddr d ip bn)

section Extends

variable {d d₁ d₂ : Disk} {ip ip₁ ip₂ : Inode}

theorem Extends.refl (d : Disk) (ip : Inode) : Extends d ip d ip :=
  ⟨rfl, rfl, rfl, rfl, rfl, fun _ _ _ => rfl, fun _ _ _ => rfl⟩

theorem Extends.trans (h₁ : Extends d ip d₁ ip₁) (h₂ : Extends d₁ ip₁ d₂ ip₂) : Extends d ip d₂ ip₂ where
  inum := h₂.inum.trans h₁.inum
  type := h₂.type.trans h₁.type
  size := h₂.size.trans h₁.size
  dinode := h₂.dinode.trans h₁.dinode
  outstanding := h₂.outstanding.trans h₁.outstanding
  keep bn hbn h := by
    have h' := h₁.keep bn hbn h
    rw [h₂.keep bn hbn (h'.symm ▸ h), h']
  bytes bn hbn h := by
    have h' := h₁.keep bn hbn h
    rw [← h₁.bytes bn hbn h, ← h', h₂.bytes bn hbn (h'.symm ▸ h)]

/-- A byte of a mapped block reads as before. -/
theorem Extends.byteAt_eq (h : Extends d ip d₁ ip₁) {o : Nat} (ho : o / BSIZE < MAXFILE)
    (hm : blockAddr d ip (o / BSIZE) ≠ 0) : byteAt d₁ ip₁ o = byteAt d ip o := by
  rw [byteAt, byteAt, h.keep _ ho hm, h.bytes _ ho hm]

end Extends

@[simp] theorem setAddr_addrs (ip : Inode) (j : Fin (NDIRECT + 1)) (v : Nat) :
    (ip.setAddr j v).addrs = Function.update ip.addrs j v := rfl

@[simp] theorem setAddr_size (ip : Inode) (j : Fin (NDIRECT + 1)) (v : Nat) :
    (ip.setAddr j v).size = ip.size := rfl

section Bmap

variable {d d' : Disk} {ip : Inode}

/-- Direct block `bn` set to `a`: the file maps `a` there and the rest as before. -/
theorem blockAddr_setDirect {bn a : Nat} (hbn : bn < NDIRECT)
    (hind : ip.addrs (Fin.last NDIRECT) ≠ 0 →
      d'.block (ip.addrs (Fin.last NDIRECT)) = d.block (ip.addrs (Fin.last NDIRECT))) (bn' : Nat) :
    blockAddr d' (ip.setAddr ⟨bn, Nat.lt_succ_of_lt hbn⟩ a) bn' =
      if bn' = bn then a else blockAddr d ip bn' := by
  have hlast : (Fin.last NDIRECT : Fin (NDIRECT + 1)) ≠ ⟨bn, by omega⟩ := by
    intro h
    have := congrArg Fin.val h
    simp only [Fin.val_last] at this
    omega
  unfold blockAddr
  by_cases h' : bn' < NDIRECT
  · rw [dif_pos h', dif_pos h', setAddr_addrs]
    by_cases e : bn' = bn
    · subst e
      rw [Function.update_self, if_pos rfl]
    · rw [Function.update_of_ne (fun h => e (congrArg Fin.val h)), if_neg e]
  · rw [dif_neg h', dif_neg h', setAddr_addrs, Function.update_of_ne hlast,
      if_neg (show ¬ bn' = bn by omega)]
    split_ifs with h₀
    · rfl
    · rw [hind h₀]

/-- A new indirect block, zeroed: the file maps what it mapped. -/
theorem blockAddr_setIndirect {a : Nat} (hzero : ip.addrs (Fin.last NDIRECT) = 0)
    (hblk : d'.block a = fun _ => 0) (ha : a ≠ 0) (bn : Nat) :
    blockAddr d' (ip.setAddr (Fin.last NDIRECT) a) bn = blockAddr d ip bn := by
  unfold blockAddr
  by_cases h' : bn < NDIRECT
  · have hne : (⟨bn, by omega⟩ : Fin (NDIRECT + 1)) ≠ Fin.last NDIRECT := by
      intro h
      have := congrArg Fin.val h
      simp only [Fin.val_last] at this
      omega
    rw [dif_pos h', dif_pos h', setAddr_addrs, Function.update_of_ne hne]
  · rw [dif_neg h', dif_neg h', setAddr_addrs, Function.update_self, if_neg ha, hzero, if_pos rfl,
      hblk, entry_zero]

/-- Entry `bn - NDIRECT` of the indirect block set to `a`. -/
theorem blockAddr_setEntry {bn a : Nat} (hbn : NDIRECT ≤ bn) (hbn' : bn < MAXFILE) (ha : a < 2 ^ 32)
    (hind : ip.addrs (Fin.last NDIRECT) ≠ 0)
    (hblk : d'.block (ip.addrs (Fin.last NDIRECT)) =
      setEntry (d.block (ip.addrs (Fin.last NDIRECT))) (bn - NDIRECT) a)
    {bn' : Nat} (hbn'' : bn' < MAXFILE) :
    blockAddr d' ip bn' = if bn' = bn then a else blockAddr d ip bn' := by
  unfold blockAddr
  by_cases h' : bn' < NDIRECT
  · rw [dif_pos h', dif_pos h', if_neg (by omega)]
  · rw [dif_neg h', dif_neg h', if_neg hind, if_neg hind, hblk,
      entry_setEntry _ (by unfold MAXFILE at hbn'; omega) (by unfold MAXFILE at hbn''; omega) ha]
    by_cases e : bn' = bn
    · rw [if_pos (by omega), if_pos e]
    · rw [if_neg (by omega), if_neg e]

end Bmap

/-- What `bmap(ip, bn)` leaves of a file that was well formed: block `bn` is mapped, to a zeroed
block if it was not mapped before, and no other file block moves; the file is well formed and
`Extends` what it was. The call spent at most two entries of the log, counting the one the block
it returns takes when the caller logs it, and took at most two free blocks. -/
structure BmapPost (d : Disk) (ip : Inode) (bn : Nat) (d' : Disk) (ip' : Inode) : Prop where
  mapped : blockAddr d' ip' bn ≠ 0
  wf : FileWF d' ip'
  ext : Extends d ip d' ip'
  others : ∀ bn' < MAXFILE, bn' ≠ bn → blockAddr d' ip' bn' = blockAddr d ip bn'
  fresh : blockAddr d ip bn = 0 → d'.block (blockAddr d' ip' bn) = fun _ => 0
  log : charge d'.log.lh + cost d'.log.lh (blockAddr d' ip' bn) ≤ charge d.log.lh + 2
  free : (freeBlocks d).card ≤ (freeBlocks d').card + 2

section Bmap

variable {d : Disk} {ip : Inode}

/-- A block that `balloc` hands out on a well-formed file: one that is free, not the bitmap block
and not 0, taken from the free set. -/
theorem FileWF.balloc (hwf : FileWF d ip) (hout : 1 ≤ d.log.outstanding)
    (hroom : charge d.log.lh + 1 ≤ nlog - 1) (hfree : 1 ≤ (freeBlocks d).card) :
    ∃ a, a < FSSIZE ∧ d.inUse a = false ∧ a ≠ Mkfs.bmapstart ∧ a ≠ 0 ∧
      balloc sb d = .ok (a, d.alloc a) ∧ (freeBlocks (d.alloc a)).card + 1 = (freeBlocks d).card := by
  obtain ⟨a, ha, hfreea, hcall⟩ := balloc_spec hout hroom (Finset.card_pos.mp (by omega))
  obtain ⟨hbm, ha0, -⟩ := hwf.free_facts hfreea
  have hmem : a ∈ freeBlocks d := by
    rw [freeBlocks, Finset.mem_filter, Finset.mem_range]
    exact ⟨ha, hfreea⟩
  exact ⟨a, ha, hfreea, hbm, ha0, hcall, card_freeBlocks_alloc hbm hmem⟩

/-- `bmap` of a direct block that is not mapped: the block `balloc` hands out. -/
theorem bmap_direct_hole (hwf : FileWF d ip) {bn : Nat} (hbn : bn < NDIRECT)
    (hzero : ip.addrs ⟨bn, Nat.lt_succ_of_lt hbn⟩ = 0) (hout : 1 ≤ d.log.outstanding)
    (hroom : charge d.log.lh + 1 ≤ nlog - 1) (hfree : 2 ≤ (freeBlocks d).card) :
    ∃ ip' d', bmap sb d ip bn = .ok (blockAddr d' ip' bn, ip', d') ∧ BmapPost d ip bn d' ip' := by
  obtain ⟨a, ha, hfreea, hbm, ha0, hcall, hcard⟩ := hwf.balloc hout hroom (by omega)
  -- the indirect block is one of the file's, so `balloc` leaves it
  have hind : ip.addrs (Fin.last NDIRECT) ≠ 0 →
      (d.alloc a).block (ip.addrs (Fin.last NDIRECT)) = d.block (ip.addrs (Fin.last NDIRECT)) :=
    fun h => alloc_block_of_ne (hwf.ne_bmapstart (owns_indirect h)) (hwf.ne_free (owns_indirect h) hfreea)
  have haddr := blockAddr_setDirect (a := a) hbn hind
  have hself : blockAddr (d.alloc a) (ip.setAddr ⟨bn, by omega⟩ a) bn = a := by
    rw [haddr, if_pos rfl]
  have hold : blockAddr d ip bn = 0 := by
    unfold blockAddr
    rw [dif_pos hbn, hzero]
  have hlast : (ip.setAddr ⟨bn, by omega⟩ a).addrs (Fin.last NDIRECT) = ip.addrs (Fin.last NDIRECT) := by
    rw [setAddr_addrs, Function.update_of_ne]
    intro h
    have := congrArg Fin.val h
    simp only [Fin.val_last] at this
    omega
  refine ⟨_, _, ?_, ⟨by rw [hself]; exact ha0, ?_, ?_, fun bn' _ hne => by rw [haddr, if_neg hne],
    fun _ => by rw [hself, alloc_block_self],
    by rw [hself, alloc_cost_self]; have := alloc_charge (d := d) a; omega, by omega⟩⟩
  · rw [bmap_hole hbn hzero, hcall, hself]
    rfl
  · exact hwf.map_fresh ha hfreea (fun x hx => alloc_inUse hbm hx) hlast rfl fun bn' _ => haddr bn'
  · refine ⟨rfl, rfl, rfl, rfl, rfl, fun bn' _ hne => ?_, fun bn' hbn' hne => ?_⟩
    · have hne' : bn' ≠ bn := fun h => hne (h ▸ hold)
      rw [haddr, if_neg hne']
    · exact alloc_block_of_ne (hwf.ne_bmapstart (owns_blockAddr hbn' hne))
        (hwf.ne_free (owns_blockAddr hbn' hne) hfreea)

/-- The first half of `bmap` for a block past the direct ones: the indirect block, allocated
when there is none. The file maps what it mapped. -/
theorem indirect_ready (hwf : FileWF d ip) (hout : 1 ≤ d.log.outstanding)
    (hroom : charge d.log.lh + 1 ≤ nlog - 1) (hfree : 1 ≤ (freeBlocks d).card) :
    ∃ ip₁ d₁, (∀ {β : Type} (k : Nat × Inode × Disk → Except String β),
        (if ip.addrs (Fin.last NDIRECT) = 0 then
          (balloc sb d).map (fun (addr, d) => (addr, ip.setAddr (Fin.last NDIRECT) addr, d)) >>= k
        else (Except.ok (ip.addrs (Fin.last NDIRECT), ip, d) : Except String _) >>= k) =
          k (ip₁.addrs (Fin.last NDIRECT), ip₁, d₁)) ∧
      ip₁.addrs (Fin.last NDIRECT) ≠ 0 ∧ FileWF d₁ ip₁ ∧ Extends d ip d₁ ip₁ ∧
      (∀ bn, blockAddr d₁ ip₁ bn = blockAddr d ip bn) ∧
      charge d₁.log.lh + cost d₁.log.lh (ip₁.addrs (Fin.last NDIRECT)) ≤ charge d.log.lh + 1 ∧
      (freeBlocks d).card ≤ (freeBlocks d₁).card + 1 := by
  by_cases hz : ip.addrs (Fin.last NDIRECT) = 0
  · obtain ⟨a, ha, hfreea, hbm, ha0, hcall, hcard⟩ := hwf.balloc hout hroom hfree
    have haddr := blockAddr_setIndirect (d := d) hz (alloc_block_self (d := d) a) ha0
    have hlast : (ip.setAddr (Fin.last NDIRECT) a).addrs (Fin.last NDIRECT) = a := by
      rw [setAddr_addrs, Function.update_self]
    refine ⟨_, _, ?_, by rw [hlast]; exact ha0,
      hwf.set_indirect ha hfreea (fun x hx => alloc_inUse hbm hx) hlast rfl fun bn _ => haddr bn,
      ⟨rfl, rfl, rfl, rfl, rfl, fun bn _ _ => haddr bn, fun bn hbn hne => ?_⟩, haddr,
      by rw [hlast, alloc_cost_self]; exact alloc_charge a, by omega⟩
    · intro β k
      rw [if_pos hz, hcall, hlast]
      rfl
    · exact alloc_block_of_ne (hwf.ne_bmapstart (owns_blockAddr hbn hne))
        (hwf.ne_free (owns_blockAddr hbn hne) hfreea)
  · exact ⟨ip, d, fun k => by rw [if_neg hz]; rfl, hz, hwf, Extends.refl d ip, fun _ => rfl,
      Nat.add_le_add_left (cost_le_one _ _) _, Nat.le_add_right _ _⟩

/-- The second half: entry `bn - NDIRECT` of the indirect block, set to the block `balloc` hands
out when it is 0. -/
theorem entry_ready (hwf : FileWF d ip) (hind : ip.addrs (Fin.last NDIRECT) ≠ 0) {bn : Nat}
    (hbn : NDIRECT ≤ bn) (hbn' : bn < MAXFILE) (hout : 1 ≤ d.log.outstanding)
    (hroom : charge d.log.lh + 2 ≤ nlog - 1) (hfree : 1 ≤ (freeBlocks d).card) :
    ∃ d', (if entry (d.block (ip.addrs (Fin.last NDIRECT))) (bn - NDIRECT) = 0 then do
        let (a, d) ← balloc sb d
        let d ← d.write (ip.addrs (Fin.last NDIRECT))
          (setEntry (d.block (ip.addrs (Fin.last NDIRECT))) (bn - NDIRECT) a)
        pure (a, ip, d)
      else pure (entry (d.block (ip.addrs (Fin.last NDIRECT))) (bn - NDIRECT), ip, d)) =
        .ok (blockAddr d' ip bn, ip, d') ∧
      blockAddr d' ip bn ≠ 0 ∧ FileWF d' ip ∧ Extends d ip d' ip ∧
      (∀ bn' < MAXFILE, bn' ≠ bn → blockAddr d' ip bn' = blockAddr d ip bn') ∧
      (blockAddr d ip bn = 0 → d'.block (blockAddr d' ip bn) = fun _ => 0) ∧
      charge d'.log.lh + cost d'.log.lh (blockAddr d' ip bn) ≤
        charge d.log.lh + 1 + cost d.log.lh (ip.addrs (Fin.last NDIRECT)) ∧
      (freeBlocks d).card ≤ (freeBlocks d').card + 1 := by
  set ind := ip.addrs (Fin.last NDIRECT) with hind_def
  have hnd : ¬ bn < NDIRECT := by omega
  have hentry : blockAddr d ip bn = entry (d.block ind) (bn - NDIRECT) := by
    unfold blockAddr
    rw [dif_neg hnd, if_neg hind]
  by_cases hz : entry (d.block ind) (bn - NDIRECT) = 0
  · obtain ⟨a, ha, hfreea, hbm, ha0, hcall, hcard⟩ := hwf.balloc hout (by omega) hfree
    have hindbm := hwf.ne_bmapstart (owns_indirect hind)
    have hinda := hwf.ne_free (owns_indirect hind) hfreea
    set d₂ := (d.alloc a).logged ind (setEntry ((d.alloc a).block ind) (bn - NDIRECT) a) with hd₂
    have hblk₂ : (d.alloc a).block ind = d.block ind := alloc_block_of_ne hindbm hinda
    have haddr : ∀ bn' < MAXFILE, blockAddr d₂ ip bn' = if bn' = bn then a else blockAddr d ip bn' := by
      intro bn' hbn''
      rw [blockAddr_setEntry (d := d.alloc a) (a := a) hbn hbn'
        (by unfold FSSIZE at ha; omega) hind (show d₂.block ind = _ by rw [hd₂, logged_block_self]) hbn'',
        blockAddr_congr (d := d) fun _ => hblk₂]
    have hself : blockAddr d₂ ip bn = a := by rw [haddr bn hbn', if_pos rfl]
    -- the blocks the indirect entry and the bitmap leave
    have hblk : ∀ c, c ≠ ind → c ≠ Mkfs.bmapstart → c ≠ a → d₂.block c = d.block c :=
      fun c h₁ h₂ h₃ => by rw [hd₂, logged_block_of_ne _ h₁, alloc_block_of_ne h₂ h₃]
    have huse₂ : ∀ x < FSSIZE, d₂.inUse x = (d.alloc a).inUse x :=
      fun x hx => inUse_logged_of_ne hindbm hx
    have huse : ∀ x < FSSIZE, d₂.inUse x = (x == a || d.inUse x) :=
      fun x hx => (huse₂ x hx).trans (alloc_inUse hbm hx)
    have hroom₁ : (d.alloc a).log.lh.length + 1 ≤ nlog - 1 := by
      have := length_le_charge (d.alloc a).log.lh
      have := alloc_charge (d := d) a
      omega
    refine ⟨d₂, ?_, by rw [hself]; exact ha0, hwf.map_fresh ha hfreea huse rfl rfl haddr,
      ⟨rfl, rfl, rfl, rfl, rfl, fun bn' hbn'' hne => ?_, fun bn' hbn'' hne => ?_⟩,
      fun bn' hbn'' hne => by rw [haddr bn' hbn'', if_neg hne], fun _ => ?_, ?_,
      by rw [freeBlocks_congr huse₂]; omega⟩
    · rw [if_pos hz, hcall, Except.ok_bind]
      dsimp only
      rw [write_ok (d := d.alloc a) hout hroom₁, Except.ok_bind, hself]
      rfl
    · have hne' : bn' ≠ bn := fun h => hne (h ▸ hentry.trans hz)
      rw [haddr bn' hbn'', if_neg hne']
    · have ho := owns_blockAddr hbn'' hne
      exact hblk _ (hwf.indirect bn' hbn'' hne) (hwf.ne_bmapstart ho) (hwf.ne_free ho hfreea)
    · rw [hself, hd₂, logged_block_of_ne _ (Ne.symm hinda), alloc_block_self]
    · -- the new block is logged already; the indirect block costs what it cost before
      have h₁ := charge_absorb (d.alloc a).log.lh ind
      have h₂ := alloc_charge (d := d) a
      have h₃ := alloc_cost_le (d := d) a ind
      have h₄ := cost_absorb_le (d.alloc a).log.lh a ind
      rw [alloc_cost_self] at h₄
      rw [hself]
      show charge (Log.absorb (d.alloc a).log.lh ind) + cost (Log.absorb (d.alloc a).log.lh ind) a ≤ _
      omega
  · have := cost_le_one d.log.lh (blockAddr d ip bn)
    refine ⟨d, ?_, by rw [hentry]; exact hz, hwf, Extends.refl d ip, fun _ _ _ => rfl,
      fun h => absurd (hentry ▸ h) hz, by omega, Nat.le_add_right _ _⟩
    rw [if_neg hz, hentry]
    rfl

/-- `bmap(ip, bn)` on a well-formed file, inside an operation with room for its writes and with two
free blocks: the block the file now maps at `bn`. -/
theorem bmap_spec (hwf : FileWF d ip) {bn : Nat} (hbn : bn < MAXFILE) (hout : 1 ≤ d.log.outstanding)
    (hroom : charge d.log.lh + 3 ≤ nlog - 1) (hfree : 2 ≤ (freeBlocks d).card) :
    ∃ ip' d', bmap sb d ip bn = .ok (blockAddr d' ip' bn, ip', d') ∧ BmapPost d ip bn d' ip' := by
  by_cases hd : bn < NDIRECT
  · by_cases hz : ip.addrs ⟨bn, by omega⟩ = 0
    · exact bmap_direct_hole hwf hd hz hout (by omega) hfree
    · -- mapped: returned as it is
      have haddr : blockAddr d ip bn = ip.addrs ⟨bn, by omega⟩ := by
        unfold blockAddr
        rw [dif_pos hd]
      have := cost_le_one d.log.lh (blockAddr d ip bn)
      refine ⟨ip, d, ?_, ⟨by rw [haddr]; exact hz, hwf, Extends.refl d ip, fun _ _ _ => rfl,
        fun h => absurd (haddr ▸ h) hz, by omega, Nat.le_add_right _ _⟩⟩
      rw [bmap, dif_pos hd, if_neg hz, haddr]
  · -- the indirect block first, then its entry
    have hk : bn - NDIRECT < NINDIRECT := by
      unfold MAXFILE at hbn
      omega
    obtain ⟨ip₁, d₁, hready, hind, hwf₁, hext₁, haddr₁, hlog₁, hfree₁⟩ :=
      indirect_ready hwf hout (by omega) (by omega)
    have hout₁ : 1 ≤ d₁.log.outstanding := hext₁.outstanding ▸ hout
    obtain ⟨d', hentry, hmapped, hwf', hext', hothers, hfresh', hlog', hfree'⟩ :=
      entry_ready hwf₁ hind (by omega) hbn hout₁ (by omega) (by omega)
    refine ⟨ip₁, d', ?_, ⟨hmapped, hwf', hext₁.trans hext',
      fun bn' hbn' hne => (hothers bn' hbn' hne).trans (haddr₁ bn'),
      fun h => hfresh' ((haddr₁ bn).trans h), by omega, by omega⟩⟩
    rw [bmap, dif_neg hd, if_pos hk]
    exact (hready _).trans hentry

end Bmap

/-! ### `writei`'s loop -/

/-- What writing the bytes `w o` for `o ∈ [lo, hi)` leaves of a file: those bytes written, in
blocks that are now mapped, no other block newly mapped, and every other byte and every mapped
block where it was. -/
structure Wrote (d : Disk) (ip : Inode) (lo hi : Nat) (w : Nat → UInt8) (d' : Disk) (ip' : Inode) :
    Prop where
  inum : ip'.inum = ip.inum
  type : ip'.type = ip.type
  size : ip'.size = ip.size
  dinode : d'.dinode = d.dinode
  outstanding : d'.log.outstanding = d.log.outstanding
  keep : ∀ bn < MAXFILE, blockAddr d ip bn ≠ 0 → blockAddr d' ip' bn = blockAddr d ip bn
  touched : ∀ bn < MAXFILE, blockAddr d ip bn = 0 → blockAddr d' ip' bn ≠ 0 →
    ∃ o, lo ≤ o ∧ o < hi ∧ o / BSIZE = bn
  mapped : ∀ o, lo ≤ o → o < hi → blockAddr d' ip' (o / BSIZE) ≠ 0
  written : ∀ o, lo ≤ o → o < hi → byteAt d' ip' o = w o
  frame : ∀ o, o / BSIZE < MAXFILE → blockAddr d ip (o / BSIZE) ≠ 0 → (o < lo ∨ hi ≤ o) →
    byteAt d' ip' o = byteAt d ip o

section Wrote

variable {d d₁ d₂ : Disk} {ip ip₁ ip₂ : Inode} {w : Nat → UInt8}

theorem Wrote.nil (d : Disk) (ip : Inode) (lo : Nat) (w : Nat → UInt8) : Wrote d ip lo lo w d ip :=
  ⟨rfl, rfl, rfl, rfl, rfl, fun _ _ _ => rfl, fun _ _ h₀ h => absurd h₀ h,
    fun _ h₁ h₂ => absurd h₂ (by omega), fun _ h₁ h₂ => absurd h₂ (by omega), fun _ _ _ _ => rfl⟩

/-- Two writes of adjacent ranges are one write of both. -/
theorem Wrote.trans {lo mid hi : Nat} (hlo : lo ≤ mid) (hhi : mid ≤ hi) (hmax : hi ≤ MAXFILE * BSIZE)
    (h₁ : Wrote d ip lo mid w d₁ ip₁) (h₂ : Wrote d₁ ip₁ mid hi w d₂ ip₂) : Wrote d ip lo hi w d₂ ip₂ := by
  have hblk : ∀ o, o < hi → o / BSIZE < MAXFILE := fun o ho => by
    unfold MAXFILE NINDIRECT NDIRECT BSIZE at *
    omega
  refine ⟨h₂.inum.trans h₁.inum, h₂.type.trans h₁.type, h₂.size.trans h₁.size,
    h₂.dinode.trans h₁.dinode, h₂.outstanding.trans h₁.outstanding, fun bn hbn h => ?_,
    fun bn hbn h₀ h => ?_, fun o ho₁ ho₂ => ?_, fun o ho₁ ho₂ => ?_, fun o ho hm hout => ?_⟩
  · have h' := h₁.keep bn hbn h
    rw [h₂.keep bn hbn (h'.symm ▸ h), h']
  · by_cases h₀' : blockAddr d₁ ip₁ bn = 0
    · obtain ⟨o, ho₁, ho₂, ho⟩ := h₂.touched bn hbn h₀' h
      exact ⟨o, by omega, ho₂, ho⟩
    · obtain ⟨o, ho₁, ho₂, ho⟩ := h₁.touched bn hbn h₀ h₀'
      exact ⟨o, ho₁, by omega, ho⟩
  · by_cases hmid : o < mid
    · have hm := h₁.mapped o ho₁ hmid
      rw [h₂.keep _ (hblk o ho₂) hm]
      exact hm
    · exact h₂.mapped o (by omega) ho₂
  · by_cases hmid : o < mid
    · rw [h₂.frame o (hblk o ho₂) (h₁.mapped o ho₁ hmid) (.inl hmid), h₁.written o ho₁ hmid]
    · exact h₂.written o (by omega) ho₂
  · have hm' : blockAddr d₁ ip₁ (o / BSIZE) ≠ 0 := by
      rw [h₁.keep _ ho hm]
      exact hm
    rw [h₂.frame o ho hm' (by omega), h₁.frame o ho hm (by omega)]

/-- A write is a write of any bytes that agree with it on its range. -/
theorem Wrote.congr {lo hi : Nat} {w' : Nat → UInt8} (h : Wrote d ip lo hi w d₁ ip₁)
    (hw : ∀ o, lo ≤ o → o < hi → w o = w' o) : Wrote d ip lo hi w' d₁ ip₁ :=
  { h with written := fun o h₁ h₂ => (h.written o h₁ h₂).trans (hw o h₁ h₂) }

end Wrote

/-- A byte of a block after `copyIn`. -/
theorem mem_copyIn (blk : Block) {start o : Nat} (p : List UInt8) (ho : o < BSIZE) :
    (copyIn blk start p).mem o = if start ≤ o ∧ o < start + p.length then p.getD (o - start) 0 else blk.mem o := by
  rw [copyIn, Block.mem_ofMem ho]

/-- The passes `writei`'s loop makes for `n` bytes from `off`: the blocks it touches. -/
def passes (off n : Nat) : Nat := if n = 0 then 0 else (off % BSIZE + n - 1) / BSIZE + 1

/-- One pass pays for itself: the passes left after it are one fewer. -/
theorem passes_step {off n : Nat} (hn : 0 < n) :
    passes (off + min n (BSIZE - off % BSIZE)) (n - min n (BSIZE - off % BSIZE)) + 1 = passes off n := by
  unfold passes BSIZE
  split_ifs <;> omega

section Pass

variable {d : Disk} {ip : Inode}

theorem getD_take {src : List UInt8} {m i : Nat} (hi : i < m) : (src.take m).getD i 0 = src.getD i 0 := by
  rw [List.getD_eq_getElem?_getD, List.getD_eq_getElem?_getD, List.getElem?_take, if_pos hi]

/-- A write into a block that a well-formed file maps: the file maps the same blocks and is
well formed. -/
theorem FileWF.logged (hwf : FileWF d ip) {bn : Nat} (hbn : bn < MAXFILE) (ha : blockAddr d ip bn ≠ 0)
    (blk : Block) :
    FileWF (d.logged (blockAddr d ip bn) blk) ip ∧
      blockAddr (d.logged (blockAddr d ip bn) blk) ip = blockAddr d ip := by
  have haddr : blockAddr (d.logged (blockAddr d ip bn) blk) ip = blockAddr d ip :=
    blockAddr_congr fun _ => logged_block_of_ne _ fun heq => hwf.indirect bn hbn ha heq.symm
  exact ⟨hwf.congr (fun x hx => inUse_logged_of_ne (hwf.ne_bmapstart (owns_blockAddr hbn ha)) hx)
    rfl rfl fun bn _ => congrFun haddr bn, haddr⟩

/-- One pass of `writei`'s loop on a well-formed file: block `off / BSIZE` mapped by `bmap`, the
first `m` bytes of `src` copied into it and the block logged. -/
theorem writei_pass (hwf : FileWF d ip) {off : Nat} {x : UInt8} {xs : List UInt8} (fuel : Nat)
    (hmax : off + (x :: xs).length ≤ MAXFILE * BSIZE) (hout : 1 ≤ d.log.outstanding)
    (hroom : charge d.log.lh + 3 ≤ nlog - 1) (hfree : 2 ≤ (freeBlocks d).card) :
    ∃ ip₁ d₁, writeiLoop sb (fuel + 1) d ip off (x :: xs) =
        writeiLoop sb fuel d₁ ip₁ (off + min (x :: xs).length (BSIZE - off % BSIZE))
          ((x :: xs).drop (min (x :: xs).length (BSIZE - off % BSIZE))) ∧
      FileWF d₁ ip₁ ∧
      Wrote d ip off (off + min (x :: xs).length (BSIZE - off % BSIZE))
        (fun o => (x :: xs).getD (o - off) 0) d₁ ip₁ ∧
      charge d₁.log.lh ≤ charge d.log.lh + 2 ∧ (freeBlocks d).card ≤ (freeBlocks d₁).card + 2 := by
  have hlen : 0 < (x :: xs).length := Nat.succ_pos _
  have hbn : off / BSIZE < MAXFILE := by
    unfold MAXFILE NINDIRECT NDIRECT BSIZE at *
    omega
  obtain ⟨ip₁, d₁, hcall, hpost⟩ := bmap_spec hwf hbn hout hroom hfree
  have hout₁ : 1 ≤ d₁.log.outstanding := hpost.ext.outstanding ▸ hout
  have hroom₁ : d₁.log.lh.length + 1 ≤ nlog - 1 := by
    have := hpost.log
    have := length_le_charge d₁.log.lh
    omega
  set m := min (x :: xs).length (BSIZE - off % BSIZE) with hm
  set a := blockAddr d₁ ip₁ (off / BSIZE) with ha
  set blk := copyIn (d₁.block a) (off % BSIZE) ((x :: xs).take m) with hblk
  obtain ⟨hwf₂, haddr₂⟩ := hpost.wf.logged hbn hpost.mapped blk
  -- the bytes of the pass all lie in block `off / BSIZE`
  have hin : ∀ o, off ≤ o → o < off + m → o / BSIZE = off / BSIZE := by
    intro o h₁ h₂
    unfold BSIZE at *
    omega
  have hm0 : 0 < m := by
    unfold BSIZE at hm
    omega
  refine ⟨ip₁, d₁.logged a blk, ?_, hwf₂, ?_, ?_, ?_⟩
  · rw [writeiLoop, hcall, Except.ok_bind]
    · dsimp only
      rw [write_ok hout₁ hroom₁, Except.ok_bind]
    · exact List.cons_ne_nil _ _
  · refine ⟨hpost.ext.inum, hpost.ext.type, hpost.ext.size, hpost.ext.dinode,
      hpost.ext.outstanding, fun bn' hbn' h => ?_, fun bn' hbn' h₀ h => ?_, fun o h₁ h₂ => ?_,
      fun o h₁ h₂ => ?_, fun o ho hm' hout' => ?_⟩
    · rw [haddr₂]
      exact hpost.ext.keep bn' hbn' h
    · rw [haddr₂] at h
      by_cases e : bn' = off / BSIZE
      · exact ⟨off, Nat.le_refl _, by omega, e.symm⟩
      · exact absurd ((hpost.others bn' hbn' e).trans h₀) h
    · rw [haddr₂, hin o h₁ h₂]
      exact hpost.mapped
    · -- a byte of the pass: copied from `src`
      have hmod : o % BSIZE < BSIZE := Nat.mod_lt _ (by decide)
      have htake : ((x :: xs).take m).length = m := by
        rw [List.length_take]
        omega
      have hoff : o % BSIZE - off % BSIZE = o - off := by
        have := hin o h₁ h₂
        unfold BSIZE at *
        omega
      rw [byteAt, haddr₂, hin o h₁ h₂, ← ha, logged_block_self, hblk, mem_copyIn _ _ hmod, htake,
        if_pos (by unfold BSIZE at *; omega), hoff, getD_take (by omega)]
    · -- a byte outside the pass: its block is written only where the pass is
      have hc := hpost.ext.keep _ ho hm'
      rw [byteAt, haddr₂, hc, ← hpost.ext.byteAt_eq ho hm', byteAt, hc]
      by_cases e : blockAddr d ip (o / BSIZE) = a
      · have hbo : o / BSIZE = off / BSIZE :=
          hpost.wf.inj _ ho _ hbn (by rw [hc]; exact hm') (hc.trans e)
        have hmod : o % BSIZE < BSIZE := Nat.mod_lt _ (by decide)
        rw [e, logged_block_self, hblk, mem_copyIn _ _ hmod, if_neg]
        rw [List.length_take]
        unfold BSIZE at *
        omega
      · rw [logged_block_of_ne _ e]
  · -- the block `bmap` returned spends the entry it was charged
    have hlog : charge d₁.log.lh + cost d₁.log.lh a ≤ charge d.log.lh + 2 := hpost.log
    have := charge_absorb d₁.log.lh a
    show charge (Log.absorb d₁.log.lh a) ≤ _
    omega
  · rw [freeBlocks_congr fun x hx => inUse_logged_of_ne
      (hpost.wf.ne_bmapstart (owns_blockAddr hbn hpost.mapped)) hx]
    exact hpost.free

/-- The bytes of `src` from `off`, as a function of the file offset. -/
theorem getD_drop_sub {src : List UInt8} {off m o : Nat} (h : off + m ≤ o) :
    (src.drop m).getD (o - (off + m)) 0 = src.getD (o - off) 0 := by
  rw [List.getD_eq_getElem?_getD, List.getD_eq_getElem?_getD, List.getElem?_drop,
    show m + (o - (off + m)) = o - off by omega]

/-- `writei`'s loop on a well-formed file, with room in the log and free blocks on the disk for
every pass: `src` is written from `off`, and the file is well formed after it. -/
theorem writeiLoop_spec (fuel : Nat) {d : Disk} {ip : Inode} {off : Nat} (src : List UInt8)
    (hwf : FileWF d ip) (hmax : off + src.length ≤ MAXFILE * BSIZE) (hout : 1 ≤ d.log.outstanding)
    (hroom : charge d.log.lh + 2 * passes off src.length + 1 ≤ nlog - 1)
    (hfree : 2 * passes off src.length ≤ (freeBlocks d).card) (hfuel : passes off src.length ≤ fuel) :
    ∃ ip' d', writeiLoop sb fuel d ip off src = .ok (ip', d') ∧ FileWF d' ip' ∧
      Wrote d ip off (off + src.length) (fun o => src.getD (o - off) 0) d' ip' ∧
      charge d'.log.lh ≤ charge d.log.lh + 2 * passes off src.length ∧
      (freeBlocks d).card ≤ (freeBlocks d').card + 2 * passes off src.length := by
  -- induction on the fuel, which the passes left bound; the measure drops by one a pass
  induction fuel generalizing d ip off src with
  | zero =>
    cases src with
    | nil =>
      exact ⟨ip, d, writeiLoop.eq_1 .., hwf, Wrote.nil d ip off _, Nat.le_add_right _ _,
        Nat.le_add_right _ _⟩
    | cons x xs =>
      have := @passes_step off _ (List.length_pos_of_ne_nil (List.cons_ne_nil x xs))
      omega
  | succ fuel ih =>
    cases src with
    | nil =>
      exact ⟨ip, d, writeiLoop.eq_1 .., hwf, Wrote.nil d ip off _, Nat.le_add_right _ _,
        Nat.le_add_right _ _⟩
    | cons x xs =>
      have hp := @passes_step off _ (List.length_pos_of_ne_nil (List.cons_ne_nil x xs))
      obtain ⟨ip₁, d₁, hstep, hwf₁, hw₁, hlog₁, hfree₁⟩ :=
        writei_pass hwf fuel hmax hout (by omega) (by omega)
      have hlen := List.length_drop (l := x :: xs) (i := min (x :: xs).length (BSIZE - off % BSIZE))
      have hm : min (x :: xs).length (BSIZE - off % BSIZE) ≤ (x :: xs).length := Nat.min_le_left _ _
      obtain ⟨ip', d', hrun, hwf', hw', hlog', hfree'⟩ :=
        @ih _ _ (off + min (x :: xs).length (BSIZE - off % BSIZE))
          ((x :: xs).drop (min (x :: xs).length (BSIZE - off % BSIZE))) hwf₁ (by omega)
          (hw₁.outstanding ▸ hout) (by rw [hlen]; omega) (by rw [hlen]; omega) (by rw [hlen]; omega)
      rw [hlen, Nat.add_assoc, Nat.add_sub_cancel' hm] at hw'
      refine ⟨ip', d', hstep.trans hrun, hwf', ?_, by rw [hlen] at hlog'; omega,
        by rw [hlen] at hfree'; omega⟩
      refine Wrote.trans (Nat.le_add_right _ _) (Nat.add_le_add_left hm _) hmax hw₁ ?_
      exact hw'.congr fun o h₁ _ => getD_drop_sub h₁

end Pass

/-! ### `readi` -/

section Read

variable {d : Disk} {ip : Inode}

/-- `bmap` of a block the file maps returns it and allocates nothing. -/
theorem bmap_mapped {bn : Nat} (hbn : bn < MAXFILE) (h : blockAddr d ip bn ≠ 0) :
    bmap sb d ip bn = .ok (blockAddr d ip bn, ip, d) := by
  unfold bmap
  by_cases hd : bn < NDIRECT
  · have h' : ip.addrs ⟨bn, by omega⟩ ≠ 0 := by rwa [blockAddr, dif_pos hd] at h
    rw [dif_pos hd, if_neg h', blockAddr, dif_pos hd]
  · -- through the indirect block, which the file has since `bn` is mapped
    have hind : ip.addrs (Fin.last NDIRECT) ≠ 0 := fun hz => h (by rw [blockAddr, dif_neg hd, if_pos hz])
    have hent : entry (d.block (ip.addrs (Fin.last NDIRECT))) (bn - NDIRECT) ≠ 0 := by
      rwa [blockAddr, dif_neg hd, if_neg hind] at h
    have hrange : bn - NDIRECT < NINDIRECT := by
      unfold MAXFILE at hbn
      omega
    rw [dif_neg hd, if_pos hrange, if_neg hind, Except.ok_bind]
    dsimp only
    rw [if_neg hent, blockAddr, dif_neg hd, if_neg hind]
    rfl

/-- The bytes of one block from offset `off % BSIZE` are the file's bytes from `off`. -/
theorem copyOut_blockAddr {off m : Nat} (hm : m ≤ BSIZE - off % BSIZE) :
    copyOut (d.block (blockAddr d ip (off / BSIZE))) (off % BSIZE) m =
      (List.range' off m).map (byteAt d ip) := by
  rw [copyOut, List.range'_eq_map_range, List.map_map]
  refine List.map_congr_left fun i hi => ?_
  have hi : i < m := List.mem_range.mp hi
  have hdiv : (off + i) / BSIZE = off / BSIZE := by
    unfold BSIZE at *
    omega
  have hmod : (off + i) % BSIZE = off % BSIZE + i := by
    unfold BSIZE at *
    omega
  rw [Function.comp_apply, byteAt, hdiv, hmod]

/-- `readi`'s loop over bytes the file maps: it reads them and changes nothing. -/
theorem readiLoop_mapped (fuel : Nat) {off n : Nat}
    (hmap : ∀ o, off ≤ o → o < off + n → o / BSIZE < MAXFILE ∧ blockAddr d ip (o / BSIZE) ≠ 0)
    (hfuel : n ≤ fuel) :
    readiLoop sb fuel d ip off n = .ok ((List.range' off n).map (byteAt d ip), ip, d) := by
  -- induction on the fuel; each pass reads a byte or more of the `n` left
  induction fuel generalizing off n with
  | zero =>
    obtain rfl : n = 0 := by omega
    rw [readiLoop]
    rfl
  | succ fuel ih =>
    cases n with
    | zero =>
      rw [readiLoop]
      rfl
    | succ left =>
      have hm : min (left + 1) (BSIZE - off % BSIZE) ≤ BSIZE - off % BSIZE := Nat.min_le_right _ _
      have hm₁ : 0 < min (left + 1) (BSIZE - off % BSIZE) := by
        unfold BSIZE at *
        omega
      have hm₂ : min (left + 1) (BSIZE - off % BSIZE) ≤ left + 1 := Nat.min_le_left _ _
      obtain ⟨hbn, ha⟩ := hmap off (Nat.le_refl _) (by omega)
      have hrest := @ih (off + min (left + 1) (BSIZE - off % BSIZE))
        (left + 1 - min (left + 1) (BSIZE - off % BSIZE))
        (fun o h₁ h₂ => hmap o (by omega) (by omega)) (by omega)
      rw [readiLoop, bmap_mapped hbn ha, Except.ok_bind]
      dsimp only
      rw [hrest, Except.ok_bind, copyOut_blockAddr hm]
      -- the bytes of this pass, then the bytes after it
      have hsplit := List.range'_append_1 (s := off) (m := min (left + 1) (BSIZE - off % BSIZE))
        (n := left + 1 - min (left + 1) (BSIZE - off % BSIZE))
      rw [Nat.add_sub_cancel' hm₂] at hsplit
      rw [← hsplit, List.map_append]
      rfl

/-- The file's bytes `[off, off + k)`. -/
theorem content_slice {off k : Nat} (h : off + k ≤ ip.size) :
    ((content d ip).drop off).take k = (List.range' off k).map (byteAt d ip) := by
  apply List.ext_getElem
  · simp only [content, List.length_take, List.length_drop, List.length_map, List.length_range,
      List.length_range']
    omega
  · intro i h₁ _
    simp only [content, List.getElem_take, List.getElem_drop, List.getElem_map, List.getElem_range,
      List.getElem_range', Nat.one_mul]

/-- Every byte below the size of a well-formed file is in a block it maps. -/
theorem FileWF.mapped_below (hwf : FileWF d ip) {o : Nat} (ho : o < ip.size) :
    o / BSIZE < MAXFILE ∧ blockAddr d ip (o / BSIZE) ≠ 0 := by
  have hsize := hwf.size_le
  have hbn : o / BSIZE < MAXFILE := by
    unfold BSIZE at *
    omega
  refine ⟨hbn, hwf.mapped _ hbn ?_⟩
  have := Nat.div_mul_le_self o BSIZE
  omega

end Read

/-! ### `writei` -/

section Write

variable {d : Disk} {ip : Inode}

/-- A pass writes a byte or more, so `n` fuel covers the passes for `n` bytes. -/
theorem passes_le (off n : Nat) : passes off n ≤ n := by
  unfold passes BSIZE
  split_ifs <;> omega

/-- `iupdate` inside an operation with room in the log: the inode's `struct dinode` takes its size
and addresses, and no block changes. -/
theorem iupdate_ok (hout : 1 ≤ d.log.outstanding) (hroom : d.log.lh.length + 1 ≤ nlog - 1) (ip : Inode) :
    ∃ d', d.iupdate ip = .ok d' ∧ d'.block = d.block ∧ (d'.dinode ip.inum).addrs = ip.addrs ∧
      (d'.dinode ip.inum).size = ip.size := by
  have hsize : ¬(d.log.lh.length ≥ LOGSIZE ∨ d.log.lh.length ≥ nlog - 1) := by
    unfold nlog at *
    omega
  rw [Disk.iupdate, Log.logWrite, if_neg hsize, if_neg (by omega)]
  exact ⟨_, rfl, rfl, by dsimp only; rw [Function.update_self], by dsimp only; rw [Function.update_self]⟩

/-- A well-formed file grown to a size whose blocks it maps. -/
theorem FileWF.grow (hwf : FileWF d ip) {size : Nat}
    (hmap : ∀ bn < MAXFILE, bn * BSIZE < size → blockAddr d ip bn ≠ 0) (hsize : size ≤ MAXFILE * BSIZE) :
    FileWF d { ip with size := size } :=
  { hwf with mapped := hmap, size_le := hsize }

/-- `src` spliced into the values of `f` over `[0, size)` at `off`, as the values of `g`. -/
theorem map_range_splice {f g : Nat → UInt8} {size off : Nat} (src : List UInt8) (hoff : off ≤ size)
    (hlo : ∀ o < off, g o = f o) (hmid : ∀ o, off ≤ o → o < off + src.length → g o = src.getD (o - off) 0)
    (hhi : ∀ o, off + src.length ≤ o → o < size → g o = f o) :
    (List.range (max size (off + src.length))).map g =
      ((List.range size).map f).take off ++ src ++ ((List.range size).map f).drop (off + src.length) := by
  have htake : (((List.range size).map f).take off).length = off := by
    rw [List.length_take, List.length_map, List.length_range, Nat.min_eq_left hoff]
  have hdrop : (((List.range size).map f).drop (off + src.length)).length = size - (off + src.length) := by
    rw [List.length_drop, List.length_map, List.length_range]
  apply List.ext_getElem (by rw [List.length_map, List.length_range, List.length_append,
    List.length_append, htake, hdrop]; omega)
  intro i h₁ h₂
  rw [List.length_map, List.length_range] at h₁
  rw [List.getElem_map, List.getElem_range]
  -- the three parts of the spliced list
  by_cases hi₁ : i < off
  · rw [List.getElem_append_left (by rw [List.length_append, htake]; omega),
      List.getElem_append_left (by rw [htake]; omega), List.getElem_take, List.getElem_map,
      List.getElem_range, hlo i hi₁]
  · by_cases hi₂ : i < off + src.length
    · rw [List.getElem_append_left (by rw [List.length_append, htake]; omega),
        List.getElem_append_right (by rw [htake]; omega), hmid i (by omega) hi₂,
        List.getD_eq_getElem _ _ (by omega)]
      simp only [htake]
    · rw [List.getElem_append_right (by rw [List.length_append, htake]; omega), List.getElem_drop,
        List.getElem_map, List.getElem_range, hhi _ (by omega) (by omega)]
      congr 1
      rw [List.length_append, htake]
      omega

/-- Two views with the same blocks and addresses read the same bytes. -/
theorem byteAt_congr {d' : Disk} {ip' : Inode} (h : d'.block = d.block) (ha : ip'.addrs = ip.addrs) :
    byteAt d' ip' = byteAt d ip := by
  funext o
  unfold byteAt blockAddr
  rw [h, ha]

section Wrote

variable {d₁ : Disk} {ip₁ : Inode} {src : List UInt8} {off : Nat}

/-- After a write of `src` at `off`, the file maps every block below the larger of its old size
and the write's end. -/
theorem Wrote.mapped_below (hwf : FileWF d ip) (hoff : off ≤ ip.size)
    (hw : Wrote d ip off (off + src.length) (fun o => src.getD (o - off) 0) d₁ ip₁) {bn : Nat}
    (hbn : bn < MAXFILE) (hlt : bn * BSIZE < max ip.size (off + src.length)) : blockAddr d₁ ip₁ bn ≠ 0 := by
  by_cases hold : bn * BSIZE < ip.size
  · have ha := hwf.mapped bn hbn hold
    rw [hw.keep bn hbn ha]
    exact ha
  · -- a block past the old end: its first byte is one the write wrote
    have h := hw.mapped (bn * BSIZE) (by omega) (by omega)
    rwa [Nat.mul_div_cancel _ (by decide : 0 < BSIZE)] at h

/-- The file's bytes after a write of `src` at `off`, up to the larger of its old size and the
write's end: `src` spliced into the old bytes. -/
theorem Wrote.content_eq (hwf : FileWF d ip) (hoff : off ≤ ip.size)
    (hw : Wrote d ip off (off + src.length) (fun o => src.getD (o - off) 0) d₁ ip₁) :
    (List.range (max ip.size (off + src.length))).map (byteAt d₁ ip₁) =
      (content d ip).take off ++ src ++ (content d ip).drop (off + src.length) := by
  have hframe : ∀ o, o < ip.size → (o < off ∨ off + src.length ≤ o) → byteAt d₁ ip₁ o = byteAt d ip o :=
    fun o ho hout =>
      have ⟨hbn, ha⟩ := hwf.mapped_below ho
      hw.frame o hbn ha hout
  exact map_range_splice src hoff (fun o ho => hframe o (by omega) (.inl ho)) hw.written
    fun o h₁ h₂ => hframe o h₂ (.inr h₁)

end Wrote

/-- `writei` of `src` at `off` on a well-formed file, past its argument tests, with room in the
log and on the disk: it returns `n`, the file's bytes are `src` spliced in at `off`, and the
on-disk inode records every block the write maps. -/
theorem writei_spec (hwf : FileWF d ip) {src : List UInt8} {off : Nat}
    (hok : ¬(off > ip.size ∨ (off + src.length) % 2 ^ 32 < off ∨ off + src.length > MAXFILE * BSIZE))
    (hout : 1 ≤ d.log.outstanding) (hroom : d.log.lh.length + 2 * passes off src.length + 2 ≤ nlog - 1)
    (hfree : 2 * passes off src.length ≤ (freeBlocks d).card) :
    ∃ ip' d', writei sb d ip src off = .ok (src.length, ip', d') ∧
      content d' ip' = (content d ip).take off ++ src ++ (content d ip).drop (off + src.length) ∧
      ip'.size = max ip.size (off + src.length) ∧ FileWF d' ip' ∧
      ((∃ bn < MAXFILE, blockAddr d ip bn = 0 ∧ blockAddr d' ip' bn ≠ 0) →
        (d'.dinode ip.inum).addrs = ip'.addrs ∧ (d'.dinode ip.inum).size = ip'.size) := by
  simp only [not_or, not_lt] at hok
  obtain ⟨hoff, hwrap, hmax⟩ := hok
  have hcharge := charge_le_length d.log.lh
  obtain ⟨ip₁, d₁, hrun, hwf₁, hw, hlog, -⟩ :=
    writeiLoop_spec src.length src hwf hmax hout (by omega) hfree (passes_le _ _)
  have hlen₁ := length_le_charge d₁.log.lh
  have hcontent := hw.content_eq hwf hoff
  rw [writei, if_neg (by simp only [not_or, not_lt]; exact ⟨hoff, hwrap⟩), if_neg (Nat.not_lt.mpr hmax),
    hrun, Except.ok_bind]
  dsimp only
  by_cases hgrow : src.length > 0 ∧ off + src.length > ip₁.size
  · -- the file grows: `iupdate` records its size and its blocks
    have hgrow' : max ip.size (off + src.length) = off + src.length := by
      rw [hw.size] at hgrow
      omega
    obtain ⟨d₂, hupd, hblk, haddrs, hsz⟩ :=
      iupdate_ok (hw.outstanding ▸ hout) (by omega) { ip₁ with size := off + src.length }
    rw [if_pos hgrow, hupd, Except.ok_bind]
    have hbyte : byteAt d₂ { ip₁ with size := off + src.length } = byteAt d₁ ip₁ := byteAt_congr hblk rfl
    refine ⟨_, d₂, rfl, ?_, hgrow'.symm, ?_, fun _ => ?_⟩
    · rw [content, hbyte, ← hcontent, hgrow']
    · refine (hwf₁.grow (fun bn hbn hlt => hw.mapped_below hwf hoff hbn (by omega)) (by omega)).congr
        (fun x _ => by rw [Disk.inUse, Disk.inUse, hblk]) rfl rfl fun bn _ => ?_
      unfold blockAddr
      rw [hblk]
    · rw [← hw.inum]
      exact ⟨haddrs, hsz⟩
  · -- the size stands, and so no block was mapped
    have hsize : max ip.size (off + src.length) = ip.size := by
      rw [hw.size] at hgrow
      omega
    rw [if_neg hgrow]
    refine ⟨ip₁, d₁, rfl, by rw [content, hw.size, ← hcontent, hsize], by rw [hw.size, hsize], hwf₁, ?_⟩
    rintro ⟨bn, hbn, h₀, h⟩
    obtain ⟨o, ho₁, ho₂, rfl⟩ := hw.touched bn hbn h₀ h
    have hpast : ip.size ≤ o / BSIZE * BSIZE := Nat.le_of_not_lt fun hlt => hwf.mapped _ hbn hlt h₀
    have := Nat.div_mul_le_self o BSIZE
    exact absurd ⟨by omega, by rw [hw.size]; omega⟩ hgrow

/-- `readi` of `n` bytes at `off` of a well-formed file, past its argument tests: the bytes
`[off, off + m)` with `m = min(n, size - off)`, and nothing changed. -/
theorem readi_spec (hwf : FileWF d ip) {off n : Nat} (hok : ¬(off > ip.size ∨ (off + n) % 2 ^ 32 < off)) :
    readi sb d ip off n =
      .ok (((min n (ip.size - off) : Nat) : Int), ((content d ip).drop off).take (min n (ip.size - off)), ip,
        d) := by
  have hoff : off ≤ ip.size := Nat.not_lt.mp fun h => hok (.inl h)
  have hm : (if off + n > ip.size then ip.size - off else n) = min n (ip.size - off) := by
    split_ifs <;> omega
  rw [readi, if_neg hok]
  dsimp only
  rw [hm, readiLoop_mapped _ (fun o _ h₂ => hwf.mapped_below (by omega)) (Nat.le_refl _),
    content_slice (by omega)]
  rfl

end Write

/-! ### `readi` and `writei` as a byte array -/

/-- `readi` and `writei` on a well-formed file are a read and a write of its bytes `content`.
Requests out of range return -1 and change nothing. A write that fits in the log and the free
blocks returns `n`, splices `src` in at `off`, grows the file to the write's end, keeps it well
formed, and records its size and blocks in the on-disk inode whenever it maps a new block. A read
returns the bytes `[off, off + min(n, size - off))` and changes nothing. -/
theorem readi_writei_byte_array {d : Disk} {ip : Inode} (hwf : FileWF d ip) (src : List UInt8)
    (off n : Nat) :
    ((off > ip.size ∨ (off + src.length) % 2 ^ 32 < off ∨ off + src.length > MAXFILE * BSIZE) →
        writei sb d ip src off = .ok (-1, ip, d)) ∧
      (¬(off > ip.size ∨ (off + src.length) % 2 ^ 32 < off ∨ off + src.length > MAXFILE * BSIZE) →
        1 ≤ d.log.outstanding → d.log.lh.length + 2 * passes off src.length + 2 ≤ nlog - 1 →
        2 * passes off src.length ≤ (freeBlocks d).card →
        ∃ ip' d', writei sb d ip src off = .ok (src.length, ip', d') ∧
          content d' ip' = (content d ip).take off ++ src ++ (content d ip).drop (off + src.length) ∧
          ip'.size = max ip.size (off + src.length) ∧ FileWF d' ip' ∧
          ((∃ bn < MAXFILE, blockAddr d ip bn = 0 ∧ blockAddr d' ip' bn ≠ 0) →
            (d'.dinode ip.inum).addrs = ip'.addrs ∧ (d'.dinode ip.inum).size = ip'.size)) ∧
      ((off > ip.size ∨ (off + n) % 2 ^ 32 < off) → readi sb d ip off n = .ok (-1, [], ip, d)) ∧
      (¬(off > ip.size ∨ (off + n) % 2 ^ 32 < off) →
        readi sb d ip off n =
          .ok (((min n (ip.size - off) : Nat) : Int), ((content d ip).drop off).take (min n (ip.size - off)),
            ip, d)) := by
  refine ⟨fun hbad => ?_, fun hok => writei_spec hwf hok, fun hbad => by rw [readi, if_pos hbad],
    fun hok => readi_spec hwf hok⟩
  -- the two tests of `writei`, in the source's order
  by_cases h : off > ip.size ∨ (off + src.length) % 2 ^ 32 < off
  · rw [writei, if_pos h]
  · have hmax : off + src.length > MAXFILE * BSIZE := by tauto
    rw [writei, if_neg h, if_pos hmax]

/-- A file with no blocks, of inode 2, and a disk whose bitmap marks the `nmeta` metadata blocks
and nothing else, inside an operation with an empty log. -/
def newFile : Inode := ⟨2, 2, 0, fun _ => 0⟩

def metaDisk : Disk :=
  ⟨fun b => if b = Mkfs.bmapstart then
      Block.ofMem fun i => if i < 7 then 0xFF else if i = 7 then 7 else 0
    else fun _ => 0, fun _ => ⟨0, 0, 0, fun _ => 0⟩, ⟨[], 1, false⟩⟩

theorem blockAddr_newFile (d : Disk) (bn : Nat) : blockAddr d newFile bn = 0 := by
  unfold blockAddr
  split
  · rfl
  · exact if_pos rfl

/-- A file with no blocks is well formed on a disk that marks the metadata blocks. -/
theorem FileWF.newFile {d : Disk} (hmeta : ∀ b < nmeta, d.inUse b = true) : FileWF d newFile := by
  refine ⟨hmeta, fun b hb => ?_, fun bn _ _ _ h => absurd (blockAddr_newFile d bn) h,
    fun bn _ h => absurd (blockAddr_newFile d bn) h, fun _ _ h => absurd h (Nat.not_lt_zero _),
    Nat.zero_le _⟩
  obtain ⟨hb0, ⟨bn, -, hbn⟩ | hb⟩ := hb
  · exact absurd (hbn.symm.trans (blockAddr_newFile d bn)) hb0
  · exact absurd hb.symm hb0

/-- Two bytes written at the start of a new file on `metaDisk` are the file's bytes. -/
theorem readi_writei_byte_array_hi :
    ∃ ip' d', writei sb metaDisk newFile [0x68, 0x69] 0 = .ok (2, ip', d') ∧
      content d' ip' = [0x68, 0x69] := by
  have hwf : FileWF metaDisk newFile := FileWF.newFile (by decide)
  -- blocks 59 and 60 are past the bits `metaDisk` sets
  have hfree : 2 * passes 0 [0x68, 0x69].length ≤ (freeBlocks metaDisk).card :=
    two_le_card_freeBlocks 59 60 (by decide) (by decide) (by decide) (by decide) (by decide)
  obtain ⟨-, hw, -, -⟩ := readi_writei_byte_array hwf [0x68, 0x69] 0 0
  obtain ⟨ip', d', hrun, hcontent, -⟩ := hw (by decide) (by decide) (by decide) hfree
  exact ⟨ip', d', hrun, hcontent⟩

/-- `writei` past its tests fails as the `bmap` of its first pass does. -/
theorem writei_of_bmap_error {d : Disk} {ip : Inode} {src : List UInt8} {off : Nat} {e : String}
    (htests : ¬(off > ip.size ∨ (off + src.length) % 2 ^ 32 < off ∨
      off + src.length > MAXFILE * BSIZE))
    (hsrc : src ≠ []) (he : bmap sb d ip (off / BSIZE) = .error e) :
    writei sb d ip src off = .error e := by
  obtain ⟨h₁, h₂, h₃⟩ : ¬off > ip.size ∧ ¬(off + src.length) % 2 ^ 32 < off ∧
      ¬off + src.length > MAXFILE * BSIZE := by simpa only [not_or] using htests
  obtain ⟨c, cs, rfl⟩ := List.exists_cons_of_ne_nil hsrc
  rw [writei, if_neg (not_or.mpr ⟨h₁, h₂⟩), if_neg h₃, List.length_cons, writeiLoop, he]
  · rfl
  · exact hsrc

/-- A disk whose bitmap marks every block, inside an operation with an empty log. -/
def fullDisk : Disk := ⟨fun _ => fun _ => 0xFF, fun _ => ⟨0, 0, 0, fun _ => 0⟩, ⟨[], 1, false⟩⟩

/-- Every bit of `fullDisk`'s bitmap is set. -/
theorem fullDisk_full : ∀ b, ∀ i < BPB, Bitmap.test (fullDisk.block (BBLOCK b sb)).mem i = true := by
  intro b i hi
  have hbyte : i / 8 < BSIZE := by unfold BPB at hi; omega
  have hbit : ∀ k < 8, (0xFF : UInt8).toNat.testBit k = true := by decide
  rw [Bitmap.test_eq, Block.mem, dif_pos hbyte]
  exact hbit _ (Nat.mod_lt _ (by decide))

/-- On a full disk, a one-byte write to a new file, well formed and past `writei`'s tests, does
not return 1: `balloc` panics. -/
theorem writei_full_disk_panics :
    FileWF fullDisk newFile ∧
      ¬(0 > newFile.size ∨ (0 + [0x68].length) % 2 ^ 32 < 0 ∨ 0 + [0x68].length > MAXFILE * BSIZE) ∧
      writei sb fullDisk newFile [0x68] 0 = .error "balloc: out of blocks" := by
  have htests : ¬(0 > newFile.size ∨ (0 + [0x68].length) % 2 ^ 32 < 0 ∨
      0 + [0x68].length > MAXFILE * BSIZE) := by decide
  -- block 0 of the new file is a hole, so `bmap` calls `balloc`
  have hbmap : bmap sb fullDisk newFile (0 / BSIZE) = .error "balloc: out of blocks" := by
    rw [Nat.zero_div, bmap_hole (by decide) rfl, balloc_full fullDisk_full]
    rfl
  exact ⟨FileWF.newFile (by decide), htests, writei_of_bmap_error htests (List.cons_ne_nil _ _) hbmap⟩

end Xv6.Fs
