import Xv6.Fs.Mkfs
import Xv6.Log.Admission
import Xv6.Lib.Bitmap

/-!
Blocks of files in the kernel (`fs.c`): `balloc` takes the first free block in the bitmap,
`bmap` maps a file block to a disk block and allocates one when it is not mapped, and
`readi` and `dirlookup` read through `bmap`.

Every block `bmap` allocates is written with `log_write`, twice: the bitmap block and the
zeroed block. `log_write` panics outside a transaction, and `readi` allocates when it reads
a block inside the size that is not mapped, so a read outside a transaction of a file with
such a hole panics. `mkfs` leaves one in the root (`mkfs_root_hole`), and `fileread` calls
`readi` with no `begin_op` (`fileread_root_hole_panics`). Inside a transaction the block is
allocated in the bitmap and in the cached inode only: nothing calls `iupdate`, so no inode
on disk refers to it (`lookup_orphans_block`).

The disk is seen through `bread`: the blocks with whatever has been written to them, the
inode table as `mkfs` writes it, and the log's state.
-/

namespace Xv6.Fs

open Xv6.Mkfs (Dinode Image entry setEntry nlog mkfs)
open Xv6.Inodes (T_DIR NINODES)

/-- The fields of `struct superblock` that `balloc` reads. -/
structure Superblock where
  size : Nat
  bmapstart : Nat

/-- The superblock `mkfs` writes. -/
def sb : Superblock := ⟨FSSIZE, Mkfs.bmapstart⟩

/-- `BBLOCK(b, sb)`: the bitmap block holding block `b`'s bit. -/
def BBLOCK (b : Nat) (sb : Superblock) : Nat := b / BPB + sb.bmapstart

/-- The disk through the buffer cache, the inode table, and `struct log`. -/
structure Disk where
  block : Nat → Block
  dinode : Nat → Dinode
  log : Log.LogState

/-- The disk `mkfs` wrote, with the log idle. -/
def Disk.boot (img : Image) : Disk := ⟨img.sector, img.inode, ⟨[], 0, false⟩⟩

/-- A buffer changed and passed to `log_write`, on the log of `nlog` blocks `mkfs` makes. -/
def Disk.write (d : Disk) (b : Nat) (blk : Block) : Except String Disk :=
  (Log.logWrite nlog d.log b).map fun l => { d with block := Function.update d.block b blk, log := l }

/-- The fields of `struct inode` that `bmap`, `readi` and `dirlookup` read. -/
structure Inode where
  inum : Nat
  type : Nat
  size : Nat
  addrs : Fin (NDIRECT + 1) → Nat

/-- `ilock` reading inode `inum` from the disk. -/
def Inode.load (d : Disk) (inum : Nat) : Inode :=
  ⟨inum, (d.dinode inum).type, (d.dinode inum).size, (d.dinode inum).addrs⟩

def Inode.setAddr (ip : Inode) (j : Fin (NDIRECT + 1)) (v : Nat) : Inode :=
  { ip with addrs := Function.update ip.addrs j v }

/-! ### `balloc` and `bmap` -/

/-- `balloc`'s inner loop over the bits of bitmap block `blk` for blocks `b + bi`: the first
clear bit with `bi < BPB` and `b + bi < sb.size`. -/
def freeBit (sb : Superblock) (blk : Block) (b : Nat) : Option Nat :=
  (List.range (min BPB (sb.size - b))).find? fun bi => !Bitmap.test blk.mem bi

/-- `balloc`'s outer loop from block `b`, with `k` bitmap blocks left to look at: the bit is
set and logged, then the block is zeroed and logged (`bzero`). -/
def ballocLoop (sb : Superblock) (d : Disk) : Nat → Nat → Except String (Nat × Disk)
  | 0, _ => .error "balloc: out of blocks"
  | k + 1, b =>
    match freeBit sb (d.block (BBLOCK b sb)) b with
    | some bi => do
      let d ← d.write (BBLOCK b sb) (Block.ofMem (Bitmap.set (d.block (BBLOCK b sb)).mem bi))
      let d ← d.write (b + bi) fun _ => 0
      pure (b + bi, d)
    | none => ballocLoop sb d k (b + BPB)

/-- `balloc(dev)`: `for(b = 0; b < sb.size; b += BPB)`. -/
def balloc (sb : Superblock) (d : Disk) : Except String (Nat × Disk) :=
  ballocLoop sb d ((sb.size + BPB - 1) / BPB) 0

/-- `bmap(ip, bn)`: the disk block of file block `bn`, allocated when it is 0. -/
def bmap (sb : Superblock) (d : Disk) (ip : Inode) (bn : Nat) : Except String (Nat × Inode × Disk) :=
  if h : bn < NDIRECT then
    if ip.addrs ⟨bn, Nat.lt_succ_of_lt h⟩ = 0 then
      (balloc sb d).map fun (addr, d) => (addr, ip.setAddr ⟨bn, Nat.lt_succ_of_lt h⟩ addr, d)
    else .ok (ip.addrs ⟨bn, Nat.lt_succ_of_lt h⟩, ip, d)
  else if bn - NDIRECT < NINDIRECT then do
    -- load the indirect block, allocating if necessary
    let (addr, ip, d) ← if ip.addrs (Fin.last NDIRECT) = 0 then
        (balloc sb d).map fun (addr, d) => (addr, ip.setAddr (Fin.last NDIRECT) addr, d)
      else .ok (ip.addrs (Fin.last NDIRECT), ip, d)
    if entry (d.block addr) (bn - NDIRECT) = 0 then do
      let (a, d) ← balloc sb d
      let d ← d.write addr (setEntry (d.block addr) (bn - NDIRECT) a)
      pure (a, ip, d)
    else pure (entry (d.block addr) (bn - NDIRECT), ip, d)
  else .error "bmap: out of range"

/-! ### `readi` -/

/-- `memmove(dst, bp->data + o, m)`: the `m` bytes of a block from offset `o`. -/
def copyOut (blk : Block) (o m : Nat) : List UInt8 := (List.range m).map fun i => blk.mem (o + i)

/-- `readi`'s loop, `left = n - tot` bytes to go from `off`; each pass copies
`m = min(n - tot, BSIZE - off%BSIZE)` bytes of block `off/BSIZE`, at least one, so `fuel`
passes are enough for `fuel` bytes. -/
def readiLoop (sb : Superblock) : Nat → Disk → Inode → Nat → Nat →
    Except String (List UInt8 × Inode × Disk)
  | _, d, ip, _, 0 => .ok ([], ip, d)
  | 0, _, _, _, _ + 1 => .error "readi: fuel"
  | fuel + 1, d, ip, off, left + 1 => do
    let (addr, ip, d) ← bmap sb d ip (off / BSIZE)
    let m := min (left + 1) (BSIZE - off % BSIZE)
    let (rest, ip, d) ← readiLoop sb fuel d ip (off + m) (left + 1 - m)
    pure (copyOut (d.block addr) (off % BSIZE) m ++ rest, ip, d)

/-- `readi(ip, dst, off, n)` of an inode that is not a device: -1, or the count read with the
bytes copied to `dst`. `off + n < off` is the test for `uint` overflow. -/
def readi (sb : Superblock) (d : Disk) (ip : Inode) (off n : Nat) :
    Except String (Int × List UInt8 × Inode × Disk) :=
  if off > ip.size ∨ (off + n) % 2 ^ 32 < off then .ok (-1, [], ip, d)
  else
    let n := if off + n > ip.size then ip.size - off else n
    (readiLoop sb n d ip off n).map fun (bytes, ip, d) => (n, bytes, ip, d)

/-- `fileread` of an inode file at `f->off`: `readi` under the inode's lock, with no
`begin_op`. Returns what `readi` returned and the new `f->off`. -/
def fileread (sb : Superblock) (d : Disk) (ip : Inode) (off n : Nat) :
    Except String (Int × List UInt8 × Inode × Disk × Nat) :=
  (readi sb d ip off n).map fun (r, bytes, ip, d) => (r, bytes, ip, d, if r > 0 then off + r.toNat else off)

/-! ### `dirlookup` -/

/-- `strncmp(p, q, n)` on NUL-terminated strings, a string reading NUL past its end. -/
def strncmp : List UInt8 → List UInt8 → Nat → Int
  | _, _, 0 => 0
  | p, q, n + 1 =>
    if p.headD 0 ≠ 0 ∧ p.headD 0 = q.headD 0 then strncmp p.tail q.tail n
    else ((p.headD 0).toNat : Int) - (q.headD 0).toNat

/-- `namecmp(s, t)`. -/
def namecmp (s t : List UInt8) : Int := strncmp s t DIRSIZ

/-- `struct dirent` read from its 16 bytes: `inum` and `name`. -/
def direntOf (bytes : List UInt8) : Nat × List UInt8 :=
  ((bytes.getD 0 0).toNat + 256 * (bytes.getD 1 0).toNat, bytes.drop 2)

/-- `dirlookup`'s loop from `off`, with `k` entries left below `dp->size`: the entry's `inum`
and offset when one is named `name`. -/
def dirlookupLoop (sb : Superblock) (name : List UInt8) :
    Nat → Disk → Inode → Nat → Except String (Option (Nat × Nat) × Inode × Disk)
  | 0, d, dp, _ => .ok (none, dp, d)
  | k + 1, d, dp, off => do
    let (r, de, dp, d) ← readi sb d dp off 16
    if r ≠ 16 then .error "dirlookup read"
    else if (direntOf de).1 = 0 then dirlookupLoop sb name k d dp (off + 16)
    else if namecmp name (direntOf de).2 = 0 then .ok (some ((direntOf de).1, off), dp, d)
    else dirlookupLoop sb name k d dp (off + 16)

/-- `dirlookup(dp, name, &off)`, up to the `iget` of the inode found. -/
def dirlookup (sb : Superblock) (d : Disk) (dp : Inode) (name : List UInt8) :
    Except String (Option (Nat × Nat) × Inode × Disk) :=
  if dp.type ≠ T_DIR then .error "dirlookup not DIR"
  else dirlookupLoop sb name ((dp.size + 15) / 16) d dp 0

/-! ### Allocation outside a transaction -/

/-- `log_write` with no operation in progress panics, once past the check of the log's size. -/
theorem write_outside {d : Disk} (hout : d.log.outstanding = 0) (hroom : d.log.lh.length + 1 < nlog)
    (b : Nat) (blk : Block) : d.write b blk = .error "log_write outside of trans" := by
  have hsize : ¬(d.log.lh.length ≥ LOGSIZE ∨ d.log.lh.length ≥ nlog - 1) := by
    unfold Mkfs.nlog at *
    omega
  unfold Disk.write Log.logWrite
  rw [if_neg hsize, if_pos (by omega)]
  rfl

/-- On `mkfs`'s disk there is one bitmap block; a clear bit for a block of the disk is found. -/
theorem freeBit_isSome {blk : Block} {bi : Nat} (hbi : bi < FSSIZE)
    (hclear : Bitmap.test blk.mem bi = false) : ∃ x, freeBit sb blk 0 = some x := by
  have hrange : bi ∈ List.range (min BPB (sb.size - 0)) := by
    rw [List.mem_range]
    unfold sb BPB BSIZE
    unfold FSSIZE at hbi ⊢
    simp only [Nat.sub_zero]
    omega
  apply Option.isSome_iff_exists.mp
  rw [freeBit, List.find?_isSome]
  exact ⟨bi, hrange, by simp [hclear]⟩

/-- With a clear bit in the bitmap and no operation in progress, `balloc` panics at its first
`log_write`. -/
theorem balloc_outside {d : Disk} (hout : d.log.outstanding = 0) (hroom : d.log.lh.length + 1 < nlog)
    {bi : Nat} (hbi : bi < FSSIZE) (hclear : Bitmap.test (d.block Mkfs.bmapstart).mem bi = false) :
    balloc sb d = .error "log_write outside of trans" := by
  obtain ⟨x, hx⟩ := freeBit_isSome hbi hclear
  have hk : (sb.size + BPB - 1) / BPB = 0 + 1 := by decide
  rw [balloc, hk, ballocLoop, show BBLOCK 0 sb = Mkfs.bmapstart from rfl, hx]
  simp only [write_outside hout hroom]
  rfl

/-- A bitmap block whose bits are all set has no free bit. -/
theorem freeBit_full {blk : Block} (hfull : ∀ i < BPB, Bitmap.test blk.mem i = true) (b : Nat) :
    freeBit sb blk b = none := by
  rw [freeBit, List.find?_eq_none]
  intro bi hbi
  have hlt : bi < BPB := Nat.lt_of_lt_of_le (List.mem_range.mp hbi) (Nat.min_le_left _ _)
  simp [hfull bi hlt]

/-- On a disk whose bitmap has every bit set, `balloc` panics. -/
theorem balloc_full {d : Disk}
    (hfull : ∀ b, ∀ i < BPB, Bitmap.test (d.block (BBLOCK b sb)).mem i = true) :
    balloc sb d = .error "balloc: out of blocks" := by
  -- the outer loop finds no free bit in any bitmap block it looks at
  have hloop : ∀ k b, ballocLoop sb d k b = .error "balloc: out of blocks" := by
    intro k
    induction k with
    | zero => intro b; rfl
    | succ k ih =>
      intro b
      rw [ballocLoop, freeBit_full (hfull b) b]
      exact ih (b + BPB)
  exact hloop _ 0

/-- A direct block that is not mapped is allocated. -/
theorem bmap_hole {d : Disk} {ip : Inode} {j : Nat} (hj : j < NDIRECT)
    (hhole : ip.addrs ⟨j, Nat.lt_succ_of_lt hj⟩ = 0) :
    bmap sb d ip j =
      (balloc sb d).map fun (addr, d) => (addr, ip.setAddr ⟨j, Nat.lt_succ_of_lt hj⟩ addr, d) := by
  rw [bmap, dif_pos hj, if_pos hhole]

/-- `readi` inside the size starts with `bmap` of the block at `off`; when that panics, so does
`readi`. -/
theorem readi_of_bmap_error {d : Disk} {ip : Inode} {off n : Nat} {e : String} (hoff : off < ip.size)
    (hn : 0 < n) (hwrap : off + n < 2 ^ 32) (he : bmap sb d ip (off / BSIZE) = .error e) :
    readi sb d ip off n = .error e := by
  have hcount : 0 < (if off + n > ip.size then ip.size - off else n) := by
    split <;> omega
  obtain ⟨m, hm⟩ : ∃ m, (if off + n > ip.size then ip.size - off else n) = m + 1 :=
    ⟨_, (Nat.succ_pred_eq_of_pos hcount).symm⟩
  rw [readi, if_neg (by rw [Nat.mod_eq_of_lt hwrap]; omega)]
  simp only [hm, readiLoop, he]
  rfl

/-- On every disk `mkfs` writes whose root entries fill whole blocks, with a block left free,
`fileread` of the root at the end of its entries (`ls` reading the root, one `struct dirent`
at a time) calls `log_write` with no operation in progress and panics. -/
theorem fileread_root_hole_panics {files : List Mkfs.Input} {img : Image} (hm : mkfs files = some img)
    (hfull : (files.length + 2) % 32 = 0) (hfit : 16 * (files.length + 2) < NDIRECT * BSIZE)
    (hfree : img.freeblock < FSSIZE) :
    fileread sb (Disk.boot img) (Inode.load (Disk.boot img) ROOTINO) (16 * (files.length + 2)) 16 =
      .error "log_write outside of trans" := by
  obtain ⟨hsize, hhole⟩ := Mkfs.mkfs_root_full hm hfull hfit
  have hclear : Bitmap.test ((Disk.boot img).block Mkfs.bmapstart).mem img.freeblock = false := by
    rw [show (Disk.boot img).block = img.sector from rfl, (Mkfs.mkfs_bitmap hm img.freeblock).1]
    simp
  have hj : (files.length + 2) / 32 < NDIRECT := by
    unfold NDIRECT at hfit ⊢
    unfold BSIZE at hfit
    omega
  -- the entry at `16 (k + 2)` is the first of block `(k + 2) / 32`, the one `mkfs` left unmapped
  have hblock : 16 * (files.length + 2) / BSIZE = (files.length + 2) / 32 := by
    unfold BSIZE
    omega
  have hbmap : bmap sb (Disk.boot img) (Inode.load (Disk.boot img) ROOTINO)
      (16 * (files.length + 2) / BSIZE) = .error "log_write outside of trans" := by
    rw [hblock, bmap_hole hj hhole, balloc_outside (d := Disk.boot img) rfl (show 0 + 1 < nlog by decide) hfree hclear]
    rfl
  have hoff : 16 * (files.length + 2) < (Inode.load (Disk.boot img) ROOTINO).size := by
    show 16 * (files.length + 2) < (img.inode ROOTINO).size
    rw [hsize]
    unfold BSIZE
    omega
  have hwrap : 16 * (files.length + 2) + 16 < 2 ^ 32 := by
    unfold NDIRECT BSIZE at hfit
    omega
  rw [fileread, readi_of_bmap_error hoff (by decide) hwrap hbmap]
  rfl

/-- Thirty files with distinct names and no bytes, `f00` to `f29`: with `.` and `..` the root's
entries fill one block. -/
def thirtyFiles : List Mkfs.Input :=
  (List.range 30).map fun i => ⟨[ch 'f', (48 + i / 10).toUInt8, (48 + i % 10).toUInt8], []⟩

/-- The disk `mkfs` writes for `thirtyFiles`. -/
def thirtyDisk : Disk := Disk.boot ((mkfs thirtyFiles).getD Mkfs.Image.zero)

/-- Reading the root of `thirtyDisk` at offset 512, its 33rd entry, panics. -/
theorem fileread_root_hole_panics_thirty :
    fileread sb thirtyDisk (Inode.load thirtyDisk ROOTINO) 512 16 = .error "log_write outside of trans" :=
  @fileread_root_hole_panics thirtyFiles _ rfl (by decide) (by decide) (by decide +kernel)

/-! ### The bitmap and the inodes on disk -/

/-- Block `b` is one the on-disk inode `din` refers to: a nonzero direct address, its indirect
block, or a nonzero entry of that block. -/
def Refers (d : Disk) (din : Dinode) (b : Nat) : Prop :=
  b ≠ 0 ∧ ((∃ j : Fin (NDIRECT + 1), din.addrs j = b) ∨
    (din.addrs (Fin.last NDIRECT) ≠ 0 ∧
      ∃ i < NINDIRECT, entry (d.block (din.addrs (Fin.last NDIRECT))) i = b))

instance (d : Disk) (din : Dinode) (b : Nat) : Decidable (Refers d din b) :=
  inferInstanceAs (Decidable (_ ∧ _))

/-- Block `b`'s bit in the bitmap. -/
def Disk.inUse (d : Disk) (b : Nat) : Bool := Bitmap.test (d.block (BBLOCK b sb)).mem (b % BPB)

/-- The bitmap marks exactly the metadata blocks and the blocks that allocated inodes on disk
refer to. -/
def BitmapExact (d : Disk) : Prop :=
  ∀ b < sb.size, d.inUse b = true ↔
    b < Mkfs.nmeta ∨ ∃ inum < NINODES, (d.dinode inum).type ≠ 0 ∧ Refers d (d.dinode inum) b

/-- Block `b` is marked in use, is not metadata, and no allocated inode on disk refers to it. -/
def Disk.orphan (d : Disk) (b : Nat) : Bool :=
  d.inUse b && decide (Mkfs.nmeta ≤ b) &&
    (List.range NINODES).all fun inum => (d.dinode inum).type == 0 || !decide (Refers d (d.dinode inum) b)

theorem not_bitmapExact_of_orphan {d : Disk} {b : Nat} (hb : b < sb.size) (h : d.orphan b = true) :
    ¬ BitmapExact d := by
  intro hexact
  simp only [Disk.orphan, Bool.and_eq_true, decide_eq_true_eq, List.all_eq_true, List.mem_range,
    Bool.or_eq_true, beq_iff_eq, Bool.not_eq_true', decide_eq_false_iff_not] at h
  obtain ⟨⟨huse, hmeta⟩, hnone⟩ := h
  rcases (hexact b hb).mp huse with hlt | ⟨inum, hinum, htype, hrefers⟩
  · omega
  · rcases hnone inum hinum with h0 | hnot
    · exact htype h0
    · exact hnot hrefers

/-- `open("zz", O_RDONLY)` on `thirtyDisk`: inside the operation `namei` looks `zz` up in the root,
reads the root's second block, which `mkfs` left unmapped, and `bmap` allocates block 60 for it,
in the bitmap and in the cached root only. When the call has returned, block 60 is marked in
use and no inode on disk refers to it. -/
theorem lookup_orphans_block :
    ∃ l dp d' l', Log.beginOp thirtyDisk.log = some l ∧
      dirlookup sb { thirtyDisk with log := l } (Inode.load thirtyDisk ROOTINO) (cstr "zz") =
        .ok (none, dp, d') ∧
      Log.endOp d'.log = .ok l' ∧ ¬ BitmapExact { d' with log := Log.finishCommit l' } := by
  have hcheck : (match dirlookup sb { thirtyDisk with log := ⟨[], 1, false⟩ }
      (Inode.load thirtyDisk ROOTINO) (cstr "zz") with
    | .ok (none, _, d') => d'.orphan 60 && (Log.endOp d'.log).toBool
    | _ => false) = true := by decide +kernel
  split at hcheck
  · rename_i dp d' hlookup
    rw [Bool.and_eq_true] at hcheck
    obtain ⟨horphan, hend⟩ := hcheck
    obtain ⟨l', hl'⟩ : ∃ l', Log.endOp d'.log = .ok l' := by
      cases h : Log.endOp d'.log with
      | error e => rw [h] at hend; cases hend
      | ok l' => exact ⟨l', rfl⟩
    exact ⟨_, dp, d', l', rfl, hlookup, hl', not_bitmapExact_of_orphan (by decide) horphan⟩
  · cases hcheck

end Xv6.Fs
