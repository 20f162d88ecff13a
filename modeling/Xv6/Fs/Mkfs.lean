import Xv6.Inode.Cache
import Xv6.Lib.LittleEndian
import Xv6.Lib.Bitmap

/-!
The image `mkfs` writes (`mkfs.c`).

`mkfs` zeroes the disk, allocates the root directory with `.` and `..`, and for each input
file allocates an inode, enters it in the root and appends its bytes. `iappend` maps file
blocks on demand from `freeblock`, through the indirect block past `NDIRECT`. It then rounds
the root's size up to a block, and marks blocks `[0, freeblock)` in the bitmap.

The rounding is `((off/BSIZE) + 1) * BSIZE`. When the root's entries fill whole blocks this
adds a block that was never mapped, so the root's size covers a block whose address is 0
(`mkfs_root_hole`).

The image is its sectors and the table of on-disk inodes; the superblock's fields are the
constants below, computed as `mkfs` computes them.
-/

namespace Xv6.Mkfs

open Xv6.Inodes (T_DIR NINODES)

/-- `T_FILE`. -/
def T_FILE : Nat := 2

/-- `IPB`: 64-byte `struct dinode`s per block. -/
def IPB : Nat := BSIZE / 64

def nlog : Nat := LOGSIZE
def ninodeblocks : Nat := NINODES / IPB + 1
def nbitmap : Nat := FSSIZE / (BSIZE * 8) + 1
/-- Boot block, superblock, log, inode blocks and bitmap. -/
def nmeta : Nat := 2 + nlog + ninodeblocks + nbitmap
/-- `sb.bmapstart`. -/
def bmapstart : Nat := 2 + nlog + ninodeblocks

@[simp] theorem nmeta_eq : nmeta = 59 := rfl
@[simp] theorem bmapstart_eq : bmapstart = 58 := rfl

/-- `struct dinode`, less `major` and `minor`. -/
structure Dinode where
  type : Nat
  nlink : Nat
  size : Nat
  addrs : Fin (NDIRECT + 1) → Nat

def Dinode.setAddr (din : Dinode) (j : Fin (NDIRECT + 1)) (v : Nat) : Dinode :=
  { din with addrs := Function.update din.addrs j v }

/-- The disk image: its sectors and the inode table, with `mkfs`'s counters `freeblock` and
`freeinode`. -/
structure Image where
  sector : Nat → Block
  inode : Nat → Dinode
  freeblock : Nat
  freeinode : Nat

def Image.setSector (img : Image) (b : Nat) (blk : Block) : Image :=
  { img with sector := Function.update img.sector b blk }

/-- `winode(inum, din)`. -/
def Image.setInode (img : Image) (inum : Nat) (din : Dinode) : Image :=
  { img with inode := Function.update img.inode inum din }

/-- `freeblock++`. -/
def Image.bump (img : Image) : Image := { img with freeblock := img.freeblock + 1 }

/-- `ialloc(type)`: the next inode, with one link and size 0. -/
def Image.ialloc (img : Image) (type : Nat) : Image :=
  { img.setInode img.freeinode ⟨type, 1, 0, fun _ => 0⟩ with freeinode := img.freeinode + 1 }

/-- Entry `i` of an indirect block. -/
def entry (blk : Block) (i : Nat) : Nat := LittleEndian.read blk.mem (4 * i) 4

def setEntry (blk : Block) (i v : Nat) : Block := Block.ofMem (LittleEndian.write blk.mem (4 * i) 4 v)

/-- `din.addrs[NDIRECT]`, allocated from `freeblock` when it is 0. -/
def Image.indirect (img : Image) (din : Dinode) : Image × Dinode :=
  if din.addrs (Fin.last NDIRECT) = 0 then (img.bump, din.setAddr (Fin.last NDIRECT) img.freeblock)
  else (img, din)

/-- The block holding file block `fbn`, allocated from `freeblock` when it is not mapped;
`none` is a failed `assert(fbn < MAXFILE)`. -/
def Image.blockOf (img : Image) (din : Dinode) (fbn : Nat) : Option (Image × Dinode × Nat) :=
  if h : fbn < NDIRECT then
    if din.addrs ⟨fbn, by omega⟩ = 0 then
      some (img.bump, din.setAddr ⟨fbn, by omega⟩ img.freeblock, img.freeblock)
    else some (img, din, din.addrs ⟨fbn, by omega⟩)
  else if fbn < MAXFILE then
    -- `rsect` the indirect block, and `wsect` it when an entry is allocated
    if entry ((img.indirect din).1.sector ((img.indirect din).2.addrs (Fin.last NDIRECT)))
        (fbn - NDIRECT) = 0 then
      some (((img.indirect din).1.setSector ((img.indirect din).2.addrs (Fin.last NDIRECT))
          (setEntry ((img.indirect din).1.sector ((img.indirect din).2.addrs (Fin.last NDIRECT)))
            (fbn - NDIRECT) (img.indirect din).1.freeblock)).bump,
        (img.indirect din).2, (img.indirect din).1.freeblock)
    else some ((img.indirect din).1, (img.indirect din).2,
      entry ((img.indirect din).1.sector ((img.indirect din).2.addrs (Fin.last NDIRECT)))
        (fbn - NDIRECT))
  else none

/-- `bcopy(p, buf + start, n1)` into the block `blk`. -/
def copyIn (blk : Block) (start : Nat) (p : List UInt8) : Block :=
  Block.ofMem fun o => if start ≤ o ∧ o < start + p.length then p.getD (o - start) 0 else blk.mem o

/-- `iappend`'s loop: each pass copies `n1 = min(n, (fbn + 1) * BSIZE - off)` bytes into file
block `fbn = off / BSIZE`; `fuel` bounds the passes. -/
def Image.appendLoop : Nat → Image → Dinode → Nat → List UInt8 → Option (Image × Dinode × Nat)
  | _, img, din, off, [] => some (img, din, off)
  | 0, _, _, _, _ :: _ => none
  | fuel + 1, img, din, off, p =>
    (img.blockOf din (off / BSIZE)).bind fun r =>
      appendLoop fuel
        (r.1.setSector r.2.2 (copyIn (r.1.sector r.2.2) (off % BSIZE)
          (p.take (min p.length (BSIZE - off % BSIZE)))))
        r.2.1 (off + min p.length (BSIZE - off % BSIZE)) (p.drop (min p.length (BSIZE - off % BSIZE)))

/-- `iappend(inum, p, n)`. -/
def Image.iappend (img : Image) (inum : Nat) (p : List UInt8) : Option Image :=
  (img.appendLoop p.length (img.inode inum) (img.inode inum).size p).map fun r =>
    r.1.setInode inum { r.2.1 with size := r.2.2 }

/-- A `struct dirent`: `xshort(inum)` and the name as `strncpy` leaves it in `DIRSIZ` bytes. -/
def dirent (inum : Nat) (name : List UInt8) : List UInt8 :=
  [inum.toUInt8, (inum / 256).toUInt8] ++ ((name.takeWhile (· ≠ 0)).take DIRSIZ ++
    List.replicate (DIRSIZ - ((name.takeWhile (· ≠ 0)).take DIRSIZ).length) 0)

@[simp] theorem dirent_length (inum : Nat) (name : List UInt8) : (dirent inum name).length = 16 := by
  simp [dirent, DIRSIZ]

/-- An input file: its name on the command line and its bytes. -/
structure Input where
  name : List UInt8
  data : List UInt8

/-- The name `mkfs` enters: without a leading `_`. -/
def Input.fsName (f : Input) : List UInt8 :=
  if f.name.head? = some (ch '_') then f.name.tail else f.name

/-- `read(fd, buf, sizeof(buf))` until it returns 0: the bytes in blocks of `BSIZE`. -/
def chunks : Nat → List UInt8 → List (List UInt8)
  | _, [] => []
  | 0, _ :: _ => []
  | fuel + 1, p => p.take BSIZE :: chunks fuel (p.drop BSIZE)

/-- One pass of the loop over the files: `ialloc(T_FILE)`, its entry in the root, then its
bytes; `none` for a name holding `/`. -/
def Image.addFile (img : Image) (f : Input) : Option Image :=
  if ch '/' ∈ f.name then none
  else ((img.ialloc T_FILE).iappend ROOTINO (dirent img.freeinode f.fsName)).bind fun img' =>
    (chunks f.data.length f.data).foldlM (fun img'' c => img''.iappend img.freeinode c) img'

/-- The disk zeroed, with `freeblock = nmeta` and `freeinode = 1`. -/
def Image.zero : Image := ⟨fun _ => fun _ => 0, fun _ => ⟨0, 0, 0, fun _ => 0⟩, nmeta, 1⟩

/-- The root directory with `.` and `..`. -/
def Image.root : Option Image :=
  ((Image.zero.ialloc T_DIR).iappend ROOTINO (dirent ROOTINO (cstr "."))).bind fun img =>
    img.iappend ROOTINO (dirent ROOTINO (cstr ".."))

/-- "fix size of root inode dir": `off = ((off/BSIZE) + 1) * BSIZE`. -/
def Image.fixRoot (img : Image) : Image :=
  img.setInode ROOTINO { img.inode ROOTINO with size := ((img.inode ROOTINO).size / BSIZE + 1) * BSIZE }

/-- `balloc(used)`'s bitmap block: `buf[i/8] |= 1 << (i%8)` for `i < used`. -/
def bitmap (used : Nat) : Block :=
  (List.range used).foldl (fun buf i =>
    Function.update buf ⟨i / 8 % BSIZE, Nat.mod_lt _ (by decide)⟩
      (buf ⟨i / 8 % BSIZE, Nat.mod_lt _ (by decide)⟩ ||| ((1 : UInt8) <<< (i % 8).toUInt8)))
    fun _ => 0

/-- `balloc(used)`; `none` is a failed `assert(used < BSIZE*8)`. -/
def Image.balloc (img : Image) (used : Nat) : Option Image :=
  if used < BSIZE * 8 then some (img.setSector bmapstart (bitmap used)) else none

/-- `mkfs fs.img files...`. -/
def mkfs (files : List Input) : Option Image :=
  (Image.root.bind fun img => files.foldlM Image.addFile img).bind fun img =>
    img.fixRoot.balloc img.fixRoot.freeblock

/-! ### What the image updates change -/

section Simp

variable (img : Image)

@[simp] theorem setSector_sector (b : Nat) (blk : Block) :
    (img.setSector b blk).sector = Function.update img.sector b blk := rfl
@[simp] theorem setSector_inode (b : Nat) (blk : Block) : (img.setSector b blk).inode = img.inode := rfl
@[simp] theorem setSector_freeblock (b : Nat) (blk : Block) :
    (img.setSector b blk).freeblock = img.freeblock := rfl
@[simp] theorem setSector_freeinode (b : Nat) (blk : Block) :
    (img.setSector b blk).freeinode = img.freeinode := rfl
@[simp] theorem bump_inode : img.bump.inode = img.inode := rfl
@[simp] theorem bump_freeblock : img.bump.freeblock = img.freeblock + 1 := rfl
@[simp] theorem bump_freeinode : img.bump.freeinode = img.freeinode := rfl
@[simp] theorem setInode_inode (inum : Nat) (din : Dinode) :
    (img.setInode inum din).inode = Function.update img.inode inum din := rfl
@[simp] theorem setInode_freeblock (inum : Nat) (din : Dinode) :
    (img.setInode inum din).freeblock = img.freeblock := rfl
@[simp] theorem setInode_freeinode (inum : Nat) (din : Dinode) :
    (img.setInode inum din).freeinode = img.freeinode := rfl
@[simp] theorem ialloc_freeblock (type : Nat) : (img.ialloc type).freeblock = img.freeblock := rfl
@[simp] theorem ialloc_freeinode (type : Nat) : (img.ialloc type).freeinode = img.freeinode + 1 :=
  rfl
@[simp] theorem ialloc_inode (type : Nat) :
    (img.ialloc type).inode = Function.update img.inode img.freeinode ⟨type, 1, 0, fun _ => 0⟩ :=
  rfl

end Simp

/-- What writing sectors and taking blocks leaves alone: the inode table and `freeinode`;
`freeblock` only grows. -/
structure Image.Grows (img img' : Image) : Prop where
  inode : img'.inode = img.inode
  freeinode : img'.freeinode = img.freeinode
  freeblock : img.freeblock ≤ img'.freeblock

theorem Image.Grows.refl (img : Image) : img.Grows img := ⟨rfl, rfl, le_rfl⟩

theorem Image.Grows.trans {a b c : Image} (h₁ : a.Grows b) (h₂ : b.Grows c) : a.Grows c :=
  ⟨h₂.inode.trans h₁.inode, h₂.freeinode.trans h₁.freeinode, h₁.freeblock.trans h₂.freeblock⟩

theorem grows_setSector (img : Image) (b : Nat) (blk : Block) : img.Grows (img.setSector b blk) :=
  ⟨rfl, rfl, le_rfl⟩

theorem grows_bump (img : Image) : img.Grows img.bump := ⟨rfl, rfl, Nat.le_succ _⟩

theorem grows_indirect (img : Image) (din : Dinode) : img.Grows (img.indirect din).1 := by
  unfold Image.indirect
  split
  · exact grows_bump img
  · exact Image.Grows.refl img

/-- Mapping a block writes sectors and takes blocks only. -/
theorem grows_blockOf {img : Image} {din : Dinode} {fbn : Nat} {r : Image × Dinode × Nat}
    (h : img.blockOf din fbn = some r) : img.Grows r.1 := by
  unfold Image.blockOf at h
  split_ifs at h <;> cases h
  · exact grows_bump img
  · exact Image.Grows.refl img
  · exact ((grows_indirect img din).trans (grows_setSector _ _ _)).trans (grows_bump _)
  · exact grows_indirect img din

/-- `iappend`'s loop writes sectors and takes blocks only; the inode is written after it. -/
theorem grows_appendLoop :
    ∀ {fuel : Nat} {img : Image} {din : Dinode} {off : Nat} {p : List UInt8}
      {r : Image × Dinode × Nat}, Image.appendLoop fuel img din off p = some r → img.Grows r.1
  | _, img, _, _, [], r, h => by
    simp only [Image.appendLoop, Option.some.injEq] at h
    rw [← h]
    exact Image.Grows.refl img
  | 0, _, _, _, _ :: _, _, h => by simp [Image.appendLoop] at h
  | fuel + 1, img, din, off, c :: p, r, h => by
    simp only [Image.appendLoop, Option.bind_eq_some_iff] at h
    obtain ⟨r', hr', h⟩ := h
    exact ((grows_blockOf hr').trans (grows_setSector _ _ _)).trans (grows_appendLoop h)

/-- Appending to one inode leaves every other inode as it was. -/
theorem iappend_inode_of_ne {img img' : Image} {inum : Nat} {p : List UInt8}
    (h : img.iappend inum p = some img') {i : Nat} (hi : i ≠ inum) : img'.inode i = img.inode i := by
  obtain ⟨r, hr, rfl⟩ := Option.map_eq_some_iff.mp h
  rw [setInode_inode, Function.update_of_ne hi, (grows_appendLoop hr).inode]

theorem iappend_freeinode {img img' : Image} {inum : Nat} {p : List UInt8}
    (h : img.iappend inum p = some img') : img'.freeinode = img.freeinode := by
  obtain ⟨r, hr, rfl⟩ := Option.map_eq_some_iff.mp h
  exact (grows_appendLoop hr).freeinode

theorem iappend_freeblock {img img' : Image} {inum : Nat} {p : List UInt8}
    (h : img.iappend inum p = some img') : img.freeblock ≤ img'.freeblock := by
  obtain ⟨r, hr, rfl⟩ := Option.map_eq_some_iff.mp h
  exact (grows_appendLoop hr).freeblock

/-- Bytes that fit in the block at `off` are copied in one pass. -/
theorem appendLoop_one {fuel : Nat} {img : Image} {din : Dinode} {off : Nat} {p : List UInt8}
    {r : Image × Dinode × Nat} (hp : p ≠ []) (hfit : off % BSIZE + p.length ≤ BSIZE)
    (hr : img.blockOf din (off / BSIZE) = some r) :
    Image.appendLoop (fuel + 1) img din off p =
      some (r.1.setSector r.2.2 (copyIn (r.1.sector r.2.2) (off % BSIZE) p), r.2.1, off + p.length) := by
  have hmin : min p.length (BSIZE - off % BSIZE) = p.length := by omega
  rw [Image.appendLoop.eq_3 _ _ _ _ _ hp, hr, Option.bind_some, hmin, List.take_of_length_le le_rfl,
    List.drop_of_length_le le_rfl]
  simp only [Image.appendLoop]

/-- Mapping direct block `fbn` leaves it with a nonzero address, `freeblock` when it had none,
and leaves the inode's other addresses and its size. -/
theorem blockOf_direct {img : Image} {din : Dinode} {fbn : Nat} (hfbn : fbn < NDIRECT)
    (hfree : 0 < img.freeblock) :
    ∃ r, img.blockOf din fbn = some r ∧ r.2.1.addrs ⟨fbn, by omega⟩ ≠ 0 ∧
      r.2.1.size = din.size ∧ ∀ i : Fin (NDIRECT + 1), i.val ≠ fbn → r.2.1.addrs i = din.addrs i := by
  unfold Image.blockOf
  rw [dif_pos hfbn]
  split
  · refine ⟨_, rfl, ?_, rfl, fun i hi => ?_⟩
    · simp only [Dinode.setAddr, Function.update_self]
      omega
    · exact Function.update_of_ne (fun h => hi (congrArg Fin.val h)) _ _
  · exact ⟨_, rfl, ‹_›, rfl, fun _ _ => rfl⟩

/-! ### The root directory -/

/-- The root directory `n` entries in: `16 n` bytes, its direct blocks mapped exactly below
that end, inodes allocated past `ROOTINO` and `freeblock` past the boot block. -/
structure RootDir (img : Image) (n : Nat) : Prop where
  size : (img.inode ROOTINO).size = 16 * n
  mapped : ∀ j : Fin (NDIRECT + 1), j.val < NDIRECT →
    ((img.inode ROOTINO).addrs j ≠ 0 ↔ j.val * BSIZE < 16 * n)
  freeinode : ROOTINO < img.freeinode
  freeblock : 0 < img.freeblock

/-- Appending to another inode, taking blocks, leaves the root as it is. -/
theorem RootDir.iappend_of_ne {img img' : Image} {n inum : Nat} {p : List UInt8} (h : RootDir img n)
    (happ : img.iappend inum p = some img') (hne : ROOTINO ≠ inum) : RootDir img' n := by
  have hroot := iappend_inode_of_ne happ hne
  exact ⟨hroot ▸ h.size, hroot ▸ h.mapped, iappend_freeinode happ ▸ h.freeinode,
    Nat.lt_of_lt_of_le h.freeblock (iappend_freeblock happ)⟩

/-- An entry appended to the root goes in one pass into block `16 n / BSIZE`, mapping it
when it is the first entry there. -/
theorem RootDir.append {img : Image} {n : Nat} (h : RootDir img n)
    (hn : 16 * (n + 1) ≤ NDIRECT * BSIZE) {d : List UInt8} (hd : d.length = 16) :
    ∃ img', img.iappend ROOTINO d = some img' ∧ RootDir img' (n + 1) := by
  have hfbn : 16 * n / BSIZE < NDIRECT := by unfold BSIZE NDIRECT at *; omega
  obtain ⟨r, hr, hmap, hsize, hother⟩ := @blockOf_direct img (img.inode ROOTINO) _ hfbn h.freeblock
  have hfit : 16 * n % BSIZE + d.length ≤ BSIZE := by unfold BSIZE; omega
  have hloop := @appendLoop_one 15 _ _ _ _ _ (List.ne_nil_of_length_pos (by omega)) hfit hr
  have hgrows := grows_blockOf hr
  refine ⟨_, by rw [Image.iappend, hd, h.size, hloop]; rfl, ?_, ?_, ?_, ?_⟩
  · simp [hd]
    omega
  · -- the block just written is mapped; the others keep their addresses, and a block
    -- other than it starts below `16 n` exactly when it starts below `16 (n + 1)`
    intro j hj
    simp only [setInode_inode, Function.update_self]
    by_cases hjn : j.val = 16 * n / BSIZE
    · have hj' : j = ⟨16 * n / BSIZE, Nat.lt_succ_of_lt hfbn⟩ := Fin.ext hjn
      subst hj'
      simp only [ne_eq, hmap, not_false_eq_true, true_iff]
      unfold BSIZE
      omega
    · rw [hother j hjn, h.mapped j hj]
      unfold BSIZE at *
      omega
  · simpa [hgrows.freeinode] using h.freeinode
  · simpa using Nat.lt_of_lt_of_le h.freeblock hgrows.freeblock

/-- `ialloc` takes an inode past the root. -/
theorem RootDir.ialloc {img : Image} {n : Nat} (h : RootDir img n) (type : Nat) :
    RootDir (img.ialloc type) n := by
  have hroot : (img.ialloc type).inode ROOTINO = img.inode ROOTINO := by
    rw [ialloc_inode, Function.update_of_ne (Nat.ne_of_lt h.freeinode)]
  have hfree : ROOTINO < (img.ialloc type).freeinode := by
    rw [ialloc_freeinode]
    exact Nat.lt_succ_of_lt h.freeinode
  exact ⟨hroot ▸ h.size, hroot ▸ h.mapped, hfree, h.freeblock⟩

/-- A file's bytes go to its own inode, never the root. -/
theorem RootDir.foldlM_iappend {inum n : Nat} (hne : ROOTINO ≠ inum) :
    ∀ {cs : List (List UInt8)} {img img' : Image}, RootDir img n →
      cs.foldlM (fun img'' c => img''.iappend inum c) img = some img' → RootDir img' n
  | [], _, _, h, hf => by
    simp only [List.foldlM_nil, Option.pure_def, Option.some.injEq] at hf
    exact hf ▸ h
  | c :: cs, img, _, h, hf => by
    simp only [List.foldlM_cons, Option.bind_eq_bind, Option.bind_eq_some_iff] at hf
    obtain ⟨img₁, h₁, hf⟩ := hf
    exact RootDir.foldlM_iappend hne (h.iappend_of_ne h₁ hne) hf

/-- Each file adds one entry to the root. -/
theorem RootDir.addFile {img img' : Image} {n : Nat} {f : Input} (h : RootDir img n)
    (hn : 16 * (n + 1) ≤ NDIRECT * BSIZE) (hadd : img.addFile f = some img') :
    RootDir img' (n + 1) := by
  unfold Image.addFile at hadd
  split at hadd
  · cases hadd
  obtain ⟨img₁, h₁, hfold⟩ := Option.bind_eq_some_iff.mp hadd
  obtain ⟨img₂, h₂, hdir⟩ := (h.ialloc T_FILE).append hn (dirent_length _ _)
  rw [h₂, Option.some.injEq] at h₁
  subst h₁
  exact RootDir.foldlM_iappend (Nat.ne_of_lt h.freeinode) hdir hfold

/-- The loop over the files adds one root entry each. -/
theorem RootDir.addFiles :
    ∀ {files : List Input} {img img' : Image} {n : Nat}, RootDir img n →
      16 * (n + files.length) ≤ NDIRECT * BSIZE → files.foldlM Image.addFile img = some img' →
      RootDir img' (n + files.length)
  | [], _, _, _, h, _, hf => by
    simp only [List.foldlM_nil, Option.pure_def, Option.some.injEq] at hf
    exact hf ▸ h
  | f :: files, img, _, n, h, hn, hf => by
    simp only [List.foldlM_cons, Option.bind_eq_bind, Option.bind_eq_some_iff] at hf
    obtain ⟨img₁, h₁, hf⟩ := hf
    have hn' : 16 * (n + 1 + files.length) ≤ NDIRECT * BSIZE := by
      simp only [List.length_cons] at hn
      omega
    rw [List.length_cons, Nat.add_comm files.length 1, ← Nat.add_assoc]
    exact RootDir.addFiles (h.addFile (by omega) h₁) hn' hf

theorem rootDir_zero : RootDir (Image.zero.ialloc T_DIR) 0 := by
  refine ⟨rfl, fun j _ => ?_, by decide, by decide⟩
  simp [Image.zero, Image.ialloc, Image.setInode, ROOTINO]

/-- The root as `mkfs` first writes it: `.` and `..`. -/
theorem rootDir_root {img : Image} (h : Image.root = some img) : RootDir img 2 := by
  have hfit : 16 * (0 + 1 + 1) ≤ NDIRECT * BSIZE := by decide
  obtain ⟨img₁, h₁, hdir₁⟩ := rootDir_zero.append (by omega) (dirent_length _ _)
  obtain ⟨img₂, h₂, hdir₂⟩ := hdir₁.append hfit (dirent_length ROOTINO (cstr ".."))
  rw [Image.root, h₁, Option.bind_some, h₂, Option.some.injEq] at h
  exact h ▸ hdir₂

theorem balloc_inode {img img' : Image} {used : Nat} (h : img.balloc used = some img') :
    img'.inode = img.inode := by
  unfold Image.balloc at h
  split at h
  · cases h
    rfl
  · cases h

/-- The root `mkfs` writes: `.`, `..` and one entry a file, in blocks mapped exactly below
their end, with the size rounded past them. -/
theorem mkfs_root {files : List Input} {img : Image} (hm : mkfs files = some img)
    (hfit : 16 * (files.length + 2) ≤ NDIRECT * BSIZE) :
    ∃ img₁, RootDir img₁ (files.length + 2) ∧
      img.inode ROOTINO = { img₁.inode ROOTINO with
        size := ((img₁.inode ROOTINO).size / BSIZE + 1) * BSIZE } := by
  obtain ⟨img₁, h₁, hb⟩ := Option.bind_eq_some_iff.mp hm
  obtain ⟨img₀, h₀, hf⟩ := Option.bind_eq_some_iff.mp h₁
  have hdir := RootDir.addFiles (rootDir_root h₀) (by omega) hf
  rw [Nat.add_comm] at hdir
  refine ⟨img₁, hdir, ?_⟩
  rw [balloc_inode hb, Image.fixRoot, setInode_inode, Function.update_self]

/-- When the root's entries fill whole blocks, its size is rounded a whole block past them, and
the block at the old end is not mapped. -/
theorem mkfs_root_full {files : List Input} {img : Image} (hm : mkfs files = some img)
    (hfull : (files.length + 2) % 32 = 0) (hfit : 16 * (files.length + 2) < NDIRECT * BSIZE) :
    (img.inode ROOTINO).size = 16 * (files.length + 2) + BSIZE ∧
      (img.inode ROOTINO).addrs ⟨(files.length + 2) / 32, by unfold NDIRECT at hfit ⊢; unfold BSIZE at hfit; omega⟩ =
        0 := by
  obtain ⟨img₁, hdir, hroot⟩ := mkfs_root hm hfit.le
  refine ⟨?_, ?_⟩
  · rw [hroot]
    dsimp only
    rw [hdir.size]
    unfold BSIZE
    omega
  · -- the block at the old end starts at `16 (k + 2)`, not below it, so `mkfs` left it unmapped
    have hj : (files.length + 2) / 32 < NDIRECT := by
      unfold NDIRECT at hfit ⊢
      unfold BSIZE at hfit
      omega
    have hunmapped := (hdir.mapped ⟨(files.length + 2) / 32, by omega⟩ hj).not
    rw [hroot]
    unfold BSIZE at hunmapped
    simpa [show ¬((files.length + 2) / 32 * 512 < 16 * (files.length + 2)) by omega] using hunmapped

/-- When the root's entries fill whole blocks, `mkfs` rounds its size a block past them, to a
block it never mapped: an index below `size / BSIZE` whose address is 0. -/
theorem mkfs_root_hole {files : List Input} {img : Image} (hm : mkfs files = some img)
    (hfull : (files.length + 2) % 32 = 0) (hfit : 16 * (files.length + 2) < NDIRECT * BSIZE) :
    (img.inode ROOTINO).size = 16 * (files.length + 2) + BSIZE ∧
      (files.length + 2) / 32 < (img.inode ROOTINO).size / BSIZE ∧
      (img.inode ROOTINO).addrs ⟨(files.length + 2) / 32, by unfold NDIRECT at hfit ⊢; unfold BSIZE at hfit; omega⟩ =
        0 := by
  obtain ⟨hsize, hhole⟩ := mkfs_root_full hm hfull hfit
  refine ⟨hsize, ?_, hhole⟩
  rw [hsize]
  unfold BSIZE
  omega

/-- Thirty files, with distinct names and no bytes: with `.` and `..` their entries fill the
root's first block, and the root's second block is a hole. -/
theorem mkfs_root_hole_thirty :
    ∃ img, mkfs ((List.range 30).map fun i =>
        ⟨[ch 'f', (48 + i / 10).toUInt8, (48 + i % 10).toUInt8], []⟩) = some img ∧
      (img.inode ROOTINO).size = 1024 ∧ 1 < (img.inode ROOTINO).size / BSIZE ∧
      (img.inode ROOTINO).addrs 1 = 0 := by
  obtain ⟨img, hm⟩ : ∃ img, mkfs ((List.range 30).map fun i =>
      ⟨[ch 'f', (48 + i / 10).toUInt8, (48 + i % 10).toUInt8], []⟩) = some img := ⟨_, rfl⟩
  exact ⟨img, hm, mkfs_root_hole hm (by decide) (by decide)⟩

/-! ### The bitmap -/

/-- One more block marked is one more bit set, as `Bitmap.set` sets it. -/
theorem bitmap_succ_mem {used : Nat} (h : used < BPB) :
    (bitmap (used + 1)).mem = Bitmap.set (bitmap used).mem used := by
  have hbyte : used / 8 < BSIZE := by unfold BPB at h; unfold BSIZE at *; omega
  have hkey : (⟨used / 8 % BSIZE, Nat.mod_lt _ (by decide)⟩ : Fin BSIZE) = ⟨used / 8, hbyte⟩ :=
    Fin.ext (Nat.mod_eq_of_lt hbyte)
  funext o
  rw [bitmap, List.range_succ, List.foldl_append, ← bitmap, List.foldl_cons, List.foldl_nil, hkey,
    Bitmap.set]
  by_cases hlt : o < BSIZE
  · by_cases ho : o = used / 8
    · subst ho
      rw [Block.mem, dif_pos hlt, Function.update_self, Function.update_self, Block.mem, dif_pos hlt]
      rfl
    · rw [Block.mem, dif_pos hlt, Function.update_of_ne (fun h => ho (congrArg Fin.val h)),
        Function.update_of_ne ho, Block.mem, dif_pos hlt]
  · have hne : o ≠ used / 8 := by omega
    rw [Block.mem_of_le (Nat.le_of_not_lt hlt), Function.update_of_ne hne,
      Block.mem_of_le (Nat.le_of_not_lt hlt)]

/-- `balloc(used)` marks exactly blocks `[0, used)`. -/
theorem bitmap_test {used i : Nat} (h : used ≤ BPB) :
    Bitmap.test (bitmap used).mem i = decide (i < used) := by
  induction used with
  | zero =>
    have hzero : (bitmap 0).mem = fun _ => 0 := by
      funext o
      unfold Block.mem
      split <;> rfl
    simp [hzero]
  | succ u ih =>
    rw [bitmap_succ_mem (by omega), Bitmap.test_set, ih (by omega)]
    by_cases hi : i = u
    · simp [hi]
    · rw [beq_false_of_ne hi, Bool.false_or, decide_eq_decide]
      omega

/-- The image's bitmap marks exactly the blocks below `freeblock`. -/
theorem mkfs_bitmap {files : List Input} {img : Image} (hm : mkfs files = some img) (i : Nat) :
    Bitmap.test (img.sector bmapstart).mem i = decide (i < img.freeblock) ∧ img.freeblock < BPB := by
  obtain ⟨img₁, -, hb⟩ := Option.bind_eq_some_iff.mp hm
  unfold Image.balloc at hb
  split at hb
  · rename_i hused
    cases hb
    refine ⟨?_, hused⟩
    rw [setSector_freeblock, setSector_sector, Function.update_self]
    exact bitmap_test (by unfold BPB; omega)
  · cases hb

end Xv6.Mkfs
