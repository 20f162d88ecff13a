import Mathlib.Logic.Function.Basic

/-!
The constants of `param.h` and `fs.h`, the geometry `mkfs` gives the disk, and disk
blocks as byte arrays.
-/

namespace Xv6

/-! ### `param.h` -/

/-- Maximum number of processes. -/
def NPROC : Nat := 64
/-- Maximum number of CPUs. -/
def NCPU : Nat := 8
/-- Open files per process. -/
def NOFILE : Nat := 16
/-- Open files per system. -/
def NFILE : Nat := 100
/-- Maximum number of active i-nodes. -/
def NINODE : Nat := 50
/-- Maximum major device number. -/
def NDEV : Nat := 10
/-- Device number of the file system root disk. -/
def ROOTDEV : Nat := 1
/-- Maximum number of blocks any FS operation writes. -/
def MAXOPBLOCKS : Nat := 10
/-- Maximum data blocks in the on-disk log. -/
def LOGSIZE : Nat := MAXOPBLOCKS * 3
/-- Size of the disk block cache. -/
def NBUF : Nat := MAXOPBLOCKS * 3
/-- Size of the file system in blocks. -/
def FSSIZE : Nat := 1000

/-! ### `fs.h` -/

/-- Root i-number. -/
def ROOTINO : Nat := 1
/-- Block size. -/
def BSIZE : Nat := 512
def NDIRECT : Nat := 12
/-- `BSIZE / sizeof(uint)`. -/
def NINDIRECT : Nat := BSIZE / 4
def MAXFILE : Nat := NDIRECT + NINDIRECT
/-- Bitmap bits per block. -/
def BPB : Nat := BSIZE * 8
/-- Length of a directory entry's name. -/
def DIRSIZ : Nat := 14

@[simp] theorem LOGSIZE_eq : LOGSIZE = 30 := rfl
@[simp] theorem BSIZE_eq : BSIZE = 512 := rfl

/-- Slot 0 of the process, inode and buffer tables. -/
theorem NPROC_pos : 0 < NPROC := by decide
theorem NINODE_pos : 0 < NINODE := by decide
theorem NBUF_pos : 0 < NBUF := by decide

/-! ### C characters -/

/-- A character constant of the source, as a byte. -/
def ch (x : Char) : UInt8 := x.toNat.toUInt8

/-- A string constant of the source, as its bytes without the terminating NUL. -/
def cstr (s : String) : List UInt8 := s.toList.map ch

/-! ### Disk blocks -/

/-- The contents of one disk block: `BSIZE` bytes. -/
abbrev Block := Fin BSIZE → UInt8

namespace Block

/-- The block's bytes addressed by offset, reading zero past its end, as a store for the
little-endian codecs. -/
def mem (b : Block) (o : Nat) : UInt8 := if h : o < BSIZE then b ⟨o, h⟩ else 0

/-- The block holding the first `BSIZE` bytes of a store. -/
def ofMem (m : Nat → UInt8) : Block := fun i => m i

@[simp] theorem mem_ofMem {m : Nat → UInt8} {o : Nat} (h : o < BSIZE) : (ofMem m).mem o = m o := by
  rw [mem, dif_pos h]
  rfl

theorem mem_of_le {b : Block} {o : Nat} (h : BSIZE ≤ o) : b.mem o = 0 := by
  rw [mem, dif_neg (Nat.not_lt.mpr h)]

@[simp] theorem ofMem_mem (b : Block) : ofMem b.mem = b := by
  funext i
  rw [ofMem, mem, dif_pos i.isLt]

end Block

end Xv6
