import Xv6.Fs.Bmap
import Xv6.Lib.ExceptOk

/-!
# The namespace system calls

`sys_link`, `sys_unlink`, `sys_open` with `O_CREATE`, `sys_mkdir`, `sys_mknod` and
`sys_chdir` (`sysfile.c`), over `create`, the path lookup of `namex` and the directory
operations `dirlookup` and `dirlink`, and over `iget`, `idup`, `ilock`, `iput` and `ialloc`
(`fs.c`).

A directory is the list of its `struct dirent` slots, `inum` 0 for an empty one. An inode is
its type and `nlink`, its directory, and its `icache` entry: `ref` and `valid`. One call is one
step, as it is when no other call runs between its locks, so the in-memory inode of a valid
entry and the disk agree and are one field here. `iput` frees, as the source does, the inode
whose last reference it drops when that inode is valid and has no links; references are the
processes' current directories, open files and the calls' own pointers. Only `sys_open`
opens files and nothing closes one, so each process's descriptors are `0 .. nofile - 1`.
-/

namespace Xv6.Names

open Xv6.Fs (namecmp)
open Xv6.Inodes (T_DIR NINODES)
open Xv6.Mkfs (T_FILE)

/-- `T_DEV`. -/
def T_DEV : Nat := 3

/-- A `struct dirent` slot: `inum` 0 for an empty one. -/
structure Dirent where
  inum : Nat
  name : List UInt8
  deriving DecidableEq

/-- The inodes, their directories and `icache` entries, and the processes' current
directories and open files. -/
structure Fs where
  type : Nat → Nat
  nlink : Nat → Int
  dir : Nat → List Dirent
  ref : Nat → Nat
  valid : Nat → Bool
  cwd : Fin NPROC → Nat
  nofile : Fin NPROC → Nat
  nfile : Nat

/-- The disk `mkfs` writes with no files, the root the current directory of every process. -/
def Fs.boot : Fs where
  type i := if i = ROOTINO then T_DIR else 0
  nlink i := if i = ROOTINO then 1 else 0
  dir i := if i = ROOTINO then [⟨ROOTINO, cstr "."⟩, ⟨ROOTINO, cstr ".."⟩] else []
  ref i := if i = ROOTINO then NPROC else 0
  valid _ := false
  cwd _ := ROOTINO
  nofile _ := 0
  nfile := 0

/-! ### Updates -/

section Updates

variable (fs : Fs) (i : Nat)

def Fs.setType (t : Nat) : Fs := { fs with type := Function.update fs.type i t }
def Fs.setNlink (n : Int) : Fs := { fs with nlink := Function.update fs.nlink i n }
def Fs.setDir (d : List Dirent) : Fs := { fs with dir := Function.update fs.dir i d }
def Fs.setRef (n : Nat) : Fs := { fs with ref := Function.update fs.ref i n }
def Fs.setValid (b : Bool) : Fs := { fs with valid := Function.update fs.valid i b }

variable {fs i} {t : Nat} {n : Int} {d : List Dirent} {r : Nat} {b : Bool}

@[simp] theorem setType_type : (fs.setType i t).type = Function.update fs.type i t := rfl
@[simp] theorem setType_nlink : (fs.setType i t).nlink = fs.nlink := rfl
@[simp] theorem setType_dir : (fs.setType i t).dir = fs.dir := rfl
@[simp] theorem setType_ref : (fs.setType i t).ref = fs.ref := rfl
@[simp] theorem setType_valid : (fs.setType i t).valid = fs.valid := rfl
@[simp] theorem setType_cwd : (fs.setType i t).cwd = fs.cwd := rfl
@[simp] theorem setNlink_type : (fs.setNlink i n).type = fs.type := rfl
@[simp] theorem setNlink_nlink : (fs.setNlink i n).nlink = Function.update fs.nlink i n := rfl
@[simp] theorem setNlink_dir : (fs.setNlink i n).dir = fs.dir := rfl
@[simp] theorem setNlink_ref : (fs.setNlink i n).ref = fs.ref := rfl
@[simp] theorem setNlink_valid : (fs.setNlink i n).valid = fs.valid := rfl
@[simp] theorem setNlink_cwd : (fs.setNlink i n).cwd = fs.cwd := rfl
@[simp] theorem setDir_type : (fs.setDir i d).type = fs.type := rfl
@[simp] theorem setDir_nlink : (fs.setDir i d).nlink = fs.nlink := rfl
@[simp] theorem setDir_dir : (fs.setDir i d).dir = Function.update fs.dir i d := rfl
@[simp] theorem setDir_ref : (fs.setDir i d).ref = fs.ref := rfl
@[simp] theorem setDir_valid : (fs.setDir i d).valid = fs.valid := rfl
@[simp] theorem setDir_cwd : (fs.setDir i d).cwd = fs.cwd := rfl
@[simp] theorem setRef_type : (fs.setRef i r).type = fs.type := rfl
@[simp] theorem setRef_nlink : (fs.setRef i r).nlink = fs.nlink := rfl
@[simp] theorem setRef_dir : (fs.setRef i r).dir = fs.dir := rfl
@[simp] theorem setRef_ref : (fs.setRef i r).ref = Function.update fs.ref i r := rfl
@[simp] theorem setRef_valid : (fs.setRef i r).valid = fs.valid := rfl
@[simp] theorem setRef_cwd : (fs.setRef i r).cwd = fs.cwd := rfl
@[simp] theorem setValid_type : (fs.setValid i b).type = fs.type := rfl
@[simp] theorem setValid_nlink : (fs.setValid i b).nlink = fs.nlink := rfl
@[simp] theorem setValid_dir : (fs.setValid i b).dir = fs.dir := rfl
@[simp] theorem setValid_ref : (fs.setValid i b).ref = fs.ref := rfl
@[simp] theorem setValid_valid : (fs.setValid i b).valid = Function.update fs.valid i b := rfl
@[simp] theorem setValid_cwd : (fs.setValid i b).cwd = fs.cwd := rfl

end Updates

/-! ### The inode cache -/

/-- The entries of `icache` somebody refers to. -/
def Fs.busy (fs : Fs) : Nat := ((List.range NINODES).filter fun i => 0 < fs.ref i).length

/-- `iget(dev, inum)`: one more reference; an entry nobody referred to is recycled, not valid,
and there must be one. -/
def Fs.iget (fs : Fs) (i : Nat) : Except String Fs :=
  if fs.ref i = 0 then
    if NINODE ≤ fs.busy then .error "iget: no inodes"
    else .ok ((fs.setValid i false).setRef i 1)
  else .ok (fs.setRef i (fs.ref i + 1))

/-- `idup(ip)`. -/
def Fs.idup (fs : Fs) (i : Nat) : Fs := fs.setRef i (fs.ref i + 1)

/-- `ilock(ip)`: an entry that is not valid reads the inode, which must be allocated. -/
def Fs.ilock (fs : Fs) (i : Nat) : Except String Fs :=
  if fs.valid i then .ok fs
  else if fs.type i = 0 then .error "ilock: no type"
  else .ok (fs.setValid i true)

/-- `iput(ip)`: the last reference to a valid inode with no links frees it (`itrunc` empties
its directory). -/
def Fs.iput (fs : Fs) (i : Nat) : Fs :=
  let fs := if fs.valid i ∧ fs.nlink i = 0 ∧ fs.ref i = 1 then
      ((fs.setType i 0).setDir i []).setValid i false
    else fs
  fs.setRef i (fs.ref i - 1)

@[simp] theorem iput_cwd (fs : Fs) (i : Nat) : (fs.iput i).cwd = fs.cwd := by
  unfold Fs.iput
  split <;> rfl

/-- `ialloc(dev, type)`: the first free inode from 1, zeroed, with its type, then `iget`. -/
def ialloc (fs : Fs) (type : Nat) : Except String (Nat × Fs) :=
  match (List.range' 1 (NINODES - 1)).find? (fs.type · = 0) with
  | some i => (((fs.setType i type).setNlink i 0).setDir i [] |>.iget i).map (i, ·)
  | none => .error "ialloc: no inodes"

/-! ### Directories -/

/-- `strncpy(s, t, n)`: `t` up to its NUL, padded with NULs to `n` bytes. -/
def strncpy : List UInt8 → Nat → List UInt8
  | _, 0 => []
  | t, n + 1 => if t.headD 0 = 0 then List.replicate (n + 1) 0 else t.headD 0 :: strncpy t.tail n

/-- `dirlookup(dp, name, &off)` up to its `iget`: the `inum` and slot of the first entry
named `name`. -/
def dirlookup (fs : Fs) (dp : Nat) (name : List UInt8) : Option (Nat × Nat) :=
  ((fs.dir dp).zipIdx.find? fun e => e.1.inum ≠ 0 ∧ namecmp name e.1.name = 0).map
    fun e => (e.1.inum, e.2)

/-- What `dirlookup` finds is a non-empty entry of `dp`, at its slot, with the name asked for. -/
theorem dirlookup_some {fs : Fs} {dp : Nat} {name : List UInt8} {i off : Nat}
    (h : dirlookup fs dp name = some (i, off)) :
    ∃ e, (fs.dir dp)[off]? = some e ∧ e.inum = i ∧ i ≠ 0 ∧ namecmp name e.name = 0 := by
  unfold dirlookup at h
  obtain ⟨⟨e, off'⟩, hfind, heq⟩ := Option.map_eq_some_iff.mp h
  simp only [Prod.mk.injEq] at heq
  obtain ⟨rfl, rfl⟩ := heq
  have hp := List.find?_some hfind
  simp only [ne_eq, decide_eq_true_eq] at hp
  exact ⟨e, List.mem_zipIdx_iff_getElem?.mp (List.mem_of_find?_eq_some hfind), rfl, hp.1, hp.2⟩

/-- The slot `dirlink` writes: the first empty one, or the one past the end. -/
def freeSlot (d : List Dirent) : Nat := (d.findIdx? (·.inum = 0)).getD d.length

/-- Slot `i` of a directory written: in place, or appended at the end. -/
def writeSlot (d : List Dirent) (i : Nat) (e : Dirent) : List Dirent :=
  if i < d.length then d.set i e else d ++ [e]

theorem mem_writeSlot {d : List Dirent} {i : Nat} {e e' : Dirent} (h : e' ∈ writeSlot d i e) :
    e' ∈ d ∨ e' = e := by
  unfold writeSlot at h
  split_ifs at h
  · exact List.mem_or_eq_of_mem_set h
  · simpa using h

/-- `dirlink(dp, name, inum)`: -1, with the inode found put again, when `name` is there. -/
def dirlink (fs : Fs) (dp : Nat) (name : List UInt8) (inum : Nat) : Except String (Int × Fs) :=
  match dirlookup fs dp name with
  | some (ip, _) => (fs.iget ip).map fun fs => (-1, fs.iput ip)
  | none =>
    .ok (0, fs.setDir dp (writeSlot (fs.dir dp) (freeSlot (fs.dir dp)) ⟨inum, strncpy name DIRSIZ⟩))

/-! ### Paths -/

/-- `skipelem(path, name)`: the next element, cut to `DIRSIZ` bytes, and the path after it
and the slashes that follow; `none` when only slashes are left. -/
def skipelem (path : List UInt8) : Option (List UInt8 × List UInt8) :=
  if path.dropWhile (· = ch '/') = [] then none
  else some (((path.dropWhile (· = ch '/')).takeWhile (· ≠ ch '/')).take DIRSIZ,
    ((path.dropWhile (· = ch '/')).dropWhile (· ≠ ch '/')).dropWhile (· = ch '/'))

/-- `namex`'s loop from `ip`, holding a reference to it; `name` is the last element read.
A `skipelem` that finds an element consumes a byte, so `path.length + 1` passes are enough. -/
def namexLoop (nameiparent : Bool) : Nat → Fs → Nat → List UInt8 → List UInt8 →
    Except String (Option (Nat × List UInt8) × Fs)
  | 0, _, _, _, _ => .error "namex: fuel"
  | fuel + 1, fs, ip, path, name =>
    match skipelem path with
    | none => if nameiparent then .ok (none, fs.iput ip) else .ok (some (ip, name), fs)
    | some (name, path) => do
      let fs ← fs.ilock ip
      if fs.type ip ≠ T_DIR then .ok (none, fs.iput ip)
      else if nameiparent ∧ path = [] then .ok (some (ip, name), fs)
      else match dirlookup fs ip name with
        | none => .ok (none, fs.iput ip)
        | some (next, _) => do
          let fs ← fs.iget next
          namexLoop nameiparent fuel (fs.iput ip) next path name

/-- `namex(path, nameiparent, name)` for process `p`: the inode, with a reference, and the
last element. -/
def namex (fs : Fs) (p : Fin NPROC) (path : List UInt8) (nameiparent : Bool) :
    Except String (Option (Nat × List UInt8) × Fs) :=
  if path.head? = some (ch '/') then do
    let fs ← fs.iget ROOTINO
    namexLoop nameiparent (path.length + 1) fs ROOTINO path []
  else namexLoop nameiparent (path.length + 1) (fs.idup (fs.cwd p)) (fs.cwd p) path []

/-! ### `create` -/

/-- `create`'s `.` and `..` in the new directory `ip` under `dp`; no link is counted for `.`. -/
def makeDots (fs : Fs) (ip dp : Nat) : Except String Fs := do
  let fs := fs.setNlink dp (fs.nlink dp + 1)
  let (r, fs) ← dirlink fs ip (cstr ".") ip
  if r < 0 then .error "create dots" else
  let (r, fs) ← dirlink fs ip (cstr "..") dp
  if r < 0 then .error "create dots" else .ok fs

/-- `create` once `name` is not in `dp`: a new inode with one link, its entry in `dp`. -/
def createNew (fs : Fs) (dp : Nat) (name : List UInt8) (type : Nat) :
    Except String (Option Nat × Fs) := do
  let (ip, fs) ← ialloc fs type
  let fs ← fs.ilock ip
  let fs := fs.setNlink ip 1
  let fs ← (if type = T_DIR then makeDots fs ip dp else .ok fs)
  let (r, fs) ← dirlink fs dp name ip
  if r < 0 then .error "create: dirlink" else .ok (some ip, fs.iput dp)

/-- `create(path, type, major, minor)` in the directory `dp`: the file found when a file is
asked for, the inode created, or `none` for 0. -/
def createIn (fs : Fs) (dp : Nat) (name : List UInt8) (type : Nat) :
    Except String (Option Nat × Fs) := do
  let fs ← fs.ilock dp
  match dirlookup fs dp name with
  | some (ip, _) => do
    let fs ← fs.iget ip
    let fs ← (fs.iput dp).ilock ip
    if type = T_FILE ∧ fs.type ip = T_FILE then .ok (some ip, fs) else .ok (none, fs.iput ip)
  | none => createNew fs dp name type

/-- `create(path, type, major, minor)`: the inode returned holds a reference. -/
def create (fs : Fs) (p : Fin NPROC) (path : List UInt8) (type : Nat) :
    Except String (Option Nat × Fs) := do
  let (r, fs) ← namex fs p path true
  match r with
  | none => .ok (none, fs)
  | some (dp, name) => createIn fs dp name type

/-! ### The calls -/

/-- `filealloc` and `fdalloc` as `sys_open` calls them: one more file, and descriptor. -/
def Fs.openFile (fs : Fs) (p : Fin NPROC) : Fs :=
  { fs with nfile := fs.nfile + 1, nofile := Function.update fs.nofile p (fs.nofile p + 1) }

/-- `sys_open(path, O_CREATE)`: the file takes the reference `create` returns. -/
def sysOpenCreate (fs : Fs) (p : Fin NPROC) (path : List UInt8) : Except String (Int × Fs) := do
  let (r, fs) ← create fs p path T_FILE
  match r with
  | none => .ok (-1, fs)
  | some ip =>
    -- `filealloc` and `fdalloc`
    if NFILE ≤ fs.nfile ∨ NOFILE ≤ fs.nofile p then .ok (-1, fs.iput ip)
    else .ok (fs.nofile p, fs.openFile p)

/-- `sys_mkdir(path)`. -/
def sysMkdir (fs : Fs) (p : Fin NPROC) (path : List UInt8) : Except String (Int × Fs) := do
  let (r, fs) ← create fs p path T_DIR
  match r with
  | none => .ok (-1, fs)
  | some ip => .ok (0, fs.iput ip)

/-- `sys_mknod(path, major, minor)`. -/
def sysMknod (fs : Fs) (p : Fin NPROC) (path : List UInt8) : Except String (Int × Fs) := do
  let (r, fs) ← create fs p path T_DEV
  match r with
  | none => .ok (-1, fs)
  | some ip => .ok (0, fs.iput ip)

/-- `sys_chdir(path)`: the old current directory is put before the new one is set. -/
def sysChdir (fs : Fs) (p : Fin NPROC) (path : List UInt8) : Except String (Int × Fs) := do
  let (r, fs) ← namex fs p path false
  match r with
  | none => .ok (-1, fs)
  | some (ip, _) => do
    let fs ← fs.ilock ip
    if fs.type ip ≠ T_DIR then .ok (-1, fs.iput ip)
    else .ok (0, { (fs.iput (fs.cwd p)) with cwd := Function.update fs.cwd p ip })

/-- `isdirempty(dp)`: no entry past `.` and `..`. -/
def isdirempty (fs : Fs) (dp : Nat) : Bool := ((fs.dir dp).drop 2).all (·.inum = 0)

/-- `sys_unlink` once the entry `off` of `dp` names `ip`: the entry zeroed, the links counted
down. -/
def unlinkAt (fs : Fs) (dp ip off : Nat) : Except String (Int × Fs) := do
  let fs ← fs.iget ip
  let fs ← fs.ilock ip
  if fs.nlink ip < 1 then .error "unlink: nlink < 1"
  else if fs.type ip = T_DIR ∧ !isdirempty fs ip then .ok (-1, (fs.iput ip).iput dp)
  else
    let fs := fs.setDir dp ((fs.dir dp).set off ⟨0, List.replicate DIRSIZ 0⟩)
    -- a directory's `..` no longer links its parent
    let fs := if fs.type ip = T_DIR then fs.setNlink dp (fs.nlink dp - 1) else fs
    let fs := fs.iput dp
    .ok (0, (fs.setNlink ip (fs.nlink ip - 1)).iput ip)

/-- `sys_unlink(path)`. -/
def sysUnlink (fs : Fs) (p : Fin NPROC) (path : List UInt8) : Except String (Int × Fs) := do
  let (r, fs) ← namex fs p path true
  match r with
  | none => .ok (-1, fs)
  | some (dp, name) => do
    let fs ← fs.ilock dp
    if namecmp name (cstr ".") = 0 ∨ namecmp name (cstr "..") = 0 then .ok (-1, fs.iput dp)
    else match dirlookup fs dp name with
      | none => .ok (-1, fs.iput dp)
      | some (ip, off) => unlinkAt fs dp ip off

/-- `sys_link`'s `bad:` path: the link counted first is taken back. -/
def linkBad (fs : Fs) (ip : Nat) : Except String (Int × Fs) := do
  let fs ← fs.ilock ip
  .ok (-1, (fs.setNlink ip (fs.nlink ip - 1)).iput ip)

/-- `sys_link(old, new)`, on one device. -/
def sysLink (fs : Fs) (p : Fin NPROC) (old new : List UInt8) : Except String (Int × Fs) := do
  let (r, fs) ← namex fs p old false
  match r with
  | none => .ok (-1, fs)
  | some (ip, _) => do
    let fs ← fs.ilock ip
    if fs.type ip = T_DIR then .ok (-1, fs.iput ip)
    else
      let fs := fs.setNlink ip (fs.nlink ip + 1)
      let (r, fs) ← namex fs p new true
      match r with
      | none => linkBad fs ip
      | some (dp, name) => do
        let fs ← fs.ilock dp
        let (r, fs) ← dirlink fs dp name ip
        if r < 0 then linkBad (fs.iput dp) ip else .ok (0, (fs.iput dp).iput ip)

/-! ### Runs -/

/-- The namespace system calls. -/
inductive Call where
  | link (old new : List UInt8)
  | unlink (path : List UInt8)
  | openCreate (path : List UInt8)
  | mkdir (path : List UInt8)
  | mknod (path : List UInt8)
  | chdir (path : List UInt8)

/-- One call by process `p`. -/
def Fs.call (fs : Fs) (p : Fin NPROC) : Call → Except String (Int × Fs)
  | .link old new => sysLink fs p old new
  | .unlink path => sysUnlink fs p path
  | .openCreate path => sysOpenCreate fs p path
  | .mkdir path => sysMkdir fs p path
  | .mknod path => sysMknod fs p path
  | .chdir path => sysChdir fs p path

/-- The calls one after another, each by its process; a panic stops the run. -/
def run (fs : Fs) : List (Fin NPROC × Call) → Except String Fs
  | [] => .ok fs
  | (p, c) :: cs => do
    let (_, fs) ← fs.call p c
    run fs cs

/-- The entries other than `.` that name `i`, in directories that are linked. -/
def linkedEntries (fs : Fs) (i : Nat) : Nat :=
  ((List.range NINODES).filter fun d => fs.type d = T_DIR ∧ 0 < fs.nlink d).map
    (fun d => ((fs.dir d).filter fun e => e.inum = i ∧ namecmp e.name (cstr ".") ≠ 0).length) |>.sum

end Xv6.Names
