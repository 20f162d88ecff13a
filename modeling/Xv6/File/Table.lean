import Xv6.Param
import Mathlib.Logic.Relation
import Mathlib.Data.List.FinRange

/-!
# Open files, file descriptors and pipe lifetimes

`file.c` keeps `NFILE` `struct file`s in `ftable`, each with a reference count: `filealloc`
takes one with `ref == 0`, `filedup` adds a reference and `fileclose` drops one, and when the
last reference goes it resets the file and, outside the table lock, calls `pipeclose` or
`iput` on a copy of it. A process refers to files through its `ofile` slots, filled by
`fdalloc` and emptied by `sys_close` and `exit`; `fork` copies them with `filedup`.
`sys_pipe` builds two files around a pipe, whose page `pipeclose` frees once both ends are
closed.

Each system call is modelled by the place it has reached (`Call`), and one step is either the
work a call does under `ftable.lock` (or a pipe's lock, or `kmem`'s), or a run of statements
that touch only objects the calling process alone can reach (its own `ofile` slots, a file
or pipe it has just allocated and not yet published). Processes interleave arbitrarily at
those steps. The inode side of `sys_open`, `fork` and `exit` (`namei`, `create`, `idup`,
`iput` of the current directory) is not modelled here; `iput` of a closed file is recorded.
-/

namespace Xv6.Files

/-- `O_WRONLY`. -/
def O_WRONLY : Nat := 0x001
/-- `O_RDWR`. -/
def O_RDWR : Nat := 0x002

/-- `enum { FD_NONE, FD_PIPE, FD_INODE }`. -/
inductive FdType where
  | none
  | pipe
  | inode
  deriving DecidableEq

/-- `struct file`, less its offset; `pipe` and `ip` stand for the pointers. -/
structure File where
  type : FdType
  ref : Nat
  readable : Bool
  writable : Bool
  pipe : Nat
  ip : Nat

/-- A file of the zeroed `ftable`. -/
def File.zero : File := ⟨.none, 0, false, false, 0, 0⟩

/-- The fields `sys_open` sets once the file has a descriptor. -/
def File.opened (fl : File) (ip omode : Nat) : File :=
  { fl with
    type := .inode
    ip := ip
    readable := omode &&& O_WRONLY == 0
    writable := omode &&& O_WRONLY != 0 || omode &&& O_RDWR != 0 }

/-- The fields `pipealloc` sets on the read end (`writable = false`) or write end of pipe `q`. -/
def File.pipeEnd (fl : File) (q : Nat) (writable : Bool) : File :=
  { fl with type := .pipe, readable := !writable, writable := writable, pipe := q }

@[simp] theorem File.opened_ref (fl : File) (ip omode : Nat) : (fl.opened ip omode).ref = fl.ref :=
  rfl

@[simp] theorem File.pipeEnd_ref (fl : File) (q : Nat) (w : Bool) : (fl.pipeEnd q w).ref = fl.ref :=
  rfl

/-- The part of `struct pipe` that `pipeclose` reads and writes, and how often its page has
been freed. -/
structure PipeObj where
  readopen : Bool
  writeopen : Bool
  frees : Nat

/-- A pipe as `pipealloc` makes it: both ends open. -/
def PipeObj.fresh : PipeObj := ⟨true, true, 0⟩

/-- Where a call of `fileclose` is. -/
inductive Close where
  /-- about to take `ftable.lock` and drop the reference to `f` -/
  | drop (f : Fin NFILE)
  /-- the last reference went: `pipeclose` or `iput` of the copy `ff` is next -/
  | release (ff : File)
  /-- `pipeclose` found both ends closed: `kfree` of the pipe is next -/
  | kfree (q : Nat)

/-- The place a process has reached in the system call it is running. -/
inductive Call where
  | idle
  /-- `sys_open` got `f` from `filealloc`; `fdalloc` is next -/
  | openFd (f : Fin NFILE) (ip omode : Nat)
  /-- `sys_dup` put `f` (found in slot `src`) into slot `dst`; `filedup` is next -/
  | dup (f : Fin NFILE) (src dst : Fin NOFILE)
  /-- `pipealloc` got `f0`; the second `filealloc` is next -/
  | allocF1 (f0 : Fin NFILE)
  /-- `pipealloc` got both files; `kalloc` of the pipe is next -/
  | kalloc (f0 f1 : Fin NFILE)
  /-- `pipealloc` returned; `fdalloc(rf)` is next -/
  | pipeFd0 (rf wf : Fin NFILE)
  /-- `rf` is in slot `fd0`; `fdalloc(wf)` is next -/
  | pipeFd1 (rf wf : Fin NFILE) (fd0 : Fin NOFILE)
  /-- a `fileclose` in progress, then `fileclose` of each of `rest` -/
  | closing (c : Close) (rest : List (Fin NFILE))
  /-- `fork`'s loop over the parent's slots, at slot `i`, filling the new process `child` -/
  | forking (child : Fin NPROC) (i : Nat)
  /-- `exit`'s loop, about to look at slot `fd` -/
  | exitScan (fd : Nat)
  /-- `exit`'s `fileclose` of the file in slot `fd` -/
  | exitClose (fd : Fin NOFILE) (c : Close)
  /-- `exit`'s `curproc->ofile[fd] = 0` after the `fileclose` -/
  | exitClear (fd : Fin NOFILE)

/-- `enum procstate`, with `SLEEPING` and `RUNNING` counted as runnable. -/
inductive ProcState where
  | unused
  | embryo
  | runnable
  | zombie
  deriving DecidableEq

/-- The part of `struct proc` these calls use, and the call it is running. -/
structure Proc where
  state : ProcState
  ofile : Fin NOFILE → Option (Fin NFILE)
  call : Call

/-- `ftable`, the pipes allocated so far (by allocation order), and the process table, with a
record of how many files of type `FD_PIPE` or `FD_INODE` have lost their last reference and
how many `pipeclose`/`iput` calls `fileclose` has made. -/
structure Kernel where
  file : Fin NFILE → File
  pipes : List PipeObj
  proc : Fin NPROC → Proc
  ended : Nat
  released : Nat

/-- The kernel once `userinit` has made the first process. -/
def Kernel.init : Kernel where
  file := fun _ => File.zero
  pipes := []
  proc := fun i => { state := if i.val = 0 then .runnable else .unused, ofile := fun _ => none,
                     call := .idle }
  ended := 0
  released := 0

/-- The first half of `pipeclose(p, writable)`, under `p->lock`: the end is closed. -/
def PipeObj.close (p : PipeObj) (writable : Bool) : PipeObj :=
  if writable then { p with writeopen := false } else { p with readopen := false }

namespace Kernel

def setFile (k : Kernel) (f : Fin NFILE) (fl : File) : Kernel :=
  { k with file := Function.update k.file f fl }

def setProc (k : Kernel) (i : Fin NPROC) (p : Proc) : Kernel :=
  { k with proc := Function.update k.proc i p }

/-- Move process `i` to another place in its call. -/
def setCall (k : Kernel) (i : Fin NPROC) (c : Call) : Kernel :=
  k.setProc i { k.proc i with call := c }

/-- Set slot `fd` of process `i`. -/
def setSlot (k : Kernel) (i : Fin NPROC) (fd : Fin NOFILE) (o : Option (Fin NFILE)) : Kernel :=
  k.setProc i { k.proc i with ofile := Function.update (k.proc i).ofile fd o }

/-- The pipe allocated `q`-th. -/
def pipe (k : Kernel) (q : Nat) : PipeObj := k.pipes.getD q PipeObj.fresh

def setPipe (k : Kernel) (q : Nat) (p : PipeObj) : Kernel :=
  { k with pipes := k.pipes.set q p }

section Updates

variable (k : Kernel) (f : Fin NFILE) (fl : File) (i : Fin NPROC) (p : Proc)

@[simp] theorem setFile_file : (k.setFile f fl).file = Function.update k.file f fl := rfl
@[simp] theorem setFile_proc : (k.setFile f fl).proc = k.proc := rfl
@[simp] theorem setFile_pipes : (k.setFile f fl).pipes = k.pipes := rfl
@[simp] theorem setFile_ended : (k.setFile f fl).ended = k.ended := rfl
@[simp] theorem setFile_released : (k.setFile f fl).released = k.released := rfl
@[simp] theorem setProc_proc : (k.setProc i p).proc = Function.update k.proc i p := rfl
@[simp] theorem setProc_file : (k.setProc i p).file = k.file := rfl
@[simp] theorem setProc_pipes : (k.setProc i p).pipes = k.pipes := rfl
@[simp] theorem setProc_ended : (k.setProc i p).ended = k.ended := rfl
@[simp] theorem setProc_released : (k.setProc i p).released = k.released := rfl

@[simp] theorem setCall_eq (c : Call) : k.setCall i c = k.setProc i { k.proc i with call := c } :=
  rfl

@[simp] theorem setSlot_eq (fd : Fin NOFILE) (o : Option (Fin NFILE)) :
    k.setSlot i fd o = k.setProc i { k.proc i with ofile := Function.update (k.proc i).ofile fd o } :=
  rfl

@[simp] theorem setPipe_file (q : Nat) (x : PipeObj) : (k.setPipe q x).file = k.file := rfl
@[simp] theorem setPipe_proc (q : Nat) (x : PipeObj) : (k.setPipe q x).proc = k.proc := rfl
@[simp] theorem setPipe_ended (q : Nat) (x : PipeObj) : (k.setPipe q x).ended = k.ended := rfl
@[simp] theorem setPipe_released (q : Nat) (x : PipeObj) : (k.setPipe q x).released = k.released :=
  rfl
@[simp] theorem setPipe_length (q : Nat) (x : PipeObj) :
    (k.setPipe q x).pipes.length = k.pipes.length := List.length_set

theorem pipe_setPipe {q : Nat} (x : PipeObj) (hq : q < k.pipes.length) (q' : Nat) :
    (k.setPipe q x).pipe q' = if q' = q then x else k.pipe q' := by
  unfold pipe setPipe
  simp only [List.getD_eq_getElem?_getD, List.getElem?_set]
  by_cases h : q' = q
  · subst h
    simp [hq]
  · simp [Ne.symm h, h]

theorem pipe_of_le {q : Nat} (h : k.pipes.length ≤ q) : k.pipe q = PipeObj.fresh := by
  unfold pipe
  simp [List.getD_eq_getElem?_getD, List.getElem?_eq_none h]

/-- The page `pipealloc` adds reads as the default, so appending it changes no pipe. -/
@[simp] theorem pipe_append_fresh (q : Nat) :
    ({ k with pipes := k.pipes ++ [PipeObj.fresh] } : Kernel).pipe q = k.pipe q := by
  unfold pipe
  simp only [List.getD_eq_getElem?_getD, List.getElem?_append, List.getElem?_singleton]
  by_cases h : q < k.pipes.length
  · simp [h]
  · by_cases h' : q - k.pipes.length = 0 <;> simp [h, h']

end Updates

/-- `filealloc`'s scan: the first file with `ref == 0`. -/
def free (k : Kernel) : Option (Fin NFILE) :=
  (List.finRange NFILE).find? fun f => (k.file f).ref == 0

theorem free_ref {k : Kernel} {f : Fin NFILE} (h : k.free = some f) : (k.file f).ref = 0 := by
  simpa using List.find?_some h

/-- `filealloc`: take the first unreferenced file. -/
def filealloc (k : Kernel) : Option (Fin NFILE × Kernel) :=
  (k.free).map fun f => (f, k.setFile f { k.file f with ref := 1 })

/-- The rest of `pipealloc` once `kalloc` has given the page: the new pipe, with both ends
open, and its two files. -/
def pipealloc (k : Kernel) (f0 f1 : Fin NFILE) : Kernel :=
  let q := k.pipes.length
  let k₁ := { k with pipes := k.pipes ++ [PipeObj.fresh] }
  (k₁.setFile f0 ((k.file f0).pipeEnd q false)).setFile f1 ((k.file f1).pipeEnd q true)

section Pipealloc

variable (k : Kernel) (f0 f1 : Fin NFILE)

@[simp] theorem pipealloc_file : (k.pipealloc f0 f1).file = Function.update
    (Function.update k.file f0 ((k.file f0).pipeEnd k.pipes.length false)) f1
    ((k.file f1).pipeEnd k.pipes.length true) := rfl
@[simp] theorem pipealloc_proc : (k.pipealloc f0 f1).proc = k.proc := rfl
@[simp] theorem pipealloc_pipes : (k.pipealloc f0 f1).pipes = k.pipes ++ [PipeObj.fresh] := rfl
@[simp] theorem pipealloc_ended : (k.pipealloc f0 f1).ended = k.ended := rfl
@[simp] theorem pipealloc_released : (k.pipealloc f0 f1).released = k.released := rfl

end Pipealloc

/-- `filedup`. -/
def filedup (k : Kernel) (f : Fin NFILE) : Except String Kernel :=
  if (k.file f).ref < 1 then .error "filedup"
  else .ok (k.setFile f { k.file f with ref := (k.file f).ref + 1 })

/-- One step of `fileclose`: the work under `ftable.lock`, then `pipeclose` or `iput` of the
copy, then `pipeclose`'s `kfree`. The result's second part is where `fileclose` is next,
`none` once it has returned. -/
def closeStep (k : Kernel) : Close → Except String (Kernel × Option Close)
  | .drop f =>
    let fl := k.file f
    if fl.ref < 1 then .error "fileclose"
    else if fl.ref - 1 > 0 then .ok (k.setFile f { fl with ref := fl.ref - 1 }, none)
    else
      -- `ff = *f; f->ref = 0; f->type = FD_NONE;`
      let k₁ := k.setFile f { fl with ref := 0, type := .none }
      match fl.type with
      | .none => .ok (k₁, none)
      | _ => .ok ({ k₁ with ended := k.ended + 1 }, some (.release fl))
  | .release ff =>
    match ff.type with
    | .pipe =>
      let p' := (k.pipe ff.pipe).close ff.writable
      let k₁ := { k.setPipe ff.pipe p' with released := k.released + 1 }
      if !p'.readopen && !p'.writeopen then .ok (k₁, some (.kfree ff.pipe)) else .ok (k₁, none)
    -- `begin_op(); iput(ff.ip); end_op();`
    | .inode => .ok ({ k with released := k.released + 1 }, none)
    | .none => .ok (k, none)
  | .kfree q => .ok (k.setPipe q { k.pipe q with frees := (k.pipe q).frees + 1 }, none)

section CloseStep

variable {k k₁ : Kernel} {next : Option Close}

/-- What the work of `fileclose` under `ftable.lock` can do: drop a reference that is not the
last, or drop the last one and reset the file, going on to release a pipe or inode file. -/
theorem closeStep_drop {f : Fin NFILE} (h : k.closeStep (.drop f) = .ok (k₁, next)) :
    1 ≤ (k.file f).ref ∧
    ((1 < (k.file f).ref ∧ k₁ = k.setFile f { k.file f with ref := (k.file f).ref - 1 } ∧
        next = none) ∨
      ((k.file f).ref = 1 ∧ (k.file f).type = .none ∧
        k₁ = k.setFile f { k.file f with ref := 0, type := .none } ∧ next = none) ∨
      ((k.file f).ref = 1 ∧ (k.file f).type ≠ .none ∧
        k₁ = { k.setFile f { k.file f with ref := 0, type := .none } with ended := k.ended + 1 } ∧
        next = some (.release (k.file f)))) := by
  unfold closeStep at h
  by_cases h1 : (k.file f).ref < 1
  · simp [h1] at h
  by_cases h2 : (k.file f).ref - 1 > 0
  · simp only [h1, h2, if_false, if_true, Except.ok.injEq, Prod.mk.injEq] at h
    exact ⟨by omega, .inl ⟨by omega, h.1.symm, h.2.symm⟩⟩
  have h3 : (k.file f).ref = 1 := by omega
  simp only [h1, h2, if_false] at h
  refine ⟨by omega, .inr ?_⟩
  rcases ht : (k.file f).type with _ | _ | _ <;> simp only [ht, Except.ok.injEq, Prod.mk.injEq] at h
  · exact .inl ⟨h3, rfl, h.1.symm, h.2.symm⟩
  · exact .inr ⟨h3, nofun, h.1.symm, h.2.symm⟩
  · exact .inr ⟨h3, nofun, h.1.symm, h.2.symm⟩

/-- `pipeclose` of the copy's pipe and end, or `iput` of its inode. -/
theorem closeStep_release {ff : File} (h : k.closeStep (.release ff) = .ok (k₁, next)) :
    (ff.type = .pipe ∧
        k₁ = { k.setPipe ff.pipe ((k.pipe ff.pipe).close ff.writable) with
               released := k.released + 1 } ∧
        next = if !((k.pipe ff.pipe).close ff.writable).readopen &&
            !((k.pipe ff.pipe).close ff.writable).writeopen then some (.kfree ff.pipe) else none) ∨
      (ff.type = .inode ∧ k₁ = { k with released := k.released + 1 } ∧ next = none) ∨
      (ff.type = .none ∧ k₁ = k ∧ next = none) := by
  unfold closeStep at h
  rcases ht : ff.type with _ | _ | _ <;> simp only [ht] at h
  · simp only [Except.ok.injEq, Prod.mk.injEq] at h
    simp [← h.1, ← h.2]
  · refine .inl ⟨rfl, ?_⟩
    split at h <;> simp only [Except.ok.injEq, Prod.mk.injEq] at h <;> simp_all
  · simp only [Except.ok.injEq, Prod.mk.injEq] at h
    simp [← h.1, ← h.2]

theorem closeStep_kfree {q : Nat} (h : k.closeStep (.kfree q) = .ok (k₁, next)) :
    k₁ = k.setPipe q { k.pipe q with frees := (k.pipe q).frees + 1 } ∧ next = none := by
  simp only [closeStep, Except.ok.injEq, Prod.mk.injEq] at h
  exact ⟨h.1.symm, h.2.symm⟩

/-- A step of `fileclose` never goes back to dropping a reference. -/
theorem closeStep_next_ne_drop {c : Close} (h : k.closeStep c = .ok (k₁, next)) (f : Fin NFILE) :
    next ≠ some (.drop f) := by
  cases c with
  | drop f' =>
    rcases (closeStep_drop h).2 with ⟨-, -, rfl⟩ | ⟨-, -, -, rfl⟩ | ⟨-, -, -, rfl⟩ <;> simp
  | release ff =>
    rcases closeStep_release h with ⟨-, -, rfl⟩ | ⟨-, -, rfl⟩ | ⟨-, -, rfl⟩
    · split <;> simp
    all_goals simp
  | kfree q =>
    rw [(closeStep_kfree h).2]
    simp

/-- `fileclose` changes no process. -/
theorem closeStep_proc {c : Close} (h : k.closeStep c = .ok (k₁, next)) : k₁.proc = k.proc := by
  cases c with
  | drop f =>
    rcases (closeStep_drop h).2 with ⟨-, rfl, -⟩ | ⟨-, -, rfl, -⟩ | ⟨-, -, rfl, -⟩ <;> rfl
  | release ff =>
    rcases closeStep_release h with ⟨-, rfl, -⟩ | ⟨-, rfl, -⟩ | ⟨-, rfl, -⟩ <;> rfl
  | kfree q =>
    rw [(closeStep_kfree h).1]
    rfl

end CloseStep

end Kernel

/-- Where a call closing a list of files goes from `fileclose` step `next`: on with this
`fileclose`, on to the next file's, or back from the system call. -/
def Call.closeNext : Option Close → List (Fin NFILE) → Call
  | some c, rest => .closing c rest
  | none, f :: rest => .closing (.drop f) rest
  | none, [] => .idle

/-- Where `exit`'s `fileclose` of slot `fd` goes from `fileclose` step `next`. -/
def Call.exitNext (fd : Fin NOFILE) : Option Close → Call
  | some c => .exitClose fd c
  | none => .exitClear fd

/-- `fdalloc`'s scan: the lowest empty slot. -/
def Proc.fdalloc (p : Proc) : Option (Fin NOFILE) :=
  (List.finRange NOFILE).find? fun fd => p.ofile fd == none

theorem Proc.fdalloc_ofile {p : Proc} {fd : Fin NOFILE} (h : p.fdalloc = some fd) :
    p.ofile fd = none := by
  simpa using List.find?_some h

namespace Kernel

/-- `allocproc`'s scan: the first unused process. -/
def allocproc (k : Kernel) : Option (Fin NPROC) :=
  (List.finRange NPROC).find? fun c => (k.proc c).state == .unused

theorem allocproc_state {k : Kernel} {c : Fin NPROC} (h : k.allocproc = some c) :
    (k.proc c).state = .unused := by
  simpa using List.find?_some h

/-- `sys_open` once its inode `ip` is found or created: `filealloc`. -/
def sysOpen (k : Kernel) (i : Fin NPROC) (ip omode : Nat) : Kernel :=
  match k.filealloc with
  | some (f, k₁) => k₁.setCall i (.openFd f ip omode)
  | none => k

/-- `sys_dup(fd)`: `argfd`, then `fdalloc`. -/
def sysDup (k : Kernel) (i : Fin NPROC) (fd : Fin NOFILE) : Kernel :=
  match (k.proc i).ofile fd, (k.proc i).fdalloc with
  | some f, some dst => (k.setSlot i dst (some f)).setCall i (.dup f fd dst)
  | _, _ => k

/-- `sys_close(fd)`: `argfd`, empty the slot, then `fileclose`. -/
def sysClose (k : Kernel) (i : Fin NPROC) (fd : Fin NOFILE) : Kernel :=
  match (k.proc i).ofile fd with
  | some f => (k.setSlot i fd none).setCall i (.closing (.drop f) [])
  | none => k

/-- `sys_pipe`: `pipealloc`'s first `filealloc`. -/
def sysPipe (k : Kernel) (i : Fin NPROC) : Kernel :=
  match k.filealloc with
  | some (f0, k₁) => k₁.setCall i (.allocF1 f0)
  | none => k

/-- `fork`: `allocproc`, then the loop over the slots. -/
def sysFork (k : Kernel) (i : Fin NPROC) : Kernel :=
  match k.allocproc with
  | some c => (k.setProc c { k.proc c with state := .embryo }).setCall i (.forking c 0)
  | none => k

/-- `exit`. -/
def sysExit (k : Kernel) (i : Fin NPROC) : Except String Kernel :=
  if i.val = 0 then .error "init exiting" else .ok (k.setCall i (.exitScan 0))

theorem ok_of_map_eq_ok {ε α β : Type} {x : Except ε α} {f : α → β} {b : β}
    (h : x.map f = .ok b) : ∃ a, x = .ok a ∧ f a = b := by
  cases x with
  | error e => cases h
  | ok a => exact ⟨a, rfl, Except.ok.inj h⟩

/-- The next step of process `i`'s call; `kallocOk` says whether `kalloc` finds a page. -/
def advance (k : Kernel) (i : Fin NPROC) (kallocOk : Bool) : Except String Kernel :=
  match (k.proc i).call with
  | .idle => .ok k
  | .openFd f ip omode =>
    match (k.proc i).fdalloc with
    | some fd =>
      .ok (((k.setSlot i fd (some f)).setFile f ((k.file f).opened ip omode)).setCall i .idle)
    | none => .ok (k.setCall i (.closing (.drop f) []))
  | .dup f _ _ => (k.filedup f).map fun k₁ => k₁.setCall i .idle
  | .allocF1 f0 =>
    match k.filealloc with
    | some (f1, k₁) => .ok (k₁.setCall i (.kalloc f0 f1))
    | none => .ok (k.setCall i (.closing (.drop f0) []))
  | .kalloc f0 f1 =>
    if kallocOk then .ok ((k.pipealloc f0 f1).setCall i (.pipeFd0 f0 f1))
    else .ok (k.setCall i (.closing (.drop f0) [f1]))
  | .pipeFd0 rf wf =>
    match (k.proc i).fdalloc with
    | some fd0 => .ok ((k.setSlot i fd0 (some rf)).setCall i (.pipeFd1 rf wf fd0))
    | none => .ok (k.setCall i (.closing (.drop rf) [wf]))
  | .pipeFd1 rf wf fd0 =>
    match (k.proc i).fdalloc with
    | some fd1 => .ok ((k.setSlot i fd1 (some wf)).setCall i .idle)
    | none => .ok ((k.setSlot i fd0 none).setCall i (.closing (.drop rf) [wf]))
  | .closing c rest => (k.closeStep c).map fun (k₁, next) => k₁.setCall i (Call.closeNext next rest)
  | .forking c n =>
    if h : n < NOFILE then
      match (k.proc i).ofile ⟨n, h⟩ with
      | some f =>
        (k.filedup f).map fun k₁ => (k₁.setSlot c ⟨n, h⟩ (some f)).setCall i (.forking c (n + 1))
      | none => .ok (k.setCall i (.forking c (n + 1)))
    else .ok ((k.setProc c { k.proc c with state := .runnable }).setCall i .idle)
  | .exitScan n =>
    if h : n < NOFILE then
      match (k.proc i).ofile ⟨n, h⟩ with
      | some f => .ok (k.setCall i (.exitClose ⟨n, h⟩ (.drop f)))
      | none => .ok (k.setCall i (.exitScan (n + 1)))
    else .ok (k.setProc i { k.proc i with state := .zombie, call := .idle })
  | .exitClose fd c => (k.closeStep c).map fun (k₁, next) => k₁.setCall i (Call.exitNext fd next)
  | .exitClear fd => .ok ((k.setSlot i fd none).setCall i (.exitScan (fd.val + 1)))

end Kernel

/-- A step of one process, or `wait` reaping a zombie. System calls start only in a runnable
process that is not already in one. -/
inductive Step : Kernel → Kernel → Prop where
  | sysOpen (k : Kernel) (i : Fin NPROC) (ip omode : Nat)
      (hrun : (k.proc i).state = .runnable) (hidle : (k.proc i).call = .idle) :
      Step k (k.sysOpen i ip omode)
  | sysDup (k : Kernel) (i : Fin NPROC) (fd : Fin NOFILE)
      (hrun : (k.proc i).state = .runnable) (hidle : (k.proc i).call = .idle) :
      Step k (k.sysDup i fd)
  | sysClose (k : Kernel) (i : Fin NPROC) (fd : Fin NOFILE)
      (hrun : (k.proc i).state = .runnable) (hidle : (k.proc i).call = .idle) :
      Step k (k.sysClose i fd)
  | sysPipe (k : Kernel) (i : Fin NPROC)
      (hrun : (k.proc i).state = .runnable) (hidle : (k.proc i).call = .idle) :
      Step k (k.sysPipe i)
  | sysFork (k : Kernel) (i : Fin NPROC)
      (hrun : (k.proc i).state = .runnable) (hidle : (k.proc i).call = .idle) :
      Step k (k.sysFork i)
  | sysExit (k : Kernel) (i : Fin NPROC) {k' : Kernel}
      (hrun : (k.proc i).state = .runnable) (hidle : (k.proc i).call = .idle)
      (h : k.sysExit i = .ok k') : Step k k'
  | advance (k : Kernel) (i : Fin NPROC) (kallocOk : Bool) {k' : Kernel}
      (h : k.advance i kallocOk = .ok k') : Step k k'
  | reap (k : Kernel) (i : Fin NPROC) (hz : (k.proc i).state = .zombie) :
      Step k (k.setProc i { k.proc i with state := .unused })

end Xv6.Files
