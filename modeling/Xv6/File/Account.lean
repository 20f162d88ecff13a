import Xv6.File.Table
import Xv6.Lib.Tally

/-!
# Who holds a reference to an open file

A file's `ref` counts the slots that point to it and the references system calls hold while
they run. Two slots point to a file without a reference of their own: the one `sys_dup` has
filled before its `filedup`, and the one whose file `exit` has closed and not yet cleared.
A call holds the files it got from `filealloc` and has not put in a slot, and the ones it is
about to `fileclose`.

Pipes are accounted the same way: an open end of a pipe is a file of that end, or the copy
of one whose `pipeclose` is still to come.
-/

namespace Xv6.Files

open Finset

/-- The reference a `fileclose` holds until it has taken `ftable.lock`. -/
def Close.held : Close → List (Fin NFILE)
  | .drop f => [f]
  | _ => []

/-- The references a call holds other than through a slot of its process. -/
def Call.held : Call → List (Fin NFILE)
  | .openFd f _ _ => [f]
  | .allocF1 f0 => [f0]
  | .kalloc f0 f1 => [f0, f1]
  | .pipeFd0 rf wf => [rf, wf]
  | .pipeFd1 _ wf _ => [wf]
  | .closing c rest => c.held ++ rest
  | _ => []

/-- The slot whose reference is not counted in its file. -/
def Call.unbacked : Call → Option (Fin NOFILE)
  | .dup _ _ dst => some dst
  | .exitClose _ (.drop _) => none
  | .exitClose fd _ => some fd
  | .exitClear fd => some fd
  | _ => none

/-- The files a call has from `filealloc` and has not made reachable to anyone else. -/
def Call.fresh : Call → List (Fin NFILE)
  | .openFd f _ _ => [f]
  | .allocF1 f0 => [f0]
  | .kalloc f0 f1 => [f0, f1]
  | _ => []

/-- The copy of a closed file whose `pipeclose` or `iput` the call makes next. -/
def Call.releasing : Call → Option File
  | .closing (.release ff) _ => some ff
  | .exitClose _ (.release ff) => some ff
  | _ => none

/-- The pipe whose page the call frees next. -/
def Call.freeing : Call → Option Nat
  | .closing (.kfree q) _ => some q
  | .exitClose _ (.kfree q) => some q
  | _ => none

/-- The file whose reference slot `fd` of `p` holds. -/
def Proc.own (p : Proc) (fd : Fin NOFILE) : Option (Fin NFILE) :=
  if p.call.unbacked = some fd then none else p.ofile fd

/-- The references to `f` that process `p` holds, in its slots and in its call. -/
def Proc.refs (p : Proc) (f : Fin NFILE) : Nat :=
  (∑ fd, if p.own fd = some f then 1 else 0) + p.call.held.count f

/-- Which end of which pipe a file is: the pipe and whether it is the writing end. -/
def File.pipeOf (fl : File) : Option (Nat × Bool) :=
  if fl.type = .pipe then some (fl.pipe, fl.writable) else none

/-- Whether the reading (`false`) or writing (`true`) end of a pipe is open. -/
def PipeObj.isOpen (p : PipeObj) (w : Bool) : Bool :=
  if w then p.writeopen else p.readopen

namespace Kernel

/-- All references to `f`. -/
def refs (k : Kernel) (f : Fin NFILE) : Nat := ∑ i, (k.proc i).refs f

/-- The `fileclose` calls past the last reference of a pipe or inode file whose `pipeclose`
or `iput` is still to come. -/
def releasing (k : Kernel) : Nat :=
  ∑ i, if (k.proc i).call.releasing.any (fun ff => ff.type != .none) then 1 else 0

/-- The open `w` ends of pipe `q`: files that are that end, and closed copies of one whose
`pipeclose` is still to come. -/
def ends (k : Kernel) (q : Nat) (w : Bool) : Nat :=
  (∑ f, if (k.file f).pipeOf = some (q, w) then 1 else 0) +
    ∑ i, if (k.proc i).call.releasing.bind File.pipeOf = some (q, w) then 1 else 0

/-- The calls about to free pipe `q`. -/
def kfrees (k : Kernel) (q : Nat) : Nat :=
  ∑ i, if (k.proc i).call.freeing = some q then 1 else 0

end Kernel

/-! ### The continuations of `fileclose` -/

namespace Call

variable {next : Option Close}

theorem held_closeNext (h : ∀ f, next ≠ some (.drop f)) (rest : List (Fin NFILE))
    (g : Fin NFILE) : (closeNext next rest).held.count g = rest.count g := by
  rcases next with _ | (f | ff | q)
  · cases rest <;> simp [closeNext, held, Close.held]
  · exact absurd rfl (h f)
  all_goals simp [closeNext, held, Close.held]

@[simp] theorem unbacked_closeNext (rest : List (Fin NFILE)) :
    (closeNext next rest).unbacked = none := by
  rcases next with _ | c
  · cases rest <;> rfl
  · rfl

@[simp] theorem fresh_closeNext (rest : List (Fin NFILE)) : (closeNext next rest).fresh = [] := by
  rcases next with _ | c
  · cases rest <;> rfl
  · rfl

theorem unbacked_exitNext (h : ∀ f, next ≠ some (.drop f)) (fd : Fin NOFILE) :
    (exitNext fd next).unbacked = some fd := by
  rcases next with _ | (f | ff | q)
  · rfl
  · exact absurd rfl (h f)
  all_goals rfl

@[simp] theorem held_exitNext (fd : Fin NOFILE) : (exitNext fd next).held = [] := by
  rcases next with _ | c <;> rfl

@[simp] theorem fresh_exitNext (fd : Fin NOFILE) : (exitNext fd next).fresh = [] := by
  rcases next with _ | c <;> rfl

end Call

/-! ### References of one process -/

namespace Proc

/-- A process whose call does not leave a slot unbacked holds a reference in every slot. -/
theorem own_of_unbacked_none {p : Proc} (h : p.call.unbacked = none) : p.own = p.ofile := by
  funext fd
  simp [own, h]

theorem own_setCall (p : Proc) {c : Call} (h : c.unbacked = p.call.unbacked) :
    ({ p with call := c } : Proc).own = p.own := by
  funext fd
  simp only [own, h]

theorem own_setSlot (p : Proc) {c : Call} (fd : Fin NOFILE) (o : Option (Fin NFILE))
    (h : c.unbacked = none) (h₀ : p.call.unbacked = none) :
    ({ p with ofile := Function.update p.ofile fd o, call := c } : Proc).own =
      Function.update p.own fd o := by
  rw [own_of_unbacked_none h, own_of_unbacked_none h₀]

theorem refs_congr {p p' : Proc} (hown : p'.own = p.own)
    (hheld : ∀ f, p'.call.held.count f = p.call.held.count f) (f : Fin NFILE) :
    p'.refs f = p.refs f := by
  rw [refs, refs, hown, hheld]

/-- A slot changing its reference changes the process's references by the difference. -/
theorem refs_update {p p' : Proc} {d : Fin NOFILE} {v : Option (Fin NFILE)}
    (hown : p'.own = Function.update p.own d v) (f : Fin NFILE) :
    p'.refs f + (if p.own d = some f then 1 else 0) + p.call.held.count f =
      p.refs f + (if v = some f then 1 else 0) + p'.call.held.count f := by
  have h := Tally.sum_update_add (fun _ o => if o = some f then 1 else 0) p.own d v
  rw [refs, refs, hown]
  omega

/-- Moving the call on, with the same slot left unbacked, trades its held references. -/
theorem refs_setCall (p : Proc) {c : Call} (hu : c.unbacked = p.call.unbacked) (f : Fin NFILE) :
    ({ p with call := c } : Proc).refs f + p.call.held.count f = p.refs f + c.held.count f := by
  simp only [refs, own_setCall p hu]
  omega

theorem one_le_refs_of_held {p : Proc} {f : Fin NFILE} (h : f ∈ p.call.held) :
    1 ≤ p.refs f := by
  have := List.count_pos_iff.mpr h
  unfold refs
  omega

theorem one_le_refs_of_own {p : Proc} {fd : Fin NOFILE} {f : Fin NFILE}
    (h : p.own fd = some f) : 1 ≤ p.refs f := by
  have := Finset.single_le_sum (f := fun fd => if p.own fd = some f then 1 else 0)
    (fun _ _ => Nat.zero_le _) (Finset.mem_univ fd)
  simp only [h, if_true] at this
  unfold refs
  omega

end Proc

/-! ### Tallies over the kernel -/

namespace Kernel

/-- Changing one process changes the references by the difference of its own. -/
theorem refs_setProc (k : Kernel) (i : Fin NPROC) (p : Proc) (f : Fin NFILE) :
    (k.setProc i p).refs f + (k.proc i).refs f = k.refs f + p.refs f := by
  have h := Tally.sum_update_add (fun _ p => p.refs f) k.proc i p
  simp only [refs, setProc_proc]
  exact h

theorem refs_le (k : Kernel) (i : Fin NPROC) (f : Fin NFILE) : (k.proc i).refs f ≤ k.refs f :=
  Finset.single_le_sum (f := fun i => (k.proc i).refs f) (fun _ _ => Nat.zero_le _)
    (Finset.mem_univ i)

/-- Two processes' references to one file are at most all of them. -/
theorem refs_add_le (k : Kernel) {i j : Fin NPROC} (hij : i ≠ j) (f : Fin NFILE) :
    (k.proc i).refs f + (k.proc j).refs f ≤ k.refs f :=
  Tally.add_le_sum (fun i => (k.proc i).refs f) hij

end Kernel

end Xv6.Files
