import Xv6.File.Refcount

/-!
# Pipe lifetimes and the release of closed files

`fileclose` hands the copy of a file whose last reference went to `pipeclose` or `iput`,
and `pipeclose` frees the pipe's page when it finds both ends closed. Over every run, each
end of a pipe is open exactly while one file is that end or a closed copy of it waits for
`pipeclose`; a pipe's page is freed, or about to be, exactly when both ends are closed; and
`pipeclose` or `iput` comes once for each pipe or inode file that lost its last reference.
-/

namespace Xv6.Files

open Finset

/-- What the pipe accounting reads of a call: the end its pending `pipeclose` closes, whether
it has a `pipeclose` or `iput` to make, and the pipe it is about to free. -/
structure Call.SameView (c c' : Call) : Prop where
  endOf : c.releasing.bind File.pipeOf = c'.releasing.bind File.pipeOf
  pending : (c.releasing.any fun ff => ff.type != .none) =
    (c'.releasing.any fun ff => ff.type != .none)
  freeing : c.freeing = c'.freeing

theorem Call.SameView.of_none {c c' : Call} (h : c.releasing = none) (h' : c'.releasing = none)
    (hf : c.freeing = none) (hf' : c'.freeing = none) : c.SameView c' :=
  ⟨by rw [h, h'], by rw [h, h'], by rw [hf, hf']⟩

/-- The copy a `fileclose` step is about to release. -/
def Close.releasing : Close → Option File
  | .release ff => some ff
  | _ => none

/-- The pipe a `fileclose` step is about to free. -/
def Close.freeing : Close → Option Nat
  | .kfree q => some q
  | _ => none

namespace Call

@[simp] theorem releasing_closing (c : Close) (rest : List (Fin NFILE)) :
    (closing c rest).releasing = c.releasing := by
  cases c <;> rfl

@[simp] theorem freeing_closing (c : Close) (rest : List (Fin NFILE)) :
    (closing c rest).freeing = c.freeing := by
  cases c <;> rfl

@[simp] theorem releasing_exitClose (fd : Fin NOFILE) (c : Close) :
    (exitClose fd c).releasing = c.releasing := by
  cases c <;> rfl

@[simp] theorem freeing_exitClose (fd : Fin NOFILE) (c : Close) :
    (exitClose fd c).freeing = c.freeing := by
  cases c <;> rfl

@[simp] theorem releasing_closeNext (next : Option Close) (rest : List (Fin NFILE)) :
    (closeNext next rest).releasing = next.bind Close.releasing := by
  rcases next with _ | c
  · cases rest <;> rfl
  · cases c <;> rfl

@[simp] theorem freeing_closeNext (next : Option Close) (rest : List (Fin NFILE)) :
    (closeNext next rest).freeing = next.bind Close.freeing := by
  rcases next with _ | c
  · cases rest <;> rfl
  · cases c <;> rfl

@[simp] theorem releasing_exitNext (fd : Fin NOFILE) (next : Option Close) :
    (exitNext fd next).releasing = next.bind Close.releasing := by
  rcases next with _ | c
  · rfl
  · cases c <;> rfl

@[simp] theorem freeing_exitNext (fd : Fin NOFILE) (next : Option Close) :
    (exitNext fd next).freeing = next.bind Close.freeing := by
  rcases next with _ | c
  · rfl
  · cases c <;> rfl

end Call

@[simp] theorem File.pipeOf_setRef (fl : File) (r : Nat) : { fl with ref := r }.pipeOf = fl.pipeOf :=
  rfl

/-- Counting references leaves every file the end of a pipe it was. -/
@[simp] theorem File.pipeOf_update_setRef (t : Fin NFILE → File) (f g : Fin NFILE) (r : Nat) :
    (Function.update t f { t f with ref := r } g).pipeOf = (t g).pipeOf := by
  by_cases h : g = f
  · subst h
    simp
  · rw [Function.update_of_ne h]

namespace PipeObj

@[simp] theorem isOpen_close_self (p : PipeObj) (w : Bool) : (p.close w).isOpen w = false := by
  cases w <;> rfl

theorem isOpen_close_of_ne (p : PipeObj) {w w' : Bool} (h : w' ≠ w) :
    (p.close w).isOpen w' = p.isOpen w' := by
  cases w <;> cases w' <;> simp_all [close, isOpen]

@[simp] theorem frees_close (p : PipeObj) (w : Bool) : (p.close w).frees = p.frees := by
  cases w <;> rfl

end PipeObj

/-- The pipe-lifetime invariant. -/
structure PipeInv (k : Kernel) : Prop where
  /-- every release still to come, and every one made, follows a last reference -/
  ghost : k.ended = k.released + k.releasing
  ends : ∀ q w, q < k.pipes.length → k.ends q w = ((k.pipe q).isOpen w).toNat
  freed : ∀ q, q < k.pipes.length →
    (k.pipe q).frees + k.kfrees q = if (k.pipe q).readopen || (k.pipe q).writeopen then 0 else 1
  beyond : ∀ q, k.pipes.length ≤ q → (∀ w, k.ends q w = 0) ∧ k.kfrees q = 0

/-! ### How the tallies change -/

namespace Kernel

variable {k k' : Kernel}

theorem ends_update_file {f : Fin NFILE} {fl : File} (hf : k'.file = Function.update k.file f fl)
    (hp : k'.proc = k.proc) (q : Nat) (w : Bool) :
    k'.ends q w + (if (k.file f).pipeOf = some (q, w) then 1 else 0) =
      k.ends q w + if fl.pipeOf = some (q, w) then 1 else 0 := by
  have := Tally.sum_update_add (fun _ fl => if fl.pipeOf = some (q, w) then 1 else 0) k.file f fl
  unfold ends
  rw [hf, hp]
  omega

theorem ends_update_proc {j : Fin NPROC} {p : Proc} (hf : k'.file = k.file)
    (hp : k'.proc = Function.update k.proc j p) (q : Nat) (w : Bool) :
    k'.ends q w + (if (k.proc j).call.releasing.bind File.pipeOf = some (q, w) then 1 else 0) =
      k.ends q w + if p.call.releasing.bind File.pipeOf = some (q, w) then 1 else 0 := by
  have := Tally.sum_update_add
    (fun _ p => if p.call.releasing.bind File.pipeOf = some (q, w) then 1 else 0) k.proc j p
  unfold ends
  rw [hf, hp]
  omega

theorem kfrees_update_proc {j : Fin NPROC} {p : Proc} (hp : k'.proc = Function.update k.proc j p)
    (q : Nat) : k'.kfrees q + (if (k.proc j).call.freeing = some q then 1 else 0) =
      k.kfrees q + if p.call.freeing = some q then 1 else 0 := by
  have := Tally.sum_update_add (fun _ p => if p.call.freeing = some q then 1 else 0) k.proc j p
  unfold kfrees
  rw [hp]
  exact this

theorem releasing_update_proc {j : Fin NPROC} {p : Proc}
    (hp : k'.proc = Function.update k.proc j p) :
    k'.releasing + (if (k.proc j).call.releasing.any (fun ff => ff.type != .none) then 1 else 0) =
      k.releasing + if p.call.releasing.any (fun ff => ff.type != .none) then 1 else 0 := by
  have := Tally.sum_update_add
    (fun _ p => if p.call.releasing.any (fun ff => ff.type != .none) then 1 else 0) k.proc j p
  unfold releasing
  rw [hp]
  exact this

theorem ends_setFile (k : Kernel) (f : Fin NFILE) (fl : File) (q : Nat) (w : Bool) :
    (k.setFile f fl).ends q w + (if (k.file f).pipeOf = some (q, w) then 1 else 0) =
      k.ends q w + if fl.pipeOf = some (q, w) then 1 else 0 :=
  ends_update_file (setFile_file k f fl) (setFile_proc k f fl) q w

theorem ends_setProc (k : Kernel) (j : Fin NPROC) (p : Proc) (q : Nat) (w : Bool) :
    (k.setProc j p).ends q w +
        (if (k.proc j).call.releasing.bind File.pipeOf = some (q, w) then 1 else 0) =
      k.ends q w + if p.call.releasing.bind File.pipeOf = some (q, w) then 1 else 0 :=
  ends_update_proc (setProc_file k j p) (setProc_proc k j p) q w

theorem kfrees_setProc (k : Kernel) (j : Fin NPROC) (p : Proc) (q : Nat) :
    (k.setProc j p).kfrees q + (if (k.proc j).call.freeing = some q then 1 else 0) =
      k.kfrees q + if p.call.freeing = some q then 1 else 0 :=
  kfrees_update_proc (setProc_proc k j p) q

theorem releasing_setProc (k : Kernel) (j : Fin NPROC) (p : Proc) :
    (k.setProc j p).releasing +
        (if (k.proc j).call.releasing.any (fun ff => ff.type != .none) then 1 else 0) =
      k.releasing + if p.call.releasing.any (fun ff => ff.type != .none) then 1 else 0 :=
  releasing_update_proc (setProc_proc k j p)

theorem ends_of (hf : k'.file = k.file) (hp : k'.proc = k.proc) : k'.ends = k.ends := by
  funext q w
  unfold ends
  rw [hf, hp]

theorem releasing_of_proc (h : k'.proc = k.proc) : k'.releasing = k.releasing := by
  unfold releasing
  rw [h]

theorem kfrees_of_proc (h : k'.proc = k.proc) : k'.kfrees = k.kfrees := by
  funext q
  unfold kfrees
  rw [h]

/-- The tallies read only the files' pipe ends and the calls' views. -/
theorem ends_congr (hfile : ∀ f, (k'.file f).pipeOf = (k.file f).pipeOf)
    (hview : ∀ j, (k'.proc j).call.SameView (k.proc j).call) (q : Nat) (w : Bool) :
    k'.ends q w = k.ends q w := by
  unfold ends
  simp only [hfile, fun j => (hview j).endOf]

theorem kfrees_congr (hview : ∀ j, (k'.proc j).call.SameView (k.proc j).call) (q : Nat) :
    k'.kfrees q = k.kfrees q := by
  unfold kfrees
  simp only [fun j => (hview j).freeing]

theorem releasing_congr (hview : ∀ j, (k'.proc j).call.SameView (k.proc j).call) :
    k'.releasing = k.releasing := by
  unfold releasing
  simp only [fun j => (hview j).pending]

theorem ends_le_of_releasing {k : Kernel} {j : Fin NPROC} {q : Nat} {w : Bool}
    (h : (k.proc j).call.releasing.bind File.pipeOf = some (q, w)) : 1 ≤ k.ends q w := by
  have := Finset.single_le_sum
    (f := fun j => if (k.proc j).call.releasing.bind File.pipeOf = some (q, w) then 1 else 0)
    (fun _ _ => Nat.zero_le _) (Finset.mem_univ j)
  simp only [h, if_true] at this
  unfold ends
  omega

theorem ends_le_of_file {k : Kernel} {f : Fin NFILE} {q : Nat} {w : Bool}
    (h : (k.file f).pipeOf = some (q, w)) : 1 ≤ k.ends q w := by
  have := Finset.single_le_sum (f := fun f => if (k.file f).pipeOf = some (q, w) then 1 else 0)
    (fun _ _ => Nat.zero_le _) (Finset.mem_univ f)
  simp only [h, if_true] at this
  unfold ends
  omega

theorem kfrees_le_of_freeing {k : Kernel} {j : Fin NPROC} {q : Nat}
    (h : (k.proc j).call.freeing = some q) : 1 ≤ k.kfrees q := by
  have := Finset.single_le_sum (f := fun j => if (k.proc j).call.freeing = some q then 1 else 0)
    (fun _ _ => Nat.zero_le _) (Finset.mem_univ j)
  simp only [h, if_true] at this
  exact this

end Kernel

theorem pipeInv_init : PipeInv Kernel.init where
  ghost := by simp [Kernel.init, Kernel.releasing, Call.releasing]
  ends q w h := by simp [Kernel.init] at h
  freed q h := by simp [Kernel.init] at h
  beyond q _ := by
    simp [Kernel.init, Kernel.ends, Kernel.kfrees, File.zero, File.pipeOf, Call.releasing,
      Call.freeing]

section Frame

variable {k k' : Kernel}

/-- A step that leaves the pipes, every open end and every pending free as they were, and
makes as many releases as it records last references, keeps the invariant. -/
theorem PipeInv.of_tallies (hp : PipeInv k) (hpipes : k'.pipes = k.pipes)
    (hghost : k'.ended + k.released + k.releasing = k.ended + k'.released + k'.releasing)
    (hends : ∀ q w, k'.ends q w = k.ends q w) (hkf : ∀ q, k'.kfrees q = k.kfrees q) :
    PipeInv k' where
  ghost := by
    have := hp.ghost
    omega
  ends q w hq := by
    rw [hends, Kernel.pipe, hpipes]
    exact hp.ends q w (hpipes ▸ hq)
  freed q hq := by
    rw [hkf, Kernel.pipe, hpipes]
    exact hp.freed q (hpipes ▸ hq)
  beyond q hq := by
    rw [hkf]
    simp only [hends]
    exact hp.beyond q (hpipes ▸ hq)

/-- A step that leaves the pipes, the release records, the files' pipe ends and the calls'
views as they were keeps the invariant. -/
theorem PipeInv.frame (hp : PipeInv k) (hpipes : k'.pipes = k.pipes) (hend : k'.ended = k.ended)
    (hrel : k'.released = k.released) (hfile : ∀ f, (k'.file f).pipeOf = (k.file f).pipeOf)
    (hview : ∀ j, (k'.proc j).call.SameView (k.proc j).call) : PipeInv k' :=
  hp.of_tallies hpipes (by rw [hend, hrel, Kernel.releasing_congr hview])
    (Kernel.ends_congr hfile hview) (Kernel.kfrees_congr hview)

/-- The same when the calls change only in process `i`, between calls with nothing to release
or free. -/
theorem PipeInv.calm (hp : PipeInv k) (i : Fin NPROC) (hpipes : k'.pipes = k.pipes)
    (hend : k'.ended = k.ended) (hrel : k'.released = k.released)
    (hfile : ∀ f, (k'.file f).pipeOf = (k.file f).pipeOf)
    (hcalls : ∀ j, j ≠ i → (k'.proc j).call = (k.proc j).call)
    (hq : (k'.proc i).call.releasing = none ∧ (k'.proc i).call.freeing = none)
    (hq₀ : (k.proc i).call.releasing = none ∧ (k.proc i).call.freeing = none) : PipeInv k' := by
  refine hp.frame hpipes hend hrel hfile fun j => ?_
  by_cases hji : j = i
  · subst hji
    exact .of_none hq.1 hq₀.1 hq.2 hq₀.2
  · rw [hcalls j hji]
    exact ⟨rfl, rfl, rfl⟩

end Frame

/-! ### The steps of `fileclose` -/

section Close

variable {k : Kernel}

/-- The last reference to a pipe or inode file goes: the file's end moves to the copy that is
to be released. -/
theorem PipeInv.dropLast (hp : PipeInv k) {f : Fin NFILE} (hty : (k.file f).type ≠ .none)
    (j : Fin NPROC) (p : Proc) (hr₀ : (k.proc j).call.releasing = none)
    (hf₀ : (k.proc j).call.freeing = none) (hr : p.call.releasing = some (k.file f))
    (hf : p.call.freeing = none) :
    PipeInv ({ k.setFile f { k.file f with ref := 0, type := .none } with
      ended := k.ended + 1 }.setProc j p) := by
  set k₁ : Kernel := { k.setFile f { k.file f with ref := 0, type := .none } with
    ended := k.ended + 1 } with hk₁
  have hproc : k₁.proc = k.proc := rfl
  refine hp.of_tallies rfl ?_ (fun q w => ?_) (fun q => ?_)
  · have h := Kernel.releasing_setProc k₁ j p
    rw [Kernel.releasing_of_proc hproc, hproc, hr₀, hr] at h
    have hend : (k₁.setProc j p).ended = k.ended + 1 := rfl
    have hrel : (k₁.setProc j p).released = k.released := rfl
    simp [hty] at h
    omega
  · have h₁ := Kernel.ends_setProc k₁ j p q w
    have h₂ := k.ends_setFile f { k.file f with ref := 0, type := .none } q w
    have e : k₁.ends q w = (k.setFile f { k.file f with ref := 0, type := .none }).ends q w := rfl
    have hnone : ({ k.file f with ref := 0, type := .none } : File).pipeOf = none := rfl
    rw [hproc, hr₀, hr, e] at h₁
    rw [hnone] at h₂
    simp only [Option.bind_none, Option.bind_some] at h₁
    simp at h₁ h₂
    omega
  · have h := Kernel.kfrees_setProc k₁ j p q
    rw [hproc, hf₀, hf, Kernel.kfrees_of_proc hproc] at h
    simpa using h

/-- `pipeclose` of the `w` end of pipe `q`: the end closes, and the page is to be freed if the
other end was closed already. -/
theorem PipeInv.releasePipe (hp : PipeInv k) {ff : File} {q : Nat} {w : Bool}
    (hpo : ff.pipeOf = some (q, w)) (j : Fin NPROC) (p : Proc)
    (hr₀ : (k.proc j).call.releasing = some ff) (hf₀ : (k.proc j).call.freeing = none)
    (hr : p.call.releasing = none)
    (hf : p.call.freeing = if !((k.pipe q).close w).readopen && !((k.pipe q).close w).writeopen
      then some q else none) :
    PipeInv ({ k.setPipe q ((k.pipe q).close w) with released := k.released + 1 }.setProc j p) := by
  set k₁ : Kernel := { k.setPipe q ((k.pipe q).close w) with released := k.released + 1 }
  have hproc : k₁.proc = k.proc := rfl
  have hfile : k₁.file = k.file := rfl
  have hty : ff.type ≠ .none := by
    intro h
    simp [File.pipeOf, h] at hpo
  have hlen : (k₁.setProc j p).pipes.length = k.pipes.length := by simp [k₁]
  -- the copy being released is an open end of a pipe that exists
  have h1 : 1 ≤ k.ends q w := Kernel.ends_le_of_releasing (j := j) (by rw [hr₀]; simp [hpo])
  have hq : q < k.pipes.length := by
    by_contra h
    have := (hp.beyond q (by omega)).1 w
    omega
  have hopen : (k.pipe q).isOpen w = true := by
    have := hp.ends q w hq
    cases h : (k.pipe q).isOpen w
    · simp [h] at this
      omega
    · rfl
  have hfree0 : (k.pipe q).frees + k.kfrees q = 0 := by
    have hor : ((k.pipe q).readopen || (k.pipe q).writeopen) = true := by
      cases w <;> simp_all [PipeObj.isOpen]
    have := hp.freed q hq
    rwa [hor, if_pos rfl] at this
  have hpipe (q' : Nat) : (k₁.setProc j p).pipe q' = if q' = q then (k.pipe q).close w
      else k.pipe q' :=
    Kernel.pipe_setPipe k _ hq q'
  have hends (q' : Nat) (w' : Bool) :
      (k₁.setProc j p).ends q' w' + (if q = q' ∧ w = w' then 1 else 0) = k.ends q' w' := by
    have h := Kernel.ends_setProc k₁ j p q' w'
    rw [hproc, hr₀, hr, Kernel.ends_of hfile hproc] at h
    simpa [hpo] using h
  have hkf (q' : Nat) :
      (k₁.setProc j p).kfrees q' = k.kfrees q' + if p.call.freeing = some q' then 1 else 0 := by
    have h := Kernel.kfrees_setProc k₁ j p q'
    rw [hproc, hf₀, Kernel.kfrees_of_proc hproc] at h
    simpa using h
  have hrel : (k₁.setProc j p).releasing + 1 = k.releasing := by
    have h := Kernel.releasing_setProc k₁ j p
    rw [hproc, hr₀, hr, Kernel.releasing_of_proc hproc] at h
    simp [hty] at h
    omega
  refine ⟨?_, fun q' w' hq' => ?_, fun q' hq' => ?_, fun q' hq' => ?_⟩
  · have := hp.ghost
    change k.ended = k.released + 1 + (k₁.setProc j p).releasing
    omega
  · rw [hlen] at hq'
    have h := hends q' w'
    rw [hpipe]
    by_cases hqq : q' = q
    · subst hqq
      by_cases hww : w' = w
      · subst hww
        have := hp.ends q' w' hq
        rw [hopen] at this
        simp at h this ⊢
        omega
      · have hww' : ¬(w = w') := fun e => hww e.symm
        simp only [hww', and_false, if_false, if_true, PipeObj.isOpen_close_of_ne _ hww] at h ⊢
        rw [← hp.ends q' w' hq]
        omega
    · have hqq' : ¬(q = q') := fun e => hqq e.symm
      simp only [hqq, hqq', false_and, if_false] at h ⊢
      rw [← hp.ends q' w' hq']
      omega
  · rw [hlen] at hq'
    rw [hpipe, hkf, hf]
    by_cases hqq : q' = q
    · subst hqq
      rw [if_pos rfl, PipeObj.frees_close]
      cases hr' : ((k.pipe q').close w).readopen <;> cases hw' : ((k.pipe q').close w).writeopen <;>
        simp <;> omega
    · have hqq' : ¬(q = q') := fun e => hqq e.symm
      simp only [hqq, if_false]
      have := hp.freed q' hq'
      split <;> simp_all
  · rw [hlen] at hq'
    have hqq' : ¬(q = q') := by omega
    obtain ⟨hends0, hkf0⟩ := hp.beyond q' hq'
    refine ⟨fun w' => ?_, ?_⟩
    · have h₁ := hends q' w'
      have h₂ := hends0 w'
      simp only [hqq', false_and, if_false] at h₁
      omega
    · rw [hkf, hf, hkf0]
      split <;> simp [hqq']

/-- `iput` of the copy of an inode file. -/
theorem PipeInv.releaseInode (hp : PipeInv k) {ff : File} (hty : ff.type = .inode)
    (j : Fin NPROC) (p : Proc) (hr₀ : (k.proc j).call.releasing = some ff)
    (hf₀ : (k.proc j).call.freeing = none) (hr : p.call.releasing = none)
    (hf : p.call.freeing = none) :
    PipeInv ({ k with released := k.released + 1 }.setProc j p) := by
  set k₁ : Kernel := { k with released := k.released + 1 }
  have hproc : k₁.proc = k.proc := rfl
  have hfile : k₁.file = k.file := rfl
  have hpo : ff.pipeOf = none := by simp [File.pipeOf, hty]
  refine hp.of_tallies rfl ?_ (fun q w => ?_) (fun q => ?_)
  · have h := Kernel.releasing_setProc k₁ j p
    rw [Kernel.releasing_of_proc hproc, hproc, hr₀, hr] at h
    simp [hty] at h
    change k.ended + k.released + k.releasing = k.ended + (k.released + 1) + _
    omega
  · have h := Kernel.ends_setProc k₁ j p q w
    rw [Kernel.ends_of hfile hproc, hproc, hr₀, hr] at h
    simpa [hpo] using h
  · have h := Kernel.kfrees_setProc k₁ j p q
    rw [Kernel.kfrees_of_proc hproc, hproc, hf₀, hf] at h
    simpa using h

/-- `kfree` of the page of a pipe with both ends closed. -/
theorem PipeInv.kfree (hp : PipeInv k) {q : Nat} (j : Fin NPROC) (p : Proc)
    (hr₀ : (k.proc j).call.releasing = none) (hf₀ : (k.proc j).call.freeing = some q)
    (hr : p.call.releasing = none) (hf : p.call.freeing = none) :
    PipeInv ((k.setPipe q { k.pipe q with frees := (k.pipe q).frees + 1 }).setProc j p) := by
  set k₁ := k.setPipe q { k.pipe q with frees := (k.pipe q).frees + 1 }
  have hproc : k₁.proc = k.proc := rfl
  have hfile : k₁.file = k.file := rfl
  have h1 : 1 ≤ k.kfrees q := Kernel.kfrees_le_of_freeing hf₀
  have hq : q < k.pipes.length := by
    by_contra h
    have := (hp.beyond q (by omega)).2
    omega
  have hlen : (k₁.setProc j p).pipes.length = k.pipes.length := by simp [k₁]
  have hpipe (q' : Nat) : (k₁.setProc j p).pipe q' =
      if q' = q then { k.pipe q with frees := (k.pipe q).frees + 1 } else k.pipe q' :=
    Kernel.pipe_setPipe k _ hq q'
  have hends (q' : Nat) (w : Bool) : (k₁.setProc j p).ends q' w = k.ends q' w := by
    have h := Kernel.ends_setProc k₁ j p q' w
    rw [hproc, hr₀, hr, Kernel.ends_of hfile hproc] at h
    simpa using h
  have hkf (q' : Nat) :
      (k₁.setProc j p).kfrees q' + (if q = q' then 1 else 0) = k.kfrees q' := by
    have h := Kernel.kfrees_setProc k₁ j p q'
    rw [hproc, hf₀, hf, Kernel.kfrees_of_proc hproc] at h
    simpa using h
  refine ⟨?_, fun q' w hq' => ?_, fun q' hq' => ?_, fun q' hq' => ?_⟩
  · have := hp.ghost
    have e : (k₁.setProc j p).releasing = k.releasing := by
      have h := Kernel.releasing_setProc k₁ j p
      rw [hproc, hr₀, hr, Kernel.releasing_of_proc hproc] at h
      simpa using h
    rw [e]
    exact this
  · rw [hlen] at hq'
    rw [hends, hpipe, hp.ends q' w hq']
    by_cases hqq : q' = q
    · subst hqq
      simp [PipeObj.isOpen]
    · simp [hqq]
  · rw [hlen] at hq'
    have := hkf q'
    have hfr := hp.freed q' hq'
    rw [hpipe]
    by_cases hqq : q' = q
    · subst hqq
      simp only [if_true] at this ⊢
      omega
    · have : ¬(q = q') := fun e => hqq e.symm
      simp only [hqq, if_false] at this ⊢
      simp only [this, if_false] at *
      omega
  · rw [hlen] at hq'
    obtain ⟨hends0, hkf0⟩ := hp.beyond q' hq'
    refine ⟨fun w => by rw [hends, hends0], ?_⟩
    have := hkf q'
    omega

/-- One step of a `fileclose` by process `j`, which then goes on to the step `next`. -/
theorem PipeInv.closeStep (hp : PipeInv k) {c : Close} {k₁ : Kernel} {next : Option Close}
    (hcs : k.closeStep c = .ok (k₁, next)) (j : Fin NPROC) (p : Proc)
    (hr₀ : (k.proc j).call.releasing = c.releasing) (hf₀ : (k.proc j).call.freeing = c.freeing)
    (hr : p.call.releasing = next.bind Close.releasing)
    (hf : p.call.freeing = next.bind Close.freeing) : PipeInv (k₁.setProc j p) := by
  cases c with
  | drop f =>
    simp only [Close.releasing, Close.freeing] at hr₀ hf₀
    rcases (Kernel.closeStep_drop hcs).2 with ⟨-, rfl, rfl⟩ | ⟨-, hty, rfl, rfl⟩ |
      ⟨-, hty, rfl, rfl⟩
    · exact hp.calm j (by simp) (by simp) (by simp) (by simp) (fun i hi => by simp [hi])
        (by simpa using ⟨hr, hf⟩) ⟨hr₀, hf₀⟩
    · -- the file was no pipe end, and is none now
      have hnone : (k.file f).pipeOf = none := by simp [File.pipeOf, hty]
      refine hp.calm j (by simp) (by simp) (by simp) (fun g => ?_) (fun i hi => by simp [hi])
        (by simpa using ⟨hr, hf⟩) ⟨hr₀, hf₀⟩
      by_cases hg : g = f
      · subst hg
        simp [File.pipeOf, hty]
      · simp [hg]
    · exact hp.dropLast hty j p hr₀ hf₀ (by simpa [Close.releasing] using hr)
        (by simpa [Close.freeing] using hf)
  | release ff =>
    simp only [Close.releasing, Close.freeing] at hr₀ hf₀
    rcases Kernel.closeStep_release hcs with ⟨hty, rfl, rfl⟩ | ⟨hty, rfl, rfl⟩ | ⟨hty, rfl, rfl⟩
    · refine hp.releasePipe (by simp [File.pipeOf, hty]) j p hr₀ hf₀ ?_ ?_
      · rw [hr]
        split <;> rfl
      · rw [hf]
        split <;> rfl
    · exact hp.releaseInode hty j p hr₀ hf₀ (by simpa using hr) (by simpa using hf)
    · -- the copy of a file that was neither pipe nor inode: nothing to release
      refine hp.frame (by simp) (by simp) (by simp) (by simp) fun i => ?_
      by_cases hij : i = j
      · subst hij
        simp only [Kernel.setProc_proc, Function.update_self]
        refine ⟨?_, ?_, ?_⟩
        · rw [hr, hr₀]
          simp [File.pipeOf, hty]
        · rw [hr, hr₀]
          simp [hty]
        · rw [hf, hf₀]
          rfl
      · simp only [Kernel.setProc_proc, Function.update_of_ne hij]
        exact ⟨rfl, rfl, rfl⟩
  | kfree q =>
    obtain ⟨rfl, rfl⟩ := Kernel.closeStep_kfree hcs
    exact hp.kfree j p hr₀ hf₀ (by simpa using hr) (by simpa using hf)

end Close

/-- `pipealloc` makes a pipe with both ends open, each end one of the two files it got from
`filealloc`, which were no pipe's end before. -/
theorem PipeInv.pipealloc (hk : Inv k) (hp : PipeInv k) {i : Fin NPROC} {f0 f1 : Fin NFILE}
    (hc : (k.proc i).call = .kalloc f0 f1) :
    PipeInv ((k.pipealloc f0 f1).setCall i (.pipeFd0 f0 f1)) := by
  have hne : f0 ≠ f1 := by
    have := (hk.wf i).shape
    rwa [hc] at this
  have ht0 : (k.file f0).pipeOf = none := by
    simp [File.pipeOf, (hk.fresh i f0 (by simp [hc, Call.fresh])).2]
  have ht1 : (k.file f1).pipeOf = none := by
    simp [File.pipeOf, (hk.fresh i f1 (by simp [hc, Call.fresh])).2]
  have hfile : ((k.pipealloc f0 f1).setCall i (.pipeFd0 f0 f1)).file = (k.pipealloc f0 f1).file :=
    rfl
  have hproc : ((k.pipealloc f0 f1).setCall i (.pipeFd0 f0 f1)).proc =
      Function.update (k.pipealloc f0 f1).proc i { k.proc i with call := .pipeFd0 f0 f1 } := rfl
  have hlen : ((k.pipealloc f0 f1).setCall i (.pipeFd0 f0 f1)).pipes.length =
      k.pipes.length + 1 := by simp
  have hpipe (q' : Nat) : ((k.pipealloc f0 f1).setCall i (.pipeFd0 f0 f1)).pipe q' = k.pipe q' :=
    Kernel.pipe_append_fresh k q'
  -- the two new files are the two ends of the new pipe
  have hends (q' : Nat) (w : Bool) : ((k.pipealloc f0 f1).setCall i (.pipeFd0 f0 f1)).ends q' w =
      k.ends q' w + if q' = k.pipes.length then 1 else 0 := by
    have h₁ := Kernel.ends_update_proc hfile hproc q' w
    have h₂ := Kernel.ends_update_file (k := k.setFile f0 ((k.file f0).pipeEnd k.pipes.length false))
      (Kernel.pipealloc_file k f0 f1) rfl q' w
    have h₃ := k.ends_setFile f0 ((k.file f0).pipeEnd k.pipes.length false) q' w
    simp only [Kernel.pipealloc_proc, hc, Call.releasing, Option.bind_none] at h₁
    simp only [Kernel.setFile_file, Function.update_of_ne (Ne.symm hne), ht0, ht1] at h₂ h₃
    simp only [File.pipeOf, File.pipeEnd, if_true] at h₂ h₃
    by_cases hq : q' = k.pipes.length
    · subst hq
      cases w <;> simp at h₁ h₂ h₃ ⊢ <;> omega
    · have hq' : ¬(k.pipes.length = q') := fun e => hq e.symm
      simp [hq', -Kernel.setCall_eq] at h₁ h₂ h₃
      simp only [hq, if_false]
      omega
  have hkf (q' : Nat) : ((k.pipealloc f0 f1).setCall i (.pipeFd0 f0 f1)).kfrees q' = k.kfrees q' := by
    have h := Kernel.kfrees_update_proc hproc q'
    rw [Kernel.kfrees_of_proc (Kernel.pipealloc_proc k f0 f1)] at h
    simpa [hc, Call.freeing] using h
  have hrel : ((k.pipealloc f0 f1).setCall i (.pipeFd0 f0 f1)).releasing = k.releasing := by
    have h := Kernel.releasing_update_proc hproc
    rw [Kernel.releasing_of_proc (Kernel.pipealloc_proc k f0 f1)] at h
    simpa [hc, Call.releasing] using h
  set q := k.pipes.length
  obtain ⟨hends0, hkf0⟩ := hp.beyond q le_rfl
  refine ⟨?_, fun q' w hq' => ?_, fun q' hq' => ?_, fun q' hq' => ?_⟩
  · rw [hrel]
    exact hp.ghost
  · rw [hends, hpipe]
    by_cases hqq : q' = q
    · subst hqq
      rw [hends0, Kernel.pipe_of_le k le_rfl]
      cases w <;> simp [PipeObj.isOpen, PipeObj.fresh]
    · rw [hlen] at hq'
      simp only [hqq, if_false, Nat.add_zero]
      exact hp.ends q' w (by omega)
  · rw [hkf, hpipe]
    by_cases hqq : q' = q
    · subst hqq
      rw [hkf0, Kernel.pipe_of_le k le_rfl]
      rfl
    · rw [hlen] at hq'
      exact hp.freed q' (by omega)
  · rw [hlen] at hq'
    obtain ⟨h₁, h₂⟩ := hp.beyond q' (by omega)
    have hqq : q' ≠ q := by omega
    exact ⟨fun w => by rw [hends, h₁ w]; simp [hqq], by rw [hkf, h₂]⟩

/-! ### Steps that release nothing -/

section Quiet

variable {k k' : Kernel} {i : Fin NPROC} {b : Bool}

@[simp] theorem Proc.call_update_ofile (t : Fin NPROC → Proc) (i j : Fin NPROC)
    (o : Fin NOFILE → Option (Fin NFILE)) :
    (Function.update t i { t i with ofile := o } j).call = (t j).call := by
  by_cases h : j = i
  · subst h
    simp
  · rw [Function.update_of_ne h]

@[simp] theorem Proc.call_update_state (t : Fin NPROC → Proc) (i j : Fin NPROC) (s : ProcState) :
    (Function.update t i { t i with state := s } j).call = (t j).call := by
  by_cases h : j = i
  · subst h
    simp
  · rw [Function.update_of_ne h]

@[simp] theorem File.pipeOf_opened (fl : File) (ip omode : Nat) : (fl.opened ip omode).pipeOf = none :=
  rfl

theorem Kernel.filedup_ok {f : Fin NFILE} {k₁ : Kernel} (h : k.filedup f = .ok k₁) :
    k₁ = k.setFile f { k.file f with ref := (k.file f).ref + 1 } := by
  unfold Kernel.filedup at h
  split at h
  · cases h
  · exact (Except.ok.inj h).symm

/-- Process `i` moves between calls with nothing to release or free, after a change to slots,
reference counts and process states only. -/
theorem PipeInv.quiet (hp : PipeInv k) {k₁ : Kernel} (i : Fin NPROC) {c : Call}
    (hpipes : k₁.pipes = k.pipes) (hend : k₁.ended = k.ended) (hrel : k₁.released = k.released)
    (hfile : ∀ f, (k₁.file f).pipeOf = (k.file f).pipeOf)
    (hcalls : ∀ j, (k₁.proc j).call = (k.proc j).call)
    (hq₀ : (k.proc i).call.releasing = none ∧ (k.proc i).call.freeing = none)
    (hq : c.releasing = none ∧ c.freeing = none) : PipeInv (k₁.setCall i c) :=
  hp.calm i (by simpa using hpipes) (by simpa using hend) (by simpa using hrel)
    (by simpa using hfile) (fun j hj => by simp [Function.update_of_ne hj, hcalls])
    (by simpa using hq) hq₀

theorem PipeInv.sysOpen (hp : PipeInv k) (hidle : (k.proc i).call = .idle) (ip omode : Nat) :
    PipeInv (k.sysOpen i ip omode) := by
  unfold Kernel.sysOpen Kernel.filealloc
  rcases k.free with _ | f
  · exact hp
  exact hp.quiet i rfl rfl rfl (by simp) (fun _ => rfl) (by rw [hidle]; exact ⟨rfl, rfl⟩)
    ⟨rfl, rfl⟩

theorem PipeInv.sysPipe (hp : PipeInv k) (hidle : (k.proc i).call = .idle) :
    PipeInv (k.sysPipe i) := by
  unfold Kernel.sysPipe Kernel.filealloc
  rcases k.free with _ | f
  · exact hp
  exact hp.quiet i rfl rfl rfl (by simp) (fun _ => rfl) (by rw [hidle]; exact ⟨rfl, rfl⟩)
    ⟨rfl, rfl⟩

theorem PipeInv.sysDup (hp : PipeInv k) (hidle : (k.proc i).call = .idle) (fd : Fin NOFILE) :
    PipeInv (k.sysDup i fd) := by
  unfold Kernel.sysDup
  split
  · exact hp.quiet i rfl rfl rfl (fun _ => rfl) (by simp) (by rw [hidle]; exact ⟨rfl, rfl⟩)
      ⟨rfl, rfl⟩
  · exact hp

theorem PipeInv.sysClose (hp : PipeInv k) (hidle : (k.proc i).call = .idle) (fd : Fin NOFILE) :
    PipeInv (k.sysClose i fd) := by
  unfold Kernel.sysClose
  split
  · exact hp.quiet i rfl rfl rfl (fun _ => rfl) (by simp) (by rw [hidle]; exact ⟨rfl, rfl⟩)
      ⟨rfl, rfl⟩
  · exact hp

theorem PipeInv.sysFork (hp : PipeInv k) (hidle : (k.proc i).call = .idle) :
    PipeInv (k.sysFork i) := by
  unfold Kernel.sysFork
  split
  · exact hp.quiet i rfl rfl rfl (fun _ => rfl) (by simp) (by rw [hidle]; exact ⟨rfl, rfl⟩)
      ⟨rfl, rfl⟩
  · exact hp

theorem PipeInv.sysExit (hp : PipeInv k) (hidle : (k.proc i).call = .idle)
    (h : k.sysExit i = .ok k') : PipeInv k' := by
  unfold Kernel.sysExit at h
  split at h
  · cases h
  cases h
  exact hp.quiet i rfl rfl rfl (fun _ => rfl) (fun _ => rfl) (by rw [hidle]; exact ⟨rfl, rfl⟩)
    ⟨rfl, rfl⟩

theorem PipeInv.reap (hp : PipeInv k) (i : Fin NPROC) :
    PipeInv (k.setProc i { k.proc i with state := .unused }) :=
  hp.frame rfl rfl rfl (fun _ => rfl) fun j => by
    rw [show ((k.setProc i { k.proc i with state := .unused }).proc j).call = (k.proc j).call by
      simp]
    exact ⟨rfl, rfl, rfl⟩

end Quiet

/-! ### The steps of a call in progress -/

section Advance

variable {k k' : Kernel} {i : Fin NPROC} {b : Bool}

theorem PipeInv.openFd (hk : Inv k) (hp : PipeInv k) {f : Fin NFILE} {ip omode : Nat}
    (hc : (k.proc i).call = .openFd f ip omode) (h : k.advance i b = .ok k') : PipeInv k' := by
  have hq₀ : (k.proc i).call.releasing = none ∧ (k.proc i).call.freeing = none := by
    rw [hc]
    exact ⟨rfl, rfl⟩
  simp only [Kernel.advance, hc] at h
  split at h
  · cases h
    -- the file `filealloc` gave was no pipe's end, and is now an inode's
    have hty := (hk.fresh i f (by simp [hc, Call.fresh])).2
    refine hp.quiet i rfl rfl rfl (fun g => ?_) (by simp) hq₀ ⟨rfl, rfl⟩
    by_cases hg : g = f
    · subst hg
      simp [File.pipeOf, File.opened, hty]
    · simp [hg]
  · cases h
    exact hp.quiet i rfl rfl rfl (fun _ => rfl) (fun _ => rfl) hq₀ ⟨rfl, rfl⟩

theorem PipeInv.dupDone (hp : PipeInv k) {f : Fin NFILE} {src dst : Fin NOFILE}
    (hc : (k.proc i).call = .dup f src dst) (h : k.advance i b = .ok k') : PipeInv k' := by
  simp only [Kernel.advance, hc] at h
  obtain ⟨k₁, hdup, rfl⟩ := Kernel.ok_of_map_eq_ok h
  obtain rfl := Kernel.filedup_ok hdup
  exact hp.quiet i rfl rfl rfl (by simp) (fun _ => rfl) (by rw [hc]; exact ⟨rfl, rfl⟩) ⟨rfl, rfl⟩

theorem PipeInv.allocF1 (hp : PipeInv k) {f0 : Fin NFILE} (hc : (k.proc i).call = .allocF1 f0)
    (h : k.advance i b = .ok k') : PipeInv k' := by
  have hq₀ : (k.proc i).call.releasing = none ∧ (k.proc i).call.freeing = none := by
    rw [hc]
    exact ⟨rfl, rfl⟩
  simp only [Kernel.advance, hc, Kernel.filealloc] at h
  rcases hfree : k.free with _ | f1 <;> rw [hfree] at h <;> simp only [Option.map] at h <;> cases h
  · exact hp.quiet i rfl rfl rfl (fun _ => rfl) (fun _ => rfl) hq₀ ⟨rfl, rfl⟩
  · exact hp.quiet i rfl rfl rfl (by simp) (fun _ => rfl) hq₀ ⟨rfl, rfl⟩

theorem PipeInv.kalloc (hk : Inv k) (hp : PipeInv k) {f0 f1 : Fin NFILE}
    (hc : (k.proc i).call = .kalloc f0 f1) (h : k.advance i b = .ok k') : PipeInv k' := by
  simp only [Kernel.advance, hc] at h
  split at h
  · cases h
    exact hp.pipealloc hk hc
  · cases h
    exact hp.quiet i rfl rfl rfl (fun _ => rfl) (fun _ => rfl) (by rw [hc]; exact ⟨rfl, rfl⟩)
      ⟨rfl, rfl⟩

theorem PipeInv.pipeFd0 (hp : PipeInv k) {rf wf : Fin NFILE}
    (hc : (k.proc i).call = .pipeFd0 rf wf) (h : k.advance i b = .ok k') : PipeInv k' := by
  have hq₀ : (k.proc i).call.releasing = none ∧ (k.proc i).call.freeing = none := by
    rw [hc]
    exact ⟨rfl, rfl⟩
  simp only [Kernel.advance, hc] at h
  split at h <;> cases h
  · exact hp.quiet i rfl rfl rfl (fun _ => rfl) (by simp) hq₀ ⟨rfl, rfl⟩
  · exact hp.quiet i rfl rfl rfl (fun _ => rfl) (fun _ => rfl) hq₀ ⟨rfl, rfl⟩

theorem PipeInv.pipeFd1 (hp : PipeInv k) {rf wf : Fin NFILE} {fd0 : Fin NOFILE}
    (hc : (k.proc i).call = .pipeFd1 rf wf fd0) (h : k.advance i b = .ok k') : PipeInv k' := by
  have hq₀ : (k.proc i).call.releasing = none ∧ (k.proc i).call.freeing = none := by
    rw [hc]
    exact ⟨rfl, rfl⟩
  simp only [Kernel.advance, hc] at h
  split at h <;> cases h <;> exact hp.quiet i rfl rfl rfl (fun _ => rfl) (by simp) hq₀ ⟨rfl, rfl⟩

/-- A step of a `fileclose` made by `close` or `pipe`'s clean-up. -/
theorem PipeInv.closing (hp : PipeInv k) {c : Close} {rest : List (Fin NFILE)}
    (hc : (k.proc i).call = .closing c rest) (h : k.advance i b = .ok k') : PipeInv k' := by
  simp only [Kernel.advance, hc] at h
  obtain ⟨⟨k₁, next⟩, hcs, rfl⟩ := Kernel.ok_of_map_eq_ok h
  rw [Kernel.setCall_eq, Kernel.closeStep_proc hcs]
  exact hp.closeStep hcs i _ (by simp [hc]) (by simp [hc]) (by simp) (by simp)

/-- A step of the `fileclose` that `exit` makes of slot `fd`. -/
theorem PipeInv.exitClose (hp : PipeInv k) {fd : Fin NOFILE} {c : Close}
    (hc : (k.proc i).call = .exitClose fd c) (h : k.advance i b = .ok k') : PipeInv k' := by
  simp only [Kernel.advance, hc] at h
  obtain ⟨⟨k₁, next⟩, hcs, rfl⟩ := Kernel.ok_of_map_eq_ok h
  rw [Kernel.setCall_eq, Kernel.closeStep_proc hcs]
  exact hp.closeStep hcs i _ (by simp [hc]) (by simp [hc]) (by simp) (by simp)

theorem PipeInv.forkLoop (hp : PipeInv k) {c : Fin NPROC} {n : Nat}
    (hc : (k.proc i).call = .forking c n) (h : k.advance i b = .ok k') : PipeInv k' := by
  have hq₀ : (k.proc i).call.releasing = none ∧ (k.proc i).call.freeing = none := by
    rw [hc]
    exact ⟨rfl, rfl⟩
  simp only [Kernel.advance, hc] at h
  split at h
  · split at h
    · -- `filedup` of the parent's file, into the new process's slot
      obtain ⟨k₁, hdup, rfl⟩ := Kernel.ok_of_map_eq_ok h
      obtain rfl := Kernel.filedup_ok hdup
      exact hp.quiet i rfl rfl rfl (by simp) (by simp) hq₀ ⟨rfl, rfl⟩
    · cases h
      exact hp.quiet i rfl rfl rfl (fun _ => rfl) (fun _ => rfl) hq₀ ⟨rfl, rfl⟩
  · cases h
    exact hp.quiet i rfl rfl rfl (fun _ => rfl) (by simp) hq₀ ⟨rfl, rfl⟩

theorem PipeInv.exitScan (hp : PipeInv k) {n : Nat} (hc : (k.proc i).call = .exitScan n)
    (h : k.advance i b = .ok k') : PipeInv k' := by
  have hq₀ : (k.proc i).call.releasing = none ∧ (k.proc i).call.freeing = none := by
    rw [hc]
    exact ⟨rfl, rfl⟩
  simp only [Kernel.advance, hc] at h
  split at h
  · split at h <;> cases h <;>
      exact hp.quiet i rfl rfl rfl (fun _ => rfl) (fun _ => rfl) hq₀ ⟨rfl, rfl⟩
  · cases h
    exact hp.calm i rfl rfl rfl (fun _ => rfl) (fun j hj => by simp [Function.update_of_ne hj])
      (by simp [Call.releasing, Call.freeing]) hq₀

theorem PipeInv.exitClear (hp : PipeInv k) {fd : Fin NOFILE} (hc : (k.proc i).call = .exitClear fd)
    (h : k.advance i b = .ok k') : PipeInv k' := by
  simp only [Kernel.advance, hc] at h
  cases h
  exact hp.quiet i rfl rfl rfl (fun _ => rfl) (by simp) (by rw [hc]; exact ⟨rfl, rfl⟩) ⟨rfl, rfl⟩

end Advance

/-- Every step keeps the pipe-lifetime invariant. -/
theorem PipeInv.step {k k' : Kernel} (hk : Inv k) (hp : PipeInv k) (hs : Step k k') :
    PipeInv k' := by
  cases hs with
  | sysOpen i ip omode _ hidle => exact hp.sysOpen hidle ip omode
  | sysDup i fd _ hidle => exact hp.sysDup hidle fd
  | sysClose i fd _ hidle => exact hp.sysClose hidle fd
  | sysPipe i _ hidle => exact hp.sysPipe hidle
  | sysFork i _ hidle => exact hp.sysFork hidle
  | sysExit i _ hidle h => exact hp.sysExit hidle h
  | reap i _ => exact hp.reap i
  | advance i b h =>
    rcases hc : (k.proc i).call with _ | ⟨f, ip, omode⟩ | ⟨f, src, dst⟩ | f0 | ⟨f0, f1⟩ |
        ⟨rf, wf⟩ | ⟨rf, wf, fd0⟩ | ⟨c, rest⟩ | ⟨c, n⟩ | n | ⟨fd, c⟩ | fd
    · simp only [Kernel.advance, hc] at h
      cases h
      exact hp
    · exact hp.openFd hk hc h
    · exact hp.dupDone hc h
    · exact hp.allocF1 hc h
    · exact hp.kalloc hk hc h
    · exact hp.pipeFd0 hc h
    · exact hp.pipeFd1 hc h
    · exact hp.closing hc h
    · exact hp.forkLoop hc h
    · exact hp.exitScan hc h
    · exact hp.exitClose hc h
    · exact hp.exitClear hc h

theorem pipeInv_of_reach {k : Kernel} (hreach : Relation.ReflTransGen Step Kernel.init k) :
    PipeInv k := by
  induction hreach with
  | refl => exact pipeInv_init
  | tail hr hs ih => exact ih.step (inv_of_reach hr) hs

/-! ### What holds over every run -/

namespace Kernel

/-- The slots, over all processes, that point to `f`. -/
def slots (k : Kernel) (f : Fin NFILE) : Nat :=
  ∑ i, ∑ fd, if (k.proc i).ofile fd = some f then 1 else 0

/-- The references to `f` that calls in progress hold other than through a slot. -/
def held (k : Kernel) (f : Fin NFILE) : Nat := ∑ i, (k.proc i).call.held.count f

/-- Where no call leaves a slot unbacked, the references to a file are the slots pointing to
it and the references calls hold. -/
theorem refs_eq_slots_add_held {k : Kernel} (h : ∀ i, (k.proc i).call.unbacked = none)
    (f : Fin NFILE) : k.refs f = k.slots f + k.held f := by
  unfold refs slots held Proc.refs
  rw [← Finset.sum_add_distrib]
  refine Finset.sum_congr rfl fun i _ => ?_
  rw [Proc.own_of_unbacked_none (h i)]

theorem two_le_slots (k : Kernel) (i : Fin NPROC) {fd₁ fd₂ : Fin NOFILE} {f : Fin NFILE}
    (h₁ : (k.proc i).ofile fd₁ = some f) (h₂ : (k.proc i).ofile fd₂ = some f) (hne : fd₁ ≠ fd₂) :
    2 ≤ k.slots f := by
  have hi := Tally.add_le_sum (fun fd => if (k.proc i).ofile fd = some f then 1 else 0) hne
  have hall := Finset.single_le_sum
    (f := fun i => ∑ fd, if (k.proc i).ofile fd = some f then 1 else 0)
    (fun _ _ => Nat.zero_le _) (Finset.mem_univ i)
  simp only [h₁, h₂, if_true] at hi
  unfold slots
  omega

end Kernel

/-- Process 0 back from `sys_open` of inode 2, with file 0 in its slot 0. -/
def openedOne : Kernel :=
  let k₁ := Kernel.init.sysOpen ⟨0, by decide⟩ 2 O_RDWR
  ((k₁.setSlot ⟨0, by decide⟩ ⟨0, by decide⟩ (some ⟨0, by decide⟩)).setFile ⟨0, by decide⟩
    ((k₁.file ⟨0, by decide⟩).opened 2 O_RDWR)).setCall ⟨0, by decide⟩ .idle

/-- Process 0 in `sys_dup(0)`, with the file put in slot 1 by `fdalloc` and its `filedup`
still to come. -/
def dupWindow : Kernel := openedOne.sysDup ⟨0, by decide⟩ ⟨0, by decide⟩

theorem dupWindow_reach : Relation.ReflTransGen Step Kernel.init dupWindow := by
  have h₁ : Step Kernel.init (Kernel.init.sysOpen ⟨0, by decide⟩ 2 O_RDWR) :=
    .sysOpen _ _ 2 O_RDWR rfl rfl
  have h₂ : Step (Kernel.init.sysOpen ⟨0, by decide⟩ 2 O_RDWR) openedOne :=
    .advance _ ⟨0, by decide⟩ true rfl
  have h₃ : Step openedOne dupWindow := .sysDup _ _ _ rfl rfl
  exact ((Relation.ReflTransGen.single h₁).tail h₂).tail h₃

theorem ref_lt_slots_during_dup :
    Relation.ReflTransGen Step Kernel.init dupWindow ∧
      (dupWindow.file ⟨0, by decide⟩).ref < dupWindow.slots ⟨0, by decide⟩ := by
  refine ⟨dupWindow_reach, ?_⟩
  have h := Kernel.two_le_slots dupWindow ⟨0, by decide⟩
    (show (dupWindow.proc ⟨0, by decide⟩).ofile ⟨0, by decide⟩ = some ⟨0, by decide⟩ from rfl)
    (show (dupWindow.proc ⟨0, by decide⟩).ofile ⟨1, by decide⟩ = some ⟨0, by decide⟩ from rfl)
    (Fin.ne_of_val_ne Nat.zero_ne_one)
  have hr : (dupWindow.file ⟨0, by decide⟩).ref = 1 := rfl
  omega

/-- The page of every pipe, allocated or not, is freed at most once and exactly when both ends
are closed. -/
theorem PipeInv.freed_all {k : Kernel} (hp : PipeInv k) (q : Nat) :
    (k.pipe q).frees + k.kfrees q = if (k.pipe q).readopen || (k.pipe q).writeopen then 0 else 1 := by
  by_cases hq : q < k.pipes.length
  · exact hp.freed q hq
  · rw [(hp.beyond q (by omega)).2, Kernel.pipe_of_le k (by omega)]
    rfl

theorem PipeInv.closed_of_freed {k : Kernel} (hp : PipeInv k) {q : Nat}
    (h : 0 < (k.pipe q).frees + k.kfrees q) :
    (k.pipe q).readopen = false ∧ (k.pipe q).writeopen = false := by
  have hf := hp.freed_all q
  cases hr : (k.pipe q).readopen <;> cases hw : (k.pipe q).writeopen <;> simp [hr, hw] at hf ⊢ <;>
    omega

/-- Every end of a freed pipe is closed. -/
theorem PipeInv.ends_eq_zero_of_freed {k : Kernel} (hp : PipeInv k) {q : Nat}
    (h : 0 < (k.pipe q).frees + k.kfrees q) (w : Bool) : k.ends q w = 0 := by
  by_cases hq : q < k.pipes.length
  · obtain ⟨hr, hw⟩ := hp.closed_of_freed h
    rw [hp.ends q w hq]
    cases w <;> simp [PipeObj.isOpen, hr, hw]
  · exact (hp.beyond q (by omega)).1 w

/-- What the open-file table keeps true over every run. -/
structure FilesAccounted (k : Kernel) : Prop where
  /-- each file's `ref` is the references held to it, by the slots whose reference has been
  taken and by the calls in progress -/
  ref_eq_refs : ∀ f, (k.file f).ref = k.refs f
  /-- outside `sys_dup` between `fdalloc` and `filedup`, and `exit` between a slot's
  `fileclose` and clearing the slot, those are the slots pointing to the file and the
  references calls hold -/
  ref_eq_slots : (∀ i, (k.proc i).call.unbacked = none) → ∀ f, (k.file f).ref = k.slots f + k.held f
  none_of_zero : ∀ f, (k.file f).ref = 0 → (k.file f).type = .none
  /-- `pipeclose` or `iput` has been made, or is about to be, once for each pipe or inode file
  that lost its last reference -/
  released : k.ended = k.released + k.releasing
  freed_le_one : ∀ q, (k.pipe q).frees + k.kfrees q ≤ 1
  freed_iff : ∀ q, (k.pipe q).frees + k.kfrees q = 1 ↔
    (k.pipe q).readopen = false ∧ (k.pipe q).writeopen = false
  /-- once a pipe's page is freed, or about to be, no file is an end of it, nor is a copy
  waiting for `pipeclose` -/
  no_end_of_freed : ∀ q, 0 < (k.pipe q).frees + k.kfrees q →
    (∀ f, (k.file f).type = .pipe → (k.file f).pipe ≠ q) ∧
    ∀ i ff, (k.proc i).call.releasing = some ff → ff.type = .pipe → ff.pipe ≠ q

theorem filesAccounted_of_reach {k : Kernel} (hreach : Relation.ReflTransGen Step Kernel.init k) :
    FilesAccounted k := by
  have hk := inv_of_reach hreach
  have hp := pipeInv_of_reach hreach
  refine ⟨hk.acct, fun h f => (hk.acct f).trans (Kernel.refs_eq_slots_add_held h f),
    hk.none_of_zero, hp.ghost, fun q => ?_, fun q => ?_, fun q hq => ⟨fun f hty he => ?_,
    fun i ff hr hty he => ?_⟩⟩
  · rw [hp.freed_all q]
    split <;> omega
  · rw [hp.freed_all q]
    cases (k.pipe q).readopen <;> cases (k.pipe q).writeopen <;> simp
  · -- the file would be an open end of the pipe
    have hend : (k.file f).pipeOf = some (q, (k.file f).writable) := by
      simp [File.pipeOf, hty, he]
    have := Kernel.ends_le_of_file hend
    rw [hp.ends_eq_zero_of_freed hq] at this
    omega
  · have hend : (k.proc i).call.releasing.bind File.pipeOf = some (q, ff.writable) := by
      simp [hr, File.pipeOf, hty, he]
    have := Kernel.ends_le_of_releasing hend
    rw [hp.ends_eq_zero_of_freed hq] at this
    omega

theorem filesAccounted_dupWindow : FilesAccounted dupWindow :=
  filesAccounted_of_reach dupWindow_reach

end Xv6.Files
