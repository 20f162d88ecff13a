import Xv6.File.Account

/-!
# Reference counts of open files

Every reachable kernel keeps each file's `ref` equal to the references held to it (in slots
and by calls in progress, `Kernel.refs`), gives a file with no reference the type `FD_NONE`,
and keeps the shape each call relies on: the slots `sys_dup` and `exit` work on, the new
process `fork` fills, and the files a call has from `filealloc`, which nobody else can reach.
-/

namespace Xv6.Files

open Finset

/-- What a call keeps true of the slots of its process. -/
def Call.Shape : Call → (Fin NOFILE → Option (Fin NFILE)) → Prop
  | .dup f src dst, o => o src = some f ∧ o dst = some f ∧ src ≠ dst
  | .kalloc f0 f1, _ => f0 ≠ f1
  | .pipeFd1 rf _ fd0, o => o fd0 = some rf
  | .exitScan n, o => ∀ fd : Fin NOFILE, fd.val < n → o fd = none
  | .exitClose fd c, o =>
    (∀ fd' : Fin NOFILE, fd'.val < fd.val → o fd' = none) ∧ ∀ f, c = .drop f → o fd = some f
  | .exitClear fd, o => ∀ fd' : Fin NOFILE, fd'.val < fd.val → o fd' = none
  | _, _ => True

/-- A process not running has no call in progress; an unused or exited one has no open
file. -/
structure Proc.WF (p : Proc) : Prop where
  idle : p.state ≠ .runnable → p.call = .idle
  empty : p.state = .unused ∨ p.state = .zombie → ∀ fd, p.ofile fd = none
  shape : p.call.Shape p.ofile

theorem Proc.WF.runnable {p : Proc} (h : p.WF) (hc : p.call ≠ .idle) : p.state = .runnable := by
  by_contra hs
  exact hc (h.idle hs)

theorem Proc.WF.of_runnable {p : Proc} (hrun : p.state = .runnable) (hs : p.call.Shape p.ofile) :
    p.WF :=
  ⟨fun h => absurd hrun h, fun h => by rcases h with h | h <;> simp [hrun] at h, hs⟩

theorem Call.shape_closeNext (next : Option Close) (rest : List (Fin NFILE))
    (o : Fin NOFILE → Option (Fin NFILE)) : (Call.closeNext next rest).Shape o := by
  rcases next with _ | c
  · cases rest <;> trivial
  · trivial

theorem Call.shape_exitNext {next : Option Close} (h : ∀ f, next ≠ some (.drop f))
    {fd : Fin NOFILE} {o : Fin NOFILE → Option (Fin NFILE)}
    (hlow : ∀ fd' : Fin NOFILE, fd'.val < fd.val → o fd' = none) :
    (Call.exitNext fd next).Shape o := by
  rcases next with _ | c
  · exact hlow
  · refine ⟨hlow, fun f hc => ?_⟩
    subst hc
    exact absurd rfl (h f)

theorem Call.closeNext_ne_forking (next : Option Close) (rest : List (Fin NFILE)) (c : Fin NPROC)
    (n : Nat) : Call.closeNext next rest ≠ .forking c n := by
  rcases next with _ | c
  · cases rest <;> nofun
  · nofun

theorem Call.exitNext_ne_forking (fd : Fin NOFILE) (next : Option Close) (c : Fin NPROC)
    (n : Nat) : Call.exitNext fd next ≠ .forking c n := by
  rcases next with _ | c <;> nofun

theorem Call.mem_held_of_mem_fresh {c : Call} {f : Fin NFILE} (h : f ∈ c.fresh) : f ∈ c.held := by
  cases c <;> simp_all [Call.fresh, Call.held]

/-- The references are counted: each file's `ref` is the number of references held to it, a
file with none is `FD_NONE`, and a file a call has from `filealloc` is reachable by nobody
else; and every process is well formed. -/
structure Counts (k : Kernel) : Prop where
  acct : ∀ f, (k.file f).ref = k.refs f
  none_of_zero : ∀ f, (k.file f).ref = 0 → (k.file f).type = .none
  wf : ∀ i, (k.proc i).WF
  fresh : ∀ i, ∀ f ∈ (k.proc i).call.fresh, (k.file f).ref = 1 ∧ (k.file f).type = .none

/-- The reference-count invariant: the counts, and `fork` filling the slots of a new process
that nothing else runs in or fills. -/
structure Inv (k : Kernel) : Prop extends Counts k where
  forking : ∀ i c n, (k.proc i).call = .forking c n →
    (k.proc c).state = .embryo ∧ ∀ fd : Fin NOFILE, n ≤ fd.val → (k.proc c).ofile fd = none
  forking_unique : ∀ i j c n m, (k.proc i).call = .forking c n →
    (k.proc j).call = .forking c m → i = j

theorem inv_init : Inv Kernel.init where
  acct f := by
    simp [Kernel.init, File.zero, Kernel.refs, Proc.refs, Proc.own, Call.unbacked, Call.held]
  none_of_zero _ _ := rfl
  wf i := ⟨fun _ => rfl, fun _ _ => rfl, trivial⟩
  fresh _ f hf := by simp [Kernel.init, Call.fresh] at hf
  forking _ _ _ h := by simp [Kernel.init] at h
  forking_unique _ _ _ _ _ h := by simp [Kernel.init] at h

theorem eq_of_update_ne {α β : Type} [DecidableEq α] {t : α → β} {a b : α} {v : β}
    (h : Function.update t a v b ≠ t b) : b = a := by
  by_contra hb
  exact h (Function.update_of_ne hb v t)

section Update

variable {k k' : Kernel}

theorem refs_of_proc_eq {j : Fin NPROC} {p' : Proc} (hproc : k'.proc = Function.update k.proc j p') (f : Fin NFILE) :
    k'.refs f + (k.proc j).refs f = k.refs f + p'.refs f := by
  have h := k.refs_setProc j p' f
  rwa [Kernel.refs, Kernel.refs, hproc] at *

/-- Two different processes cannot both hold a reference to a file with only one. -/
theorem Counts.eq_of_ref_eq_one (hk : Counts k) {i i' : Fin NPROC} {f : Fin NFILE}
    (h1 : (k.file f).ref = 1) (hi : 1 ≤ (k.proc i).refs f) (hi' : 1 ≤ (k.proc i').refs f) :
    i = i' := by
  by_contra hne
  have := k.refs_add_le hne f
  have := hk.acct f
  omega

/-- A file a process holds is fresh for no other process. -/
theorem Counts.not_mem_fresh_of_holds (hk : Counts k) {i j : Fin NPROC} {f : Fin NFILE}
    (hj : 1 ≤ (k.proc j).refs f) (hij : i ≠ j) : f ∉ (k.proc i).call.fresh := fun hf =>
  hij (hk.eq_of_ref_eq_one (hk.fresh i f hf).1
    (Proc.one_le_refs_of_held (Call.mem_held_of_mem_fresh hf)) hj)

theorem Counts.not_mem_fresh_of_ref_zero (hk : Counts k) {i : Fin NPROC} {f : Fin NFILE}
    (h0 : (k.file f).ref = 0) : f ∉ (k.proc i).call.fresh := fun hf => by
  have := (hk.fresh i f hf).1
  omega

/-- A step of process `j` that changes only `j` and files nobody else has fresh keeps the
counts, once the new state of `j` is shown well formed and its references are counted. -/
theorem Counts.update (hk : Counts k) (j : Fin NPROC) (p' : Proc)
    (hproc : k'.proc = Function.update k.proc j p') (hwf : p'.WF)
    (hacct : ∀ f, (k'.file f).ref + (k.proc j).refs f = (k.file f).ref + p'.refs f)
    (hzero : ∀ f, k'.file f ≠ k.file f → (k'.file f).ref = 0 → (k'.file f).type = .none)
    (htouch : ∀ f, k'.file f ≠ k.file f → ∀ i, i ≠ j → f ∉ (k.proc i).call.fresh)
    (hfresh : ∀ f ∈ p'.call.fresh, (k'.file f).ref = 1 ∧ (k'.file f).type = .none) :
    Counts k' where
  acct f := by
    have := refs_of_proc_eq hproc f
    have := hacct f
    have := hk.acct f
    omega
  none_of_zero f h0 := by
    by_cases hf : k'.file f = k.file f
    · rw [hf] at h0 ⊢
      exact hk.none_of_zero f h0
    · exact hzero f hf h0
  wf i := by
    rw [hproc]
    by_cases hi : i = j
    · subst hi
      rwa [Function.update_self]
    · rw [Function.update_of_ne hi]
      exact hk.wf i
  fresh i f hf := by
    rw [hproc] at hf
    by_cases hi : i = j
    · subst hi
      rw [Function.update_self] at hf
      exact hfresh f hf
    · rw [Function.update_of_ne hi] at hf
      have hsame : k'.file f = k.file f := by
        by_contra hne
        exact htouch f hne i hi hf
      rw [hsame]
      exact hk.fresh i f hf

/-- The same for the whole invariant, when `j` neither is nor becomes part of a `fork`. -/
theorem Inv.update (hk : Inv k) (j : Fin NPROC) (p' : Proc)
    (hproc : k'.proc = Function.update k.proc j p') (hj : (k.proc j).state ≠ .embryo)
    (hfork : ∀ c n, p'.call ≠ .forking c n) (hwf : p'.WF)
    (hacct : ∀ f, (k'.file f).ref + (k.proc j).refs f = (k.file f).ref + p'.refs f)
    (hzero : ∀ f, k'.file f ≠ k.file f → (k'.file f).ref = 0 → (k'.file f).type = .none)
    (htouch : ∀ f, k'.file f ≠ k.file f → ∀ i, i ≠ j → f ∉ (k.proc i).call.fresh)
    (hfresh : ∀ f ∈ p'.call.fresh, (k'.file f).ref = 1 ∧ (k'.file f).type = .none) :
    Inv k' where
  toCounts := hk.toCounts.update j p' hproc hwf hacct hzero htouch hfresh
  forking i c n h := by
    rw [hproc] at h ⊢
    have hi : i ≠ j := by
      rintro rfl
      rw [Function.update_self] at h
      exact hfork c n h
    rw [Function.update_of_ne hi] at h
    obtain ⟨hemb, hslots⟩ := hk.forking i c n h
    have hc : c ≠ j := by
      rintro rfl
      exact hj hemb
    rw [Function.update_of_ne hc]
    exact ⟨hemb, hslots⟩
  forking_unique i i' c n m h h' := by
    rw [hproc] at h h'
    have hne : ∀ i₀ n₀, (Function.update k.proc j p' i₀).call = .forking c n₀ → i₀ ≠ j := by
      rintro i₀ n₀ hc rfl
      rw [Function.update_self] at hc
      exact hfork c n₀ hc
    have hi := hne i n h
    have hi' := hne i' m h'
    rw [Function.update_of_ne hi] at h
    rw [Function.update_of_ne hi'] at h'
    exact hk.forking_unique i i' c n m h h'

/-- Only the file table and the process table matter to the invariant. -/
theorem Inv.congr (hk : Inv k) (hf : k'.file = k.file) (hp : k'.proc = k.proc) : Inv k' where
  acct f := by
    rw [hf]
    unfold Kernel.refs
    rw [hp]
    exact hk.acct f
  none_of_zero := by
    rw [hf]
    exact hk.none_of_zero
  wf := by
    rw [hp]
    exact hk.wf
  fresh := by
    rw [hf, hp]
    exact hk.fresh
  forking := by
    rw [hp]
    exact hk.forking
  forking_unique := by
    rw [hp]
    exact hk.forking_unique

/-- A change to one process that leaves every file, and its references, as they were. -/
theorem Counts.frame (hk : Counts k) (j : Fin NPROC) (p : Proc) (hfile : k'.file = k.file)
    (hproc : k'.proc = Function.update k.proc j p) (hwf : p.WF)
    (hrefs : ∀ f, p.refs f = (k.proc j).refs f)
    (hfresh : ∀ f ∈ p.call.fresh, f ∈ (k.proc j).call.fresh) : Counts k' :=
  hk.update j p hproc hwf (fun f => by rw [hfile, hrefs])
    (fun f h => absurd (congrFun hfile f) h) (fun f h => absurd (congrFun hfile f) h)
    (fun f hf => by rw [hfile]; exact hk.fresh j f (hfresh f hf))

/-- A step that changes one process and no file, leaving its references as they were. -/
theorem Inv.frame (hk : Inv k) (j : Fin NPROC) (p : Proc) (hfile : k'.file = k.file)
    (hproc : k'.proc = Function.update k.proc j p) (hj : (k.proc j).state ≠ .embryo)
    (hfork : ∀ c n, p.call ≠ .forking c n) (hwf : p.WF) (hrefs : ∀ f, p.refs f = (k.proc j).refs f)
    (hfresh : ∀ f ∈ p.call.fresh, f ∈ (k.proc j).call.fresh) : Inv k' :=
  hk.update j p hproc hj hfork hwf (fun f => by rw [hfile, hrefs])
    (fun f h => absurd (congrFun hfile f) h) (fun f h => absurd (congrFun hfile f) h)
    (fun f hf => by rw [hfile]; exact hk.fresh j f (hfresh f hf))

/-- `filealloc` by process `j`, which then holds the file. -/
theorem Inv.alloc (hk : Inv k) {f : Fin NFILE} (hfree : k.free = some f) (j : Fin NPROC)
    (p : Proc) (hj : (k.proc j).state ≠ .embryo) (hfork : ∀ c n, p.call ≠ .forking c n)
    (hwf : p.WF) (hrefs : ∀ g, p.refs g = (k.proc j).refs g + [f].count g)
    (hfresh : ∀ g ∈ p.call.fresh, g = f ∨ g ∈ (k.proc j).call.fresh) :
    Inv ((k.setFile f { k.file f with ref := 1 }).setProc j p) := by
  have h0 := Kernel.free_ref hfree
  refine hk.update j p (by simp) hj hfork hwf (fun g => ?_) (fun g hg => ?_) (fun g hg => ?_)
    (fun g hg => ?_)
  · rw [hrefs g]
    by_cases hgf : g = f
    · subst hgf
      simp [h0]
      omega
    · simp [hgf, Ne.symm hgf]
  · have hgf := eq_of_update_ne (by simpa using hg)
    subst hgf
    simp
  · have hgf := eq_of_update_ne (by simpa using hg)
    subst hgf
    exact fun i _ => hk.not_mem_fresh_of_ref_zero h0
  · rcases hfresh g hg with rfl | hg'
    · simp [hk.none_of_zero g h0]
    · have hgf : g ≠ f := by
        rintro rfl
        have := (hk.fresh j g hg').1
        omega
      simpa [hgf] using hk.fresh j g hg'

/-- `filedup` by process `j`, which holds a reference to the file and takes another. -/
theorem Inv.dup (hk : Inv k) {f : Fin NFILE} (j : Fin NPROC) (p : Proc)
    (hjf : 1 ≤ (k.proc j).refs f) (hj : (k.proc j).state ≠ .embryo)
    (hfork : ∀ c n, p.call ≠ .forking c n) (hwf : p.WF)
    (hrefs : ∀ g, p.refs g = (k.proc j).refs g + [f].count g) (hfresh : p.call.fresh = []) :
    Inv ((k.setFile f { k.file f with ref := (k.file f).ref + 1 }).setProc j p) := by
  refine hk.update j p (by simp) hj hfork hwf (fun g => ?_) (fun g hg => ?_) (fun g hg => ?_)
    (by simp [hfresh])
  · rw [hrefs g]
    by_cases hgf : g = f
    · subst hgf
      simp
      omega
    · simp [hgf, Ne.symm hgf]
  · have hgf := eq_of_update_ne (by simpa using hg)
    subst hgf
    simp
  · have hgf := eq_of_update_ne (by simpa using hg)
    subst hgf
    exact fun i hi => hk.not_mem_fresh_of_holds hjf hi

/-- The part of `fileclose` under `ftable.lock`, run by process `j`, which gives up the
reference it held. -/
theorem Inv.drop (hk : Inv k) {f : Fin NFILE} {k₁ : Kernel} {next : Option Close}
    (hc : k.closeStep (.drop f) = .ok (k₁, next)) (j : Fin NPROC) (p : Proc)
    (hj : (k.proc j).state ≠ .embryo) (hfork : ∀ c n, p.call ≠ .forking c n) (hwf : p.WF)
    (hrefs : ∀ g, p.refs g + [f].count g = (k.proc j).refs g) (hfresh : p.call.fresh = []) :
    Inv (k₁.setProc j p) := by
  have hdrop : ∃ fl, k₁.proc = k.proc ∧ k₁.file = Function.update k.file f fl ∧
      fl.ref + 1 = (k.file f).ref ∧ (fl.ref = 0 → fl.type = .none) := by
    rcases (Kernel.closeStep_drop hc).2 with ⟨h2, rfl, -⟩ | ⟨h2, -, rfl, -⟩ | ⟨h2, -, rfl, -⟩
    · exact ⟨_, rfl, rfl, by simp; omega, by simp; omega⟩
    · exact ⟨_, rfl, rfl, by simp [h2], fun _ => rfl⟩
    · exact ⟨_, rfl, rfl, by simp [h2], fun _ => rfl⟩
  obtain ⟨fl, hproc₁, hfile₁, hr, hz⟩ := hdrop
  have hjf := hrefs f
  simp only [List.count_singleton_self] at hjf
  refine hk.update j p (by simp [hproc₁]) hj hfork hwf (fun g => ?_) (fun g hg => ?_)
    (fun g hg => ?_) (by simp [hfresh])
  · have := hrefs g
    by_cases hgf : g = f
    · subst hgf
      simp [hfile₁]
      omega
    · simp [hfile₁, hgf, Ne.symm hgf] at this ⊢
      omega
  · have hgf := eq_of_update_ne (by simpa [hfile₁] using hg)
    subst hgf
    simpa [hfile₁] using hz
  · have hgf := eq_of_update_ne (by simpa [hfile₁] using hg)
    subst hgf
    exact fun i hi => hk.not_mem_fresh_of_holds (by omega) hi

end Update

/-! ### System call entries -/

section Entries

variable {k : Kernel} {i : Fin NPROC}

theorem Inv.sysOpen (hk : Inv k) (hrun : (k.proc i).state = .runnable)
    (hidle : (k.proc i).call = .idle) (ip omode : Nat) : Inv (k.sysOpen i ip omode) := by
  unfold Kernel.sysOpen Kernel.filealloc
  rcases hfree : k.free with _ | f
  · exact hk
  refine hk.alloc hfree i _ (by simp [hrun]) (fun _ _ h => by cases h) (.of_runnable hrun trivial)
    (fun g => ?_) (by simp [Call.fresh])
  have h := (k.proc i).refs_setCall (c := .openFd f ip omode) (by simp [hidle, Call.unbacked]) g
  simpa [hidle, Call.held] using h

theorem Inv.sysPipe (hk : Inv k) (hrun : (k.proc i).state = .runnable)
    (hidle : (k.proc i).call = .idle) : Inv (k.sysPipe i) := by
  unfold Kernel.sysPipe Kernel.filealloc
  rcases hfree : k.free with _ | f
  · exact hk
  refine hk.alloc hfree i _ (by simp [hrun]) (fun _ _ h => by cases h) (.of_runnable hrun trivial)
    (fun g => ?_) (by simp [Call.fresh])
  have h := (k.proc i).refs_setCall (c := .allocF1 f) (by simp [hidle, Call.unbacked]) g
  simpa [hidle, Call.held] using h

theorem Inv.sysDup (hk : Inv k) (hrun : (k.proc i).state = .runnable)
    (hidle : (k.proc i).call = .idle) (fd : Fin NOFILE) : Inv (k.sysDup i fd) := by
  unfold Kernel.sysDup
  split
  case h_2 => exact hk
  rename_i f dst hf hdst
  have hnone := Proc.fdalloc_ofile hdst
  have hne : fd ≠ dst := by
    rintro rfl
    rw [hf] at hnone
    cases hnone
  refine hk.frame i ⟨(k.proc i).state, Function.update (k.proc i).ofile dst (some f),
      .dup f fd dst⟩ (by simp) (by simp) (by simp [hrun]) (fun _ _ h => by cases h)
    (.of_runnable hrun ⟨by simp [hne, hf], by simp, hne⟩) (Proc.refs_congr ?_ (by simp [hidle, Call.held]))
    (by simp [Call.fresh])
  funext fd'
  by_cases h : fd' = dst
  · subst h
    simp [Proc.own, Call.unbacked, hidle, hnone]
  · simp [Proc.own, Call.unbacked, hidle, h, Ne.symm h]

theorem Inv.sysClose (hk : Inv k) (hrun : (k.proc i).state = .runnable)
    (hidle : (k.proc i).call = .idle) (fd : Fin NOFILE) : Inv (k.sysClose i fd) := by
  unfold Kernel.sysClose
  split
  case h_2 => exact hk
  rename_i f hf
  have hu : (k.proc i).call.unbacked = none := by simp [hidle, Call.unbacked]
  refine hk.frame i ⟨(k.proc i).state, Function.update (k.proc i).ofile fd none,
      .closing (.drop f) []⟩ (by simp) (by simp) (by simp [hrun]) (fun _ _ h => by cases h)
    (.of_runnable hrun trivial) (fun g => ?_) (by simp [Call.fresh])
  have h := Proc.refs_update ((k.proc i).own_setSlot (c := .closing (.drop f) []) fd none rfl hu) g
  rw [Proc.own_of_unbacked_none hu, hf, hidle] at h
  simp [Call.held, Close.held, List.count_singleton] at h
  omega

theorem Inv.sysExit (hk : Inv k) (hrun : (k.proc i).state = .runnable)
    (hidle : (k.proc i).call = .idle) {k' : Kernel} (h : k.sysExit i = .ok k') : Inv k' := by
  unfold Kernel.sysExit at h
  split at h
  · cases h
  cases h
  refine hk.frame i { k.proc i with call := .exitScan 0 } (by simp) (by simp) (by simp [hrun])
    (fun _ _ h => by cases h) (.of_runnable hrun fun _ h => absurd h (Nat.not_lt_zero _))
    (Proc.refs_congr ((k.proc i).own_setCall (by simp [hidle, Call.unbacked]))
      (by simp [hidle, Call.held])) (by simp [Call.fresh])

theorem Inv.reap (hk : Inv k) (hz : (k.proc i).state = .zombie) :
    Inv (k.setProc i { k.proc i with state := .unused }) := by
  have hwf := hk.wf i
  have hidle := hwf.idle (by simp [hz])
  refine hk.frame i { k.proc i with state := .unused } rfl (by simp) (by simp [hz])
    (fun _ _ h => by simp [hidle] at h)
    ⟨fun _ => hidle, fun _ => hwf.empty (.inr hz), by simpa [hidle] using hwf.shape⟩
    (fun _ => rfl) (by simp [hidle, Call.fresh])

end Entries

/-! ### `fork`

The parent fills the slots of the new process, which runs nothing until the parent is done:
the two processes change together, so these steps are shown one by one. -/

section Fork

variable {k : Kernel} {i c : Fin NPROC}

/-- The parent's loop moves on to slot `n` of the new process `c`. -/
theorem Inv.setForking (hk : Counts k) (n : Nat) (hrun : (k.proc i).state = .runnable)
    (hheld : (k.proc i).call.held = []) (hu : (k.proc i).call.unbacked = none)
    (hfr : (k.proc i).call.fresh = []) (hc : (k.proc c).state = .embryo)
    (hslots : ∀ fd : Fin NOFILE, n ≤ fd.val → (k.proc c).ofile fd = none)
    (hothers : ∀ j c' m, j ≠ i → (k.proc j).call = .forking c' m → c' ≠ c ∧
      (k.proc c').state = .embryo ∧ ∀ fd : Fin NOFILE, m ≤ fd.val → (k.proc c').ofile fd = none)
    (huniq : ∀ j j' c' m m', j ≠ i → j' ≠ i → (k.proc j).call = .forking c' m →
      (k.proc j').call = .forking c' m' → j = j') :
    Inv (k.setCall i (.forking c n)) := by
  have hci : c ≠ i := by
    rintro rfl
    simp [hrun] at hc
  have hrefs (f : Fin NFILE) : ({ k.proc i with call := .forking c n } : Proc).refs f =
      (k.proc i).refs f := by
    have := (k.proc i).refs_setCall (c := .forking c n) (by rw [hu]; rfl) f
    rw [hheld] at this
    simpa [Call.held] using this
  refine ⟨hk.frame i { k.proc i with call := .forking c n } rfl (by simp) (.of_runnable hrun trivial)
    hrefs (by simp [Call.fresh]),
    fun j c' m h => ?_, fun j j' c' m m' h h' => ?_⟩
  · simp only [Kernel.setCall_eq, Kernel.setProc_proc] at h ⊢
    by_cases hj : j = i
    · subst hj
      simp only [Function.update_self, Call.forking.injEq] at h
      obtain ⟨rfl, rfl⟩ := h
      rw [Function.update_of_ne hci]
      exact ⟨hc, hslots⟩
    · rw [Function.update_of_ne hj] at h
      obtain ⟨-, he, hs⟩ := hothers j c' m hj h
      have hc'i : c' ≠ i := by
        rintro rfl
        simp [hrun] at he
      rw [Function.update_of_ne hc'i]
      exact ⟨he, hs⟩
  · simp only [Kernel.setCall_eq, Kernel.setProc_proc] at h h'
    by_cases hj : j = i <;> by_cases hj' : j' = i
    · rw [hj, hj']
    · subst hj
      simp only [Function.update_self, Call.forking.injEq] at h
      rw [Function.update_of_ne hj'] at h'
      exact absurd h.1 (hothers j' c' m' hj' h').1.symm
    · subst hj'
      simp only [Function.update_self, Call.forking.injEq] at h'
      rw [Function.update_of_ne hj] at h
      exact absurd h'.1 (hothers j c' m hj h).1.symm
    · rw [Function.update_of_ne hj] at h
      rw [Function.update_of_ne hj'] at h'
      exact huniq j j' c' m m' hj hj' h h'

/-- What `Inv` says of the processes other than a parent `i` forking `c`. -/
theorem Inv.others (hk : Inv k) {n : Nat} (hi : (k.proc i).call = .forking c n) (j c' : Fin NPROC)
    (m : Nat) (hj : j ≠ i) (h : (k.proc j).call = .forking c' m) :
    c' ≠ c ∧ (k.proc c').state = .embryo ∧
      ∀ fd : Fin NOFILE, m ≤ fd.val → (k.proc c').ofile fd = none := by
  refine ⟨?_, hk.forking j c' m h⟩
  rintro rfl
  exact hj (hk.forking_unique j i c' m n h hi)

theorem Inv.sysFork (hk : Inv k) (hrun : (k.proc i).state = .runnable)
    (hidle : (k.proc i).call = .idle) : Inv (k.sysFork i) := by
  unfold Kernel.sysFork
  split
  case h_2 => exact hk
  rename_i c hc
  have hcu := Kernel.allocproc_state hc
  have hwfc := hk.wf c
  have hcidle := hwfc.idle (by simp [hcu])
  have hci : c ≠ i := by
    rintro rfl
    simp [hrun] at hcu
  -- the new process is an embryo first; nobody was filling it while it was unused
  have hk₁ : Inv (k.setProc c { k.proc c with state := .embryo }) :=
    hk.frame c { k.proc c with state := .embryo } rfl (by simp) (by simp [hcu])
      (fun _ _ h => by simp [hcidle] at h)
      ⟨fun _ => hcidle, fun h => by simp at h, by simpa [hcidle] using hwfc.shape⟩ (fun _ => rfl)
      (by simp [hcidle, Call.fresh])
  have hnot : ∀ j m, (k.proc j).call ≠ .forking c m := fun j m h => by
    simp [(hk.forking j c m h).1] at hcu
  have hproc₁ : ∀ j, j ≠ c → ((k.setProc c { k.proc c with state := .embryo }).proc j) = k.proc j :=
    fun j hj => by simp [Function.update_of_ne hj]
  refine Inv.setForking hk₁.toCounts 0 ?_ ?_ ?_ ?_ (by simp) (fun fd _ => ?_) ?_ ?_
  · rw [hproc₁ i (Ne.symm hci), hrun]
  · rw [hproc₁ i (Ne.symm hci), hidle]
    rfl
  · rw [hproc₁ i (Ne.symm hci), hidle]
    rfl
  · rw [hproc₁ i (Ne.symm hci), hidle]
    rfl
  · simpa using hwfc.empty (.inl hcu) fd
  · intro j c' m hj h
    have hjc : j ≠ c := by
      rintro rfl
      simp [hcidle] at h
    rw [hproc₁ j hjc] at h
    have hc'c : c' ≠ c := by
      rintro rfl
      exact hnot j m h
    rw [hproc₁ c' hc'c]
    exact ⟨hc'c, hk.forking j c' m h⟩
  · intro j j' c' m m' _ _ h h'
    have hjc : j ≠ c := by
      rintro rfl
      simp [hcidle] at h
    have hj'c : j' ≠ c := by
      rintro rfl
      simp [hcidle] at h'
    rw [hproc₁ j hjc] at h
    rw [hproc₁ j' hj'c] at h'
    exact hk.forking_unique j j' c' m m' h h'

end Fork


/-! ### The steps of a call in progress -/

section Advance

variable {k k' : Kernel} {i : Fin NPROC} {b : Bool}

/-- The call of a running process moves on, holding the same references. -/
theorem Inv.setCall (hk : Inv k) {c : Call} (hrun : (k.proc i).state = .runnable)
    (hc : ∀ c' n, c ≠ .forking c' n) (hshape : c.Shape (k.proc i).ofile)
    (hu : c.unbacked = (k.proc i).call.unbacked)
    (hheld : ∀ g, c.held.count g = (k.proc i).call.held.count g)
    (hfresh : ∀ f ∈ c.fresh, f ∈ (k.proc i).call.fresh) : Inv (k.setCall i c) :=
  hk.frame i { k.proc i with call := c } (by simp) (by simp) (by simp [hrun]) hc
    (.of_runnable hrun hshape) (Proc.refs_congr ((k.proc i).own_setCall hu) hheld) hfresh

/-- The call of a running process fills or empties slot `fd`, trading the reference there
for one it holds. -/
theorem Inv.setSlotCall (hk : Inv k) (fd : Fin NOFILE) (v : Option (Fin NFILE)) {c : Call}
    (hrun : (k.proc i).state = .runnable) (hc : ∀ c' n, c ≠ .forking c' n)
    (hshape : c.Shape (Function.update (k.proc i).ofile fd v)) (hu : c.unbacked = none)
    (hu₀ : (k.proc i).call.unbacked = none)
    (hheld : ∀ g, c.held.count g + (if v = some g then 1 else 0) =
      (k.proc i).call.held.count g + if (k.proc i).ofile fd = some g then 1 else 0)
    (hfresh : c.fresh = []) : Inv ((k.setSlot i fd v).setCall i c) := by
  refine hk.frame i ⟨(k.proc i).state, Function.update (k.proc i).ofile fd v, c⟩ (by simp)
    (by simp) (by simp [hrun]) hc (.of_runnable hrun hshape) (fun g => ?_) (by simp [hfresh])
  have h := Proc.refs_update ((k.proc i).own_setSlot fd v hu hu₀) g
  rw [Proc.own_of_unbacked_none hu₀] at h
  have := hheld g
  simp only at h
  omega

theorem Inv.openFd (hk : Inv k) {f : Fin NFILE} {ip omode : Nat}
    (hc : (k.proc i).call = .openFd f ip omode) (h : k.advance i b = .ok k') : Inv k' := by
  have hrun := (hk.wf i).runnable (by simp [hc])
  have hf1 := (hk.fresh i f (by simp [hc, Call.fresh])).1
  have hu : (k.proc i).call.unbacked = none := by simp [hc, Call.unbacked]
  have hfi : 1 ≤ (k.proc i).refs f := Proc.one_le_refs_of_held (by simp [hc, Call.held])
  simp only [Kernel.advance, hc] at h
  split at h
  · rename_i fd hfd
    cases h
    have hown := (k.proc i).own_setSlot (c := .idle) fd (some f) rfl hu
    refine hk.update i ⟨(k.proc i).state, Function.update (k.proc i).ofile fd (some f), .idle⟩
      (by simp) (by simp [hrun]) (fun _ _ h => by cases h) (.of_runnable hrun trivial)
      (fun g => ?_) (fun g hg => ?_) (fun g hg => ?_) (by simp [Call.fresh])
    · have := Proc.refs_update hown g
      rw [Proc.own_of_unbacked_none hu, Proc.fdalloc_ofile hfd, hc] at this
      by_cases hgf : g = f
      · subst hgf
        simp [File.opened, Call.held] at this ⊢
        omega
      · simp [hgf, Ne.symm hgf, Call.held] at this ⊢
        omega
    · have hgf := eq_of_update_ne (by simpa using hg)
      subst hgf
      simp [File.opened, hf1]
    · have hgf := eq_of_update_ne (by simpa using hg)
      subst hgf
      exact fun j hj => hk.not_mem_fresh_of_holds hfi hj
  · cases h
    exact hk.setCall hrun (fun _ _ h => by cases h) trivial (by rw [hu]; rfl)
      (by simp [hc, Call.held, Close.held]) (by simp [Call.fresh])

theorem Inv.dupDone (hk : Inv k) {f : Fin NFILE} {src dst : Fin NOFILE}
    (hc : (k.proc i).call = .dup f src dst) (h : k.advance i b = .ok k') : Inv k' := by
  have hrun := (hk.wf i).runnable (by simp [hc])
  have hshape := (hk.wf i).shape
  rw [hc] at hshape
  obtain ⟨hsrc, hdst, hne⟩ := hshape
  have hown : ({ k.proc i with call := .idle } : Proc).own =
      Function.update (k.proc i).own dst (some f) := by
    funext fd
    by_cases h : fd = dst
    · subst h
      simp [Proc.own, Call.unbacked, hdst]
    · simp [Proc.own, Call.unbacked, hc, h, Ne.symm h]
  have hfi : 1 ≤ (k.proc i).refs f :=
    @Proc.one_le_refs_of_own _ src _ (by simp [Proc.own, hc, Call.unbacked, Ne.symm hne, hsrc])
  simp only [Kernel.advance, hc, Kernel.filedup] at h
  split at h
  · cases h
  cases h
  refine hk.dup i { k.proc i with call := .idle } hfi (by simp [hrun]) (fun _ _ h => by cases h)
    (.of_runnable hrun trivial) (fun g => ?_) rfl
  have := Proc.refs_update hown g
  simp [Proc.own, hc, Call.unbacked, Call.held, List.count_singleton] at this ⊢
  omega

theorem Inv.allocF1 (hk : Inv k) {f0 : Fin NFILE} (hc : (k.proc i).call = .allocF1 f0)
    (h : k.advance i b = .ok k') : Inv k' := by
  have hrun := (hk.wf i).runnable (by simp [hc])
  have hf1 := (hk.fresh i f0 (by simp [hc, Call.fresh])).1
  have hu : (k.proc i).call.unbacked = none := by simp [hc, Call.unbacked]
  simp only [Kernel.advance, hc, Kernel.filealloc] at h
  rcases hfree : k.free with _ | f1 <;> rw [hfree] at h <;> simp only [Option.map] at h <;> cases h
  · exact hk.setCall hrun (fun _ _ h => by cases h) trivial (by rw [hu]; rfl)
      (by simp [hc, Call.held, Close.held]) (by simp [Call.fresh])
  · have hne : f0 ≠ f1 := by
      rintro rfl
      rw [Kernel.free_ref hfree] at hf1
      cases hf1
    refine hk.alloc hfree i { k.proc i with call := .kalloc f0 f1 } (by simp [hrun])
      (fun _ _ h => by cases h) (.of_runnable hrun hne) (fun g => ?_) ?_
    · have := (k.proc i).refs_setCall (c := .kalloc f0 f1) (by rw [hu]; rfl) g
      simp [hc, Call.held, List.count_cons] at this ⊢
      omega
    · simp [hc, Call.fresh]

theorem Inv.kalloc (hk : Inv k) {f0 f1 : Fin NFILE} (hc : (k.proc i).call = .kalloc f0 f1)
    (h : k.advance i b = .ok k') : Inv k' := by
  have hrun := (hk.wf i).runnable (by simp [hc])
  have hu : (k.proc i).call.unbacked = none := by simp [hc, Call.unbacked]
  have h0 := (hk.fresh i f0 (by simp [hc, Call.fresh])).1
  have h1 := (hk.fresh i f1 (by simp [hc, Call.fresh])).1
  have hf0 : 1 ≤ (k.proc i).refs f0 := Proc.one_le_refs_of_held (by simp [hc, Call.held])
  have hf1 : 1 ≤ (k.proc i).refs f1 := Proc.one_le_refs_of_held (by simp [hc, Call.held])
  simp only [Kernel.advance, hc] at h
  split at h
  · cases h
    -- the files become the two ends of the new pipe, with their counts unchanged
    refine hk.update i { k.proc i with call := .pipeFd0 f0 f1 } (by simp) (by simp [hrun])
      (fun _ _ h => by cases h) (.of_runnable hrun trivial) (fun g => ?_) (fun g hg => ?_)
      (fun g hg => ?_) (by simp [Call.fresh])
    · have := (k.proc i).refs_setCall (c := .pipeFd0 f0 f1) (by rw [hu]; rfl) g
      rw [hc] at this
      simp only [Call.held] at this
      by_cases hg1 : g = f1
      · subst hg1
        simp
        omega
      · by_cases hg0 : g = f0
        · subst hg0
          simp [hg1]
          omega
        · simp [hg0, hg1]
          omega
    · by_cases hg1 : g = f1
      · subst hg1
        simp [h1]
      · have hg0 := eq_of_update_ne (by simpa [hg1] using hg)
        subst hg0
        simp [hg1, h0]
    · intro j hj
      by_cases hg1 : g = f1
      · subst hg1
        exact hk.not_mem_fresh_of_holds hf1 hj
      · have hg0 := eq_of_update_ne (by simpa [hg1] using hg)
        subst hg0
        exact hk.not_mem_fresh_of_holds hf0 hj
  · cases h
    exact hk.setCall hrun (fun _ _ h => by cases h) trivial (by rw [hu]; rfl)
      (by simp [hc, Call.held, Close.held]) (by simp [Call.fresh])

theorem Inv.pipeFd0 (hk : Inv k) {rf wf : Fin NFILE} (hc : (k.proc i).call = .pipeFd0 rf wf)
    (h : k.advance i b = .ok k') : Inv k' := by
  have hrun := (hk.wf i).runnable (by simp [hc])
  have hu : (k.proc i).call.unbacked = none := by simp [hc, Call.unbacked]
  simp only [Kernel.advance, hc] at h
  split at h
  · rename_i fd0 hfd
    cases h
    refine hk.setSlotCall fd0 (some rf) hrun (fun _ _ h => by cases h) (by simp [Call.Shape]) rfl hu
      (fun g => ?_) rfl
    simp [hc, Call.held, Proc.fdalloc_ofile hfd, List.count_cons]
  · cases h
    exact hk.setCall hrun (fun _ _ h => by cases h) trivial (by rw [hu]; rfl)
      (by simp [hc, Call.held, Close.held]) (by simp [Call.fresh])

theorem Inv.pipeFd1 (hk : Inv k) {rf wf : Fin NFILE} {fd0 : Fin NOFILE}
    (hc : (k.proc i).call = .pipeFd1 rf wf fd0) (h : k.advance i b = .ok k') : Inv k' := by
  have hrun := (hk.wf i).runnable (by simp [hc])
  have hu : (k.proc i).call.unbacked = none := by simp [hc, Call.unbacked]
  have hs : (k.proc i).ofile fd0 = some rf := by
    have := (hk.wf i).shape
    rwa [hc] at this
  simp only [Kernel.advance, hc] at h
  split at h
  · rename_i fd1 hfd
    cases h
    refine hk.setSlotCall fd1 (some wf) hrun (fun _ _ h => by cases h) trivial rfl hu (fun g => ?_)
      rfl
    simp [hc, Call.held, Proc.fdalloc_ofile hfd, List.count_singleton]
  · cases h
    refine hk.setSlotCall fd0 none hrun (fun _ _ h => by cases h) trivial rfl hu (fun g => ?_) rfl
    simp [hc, Call.held, Close.held, hs, List.count_cons]

theorem Inv.closing (hk : Inv k) {c : Close} {rest : List (Fin NFILE)}
    (hc : (k.proc i).call = .closing c rest) (h : k.advance i b = .ok k') : Inv k' := by
  have hrun := (hk.wf i).runnable (by simp [hc])
  simp only [Kernel.advance, hc] at h
  obtain ⟨⟨k₁, next⟩, hcs, rfl⟩ := Kernel.ok_of_map_eq_ok h
  have hnd := Kernel.closeStep_next_ne_drop hcs
  have hproc₁ := Kernel.closeStep_proc hcs
  have hheld (g : Fin NFILE) : ({ k.proc i with call := Call.closeNext next rest } : Proc).refs g +
      (c.held ++ rest).count g = (k.proc i).refs g + rest.count g := by
    have := (k.proc i).refs_setCall (c := Call.closeNext next rest)
      (by rw [hc, Call.unbacked_closeNext]; rfl) g
    rw [hc, Call.held_closeNext hnd] at this
    simpa [Call.held] using this
  cases c with
  | drop f =>
    rw [Kernel.setCall_eq, hproc₁]
    refine hk.drop hcs i _ (by simp [hrun]) (Call.closeNext_ne_forking next rest)
      (.of_runnable hrun (Call.shape_closeNext next rest _)) (fun g => ?_) (by simp)
    have := hheld g
    simp [Close.held, List.count_cons] at this ⊢
    omega
  | release ff =>
    have hk₁ : Inv k₁ := by
      refine hk.congr ?_ hproc₁
      rcases Kernel.closeStep_release hcs with ⟨-, rfl, -⟩ | ⟨-, rfl, -⟩ | ⟨-, rfl, -⟩ <;> rfl
    refine hk₁.setCall (by rw [hproc₁]; exact hrun) (Call.closeNext_ne_forking next rest)
      (Call.shape_closeNext next rest _) (by rw [hproc₁, hc, Call.unbacked_closeNext]; rfl)
      (fun g => ?_) (by simp)
    rw [hproc₁, hc, Call.held_closeNext hnd]
    simp [Call.held, Close.held]
  | kfree q =>
    have hk₁ : Inv k₁ := hk.congr (by rw [(Kernel.closeStep_kfree hcs).1]; rfl) hproc₁
    refine hk₁.setCall (by rw [hproc₁]; exact hrun) (Call.closeNext_ne_forking next rest)
      (Call.shape_closeNext next rest _) (by rw [hproc₁, hc, Call.unbacked_closeNext]; rfl)
      (fun g => ?_) (by simp)
    rw [hproc₁, hc, Call.held_closeNext hnd]
    simp [Call.held, Close.held]

theorem Inv.exitScan (hk : Inv k) {n : Nat} (hc : (k.proc i).call = .exitScan n)
    (h : k.advance i b = .ok k') : Inv k' := by
  have hrun := (hk.wf i).runnable (by simp [hc])
  have hlow : ∀ fd : Fin NOFILE, fd.val < n → (k.proc i).ofile fd = none := by
    have := (hk.wf i).shape
    rwa [hc] at this
  simp only [Kernel.advance, hc] at h
  split at h
  · rename_i hn
    split at h
    · rename_i f hf
      cases h
      exact hk.setCall hrun (fun _ _ h => by cases h) ⟨hlow, fun f' e => by cases e; exact hf⟩
        (by rw [hc]; rfl) (by simp [hc, Call.held]) (by simp [Call.fresh])
    · rename_i hf
      cases h
      refine hk.setCall hrun (fun _ _ h => by cases h) (fun fd hfd => ?_) (by rw [hc]; rfl)
        (by simp [hc, Call.held]) (by simp [Call.fresh])
      rcases Nat.lt_succ_iff_lt_or_eq.mp hfd with hlt | heq
      · exact hlow fd hlt
      · have : fd = ⟨n, hn⟩ := Fin.ext heq
        rw [this]
        exact hf
  · rename_i hn
    cases h
    -- the loop has closed every slot: the process becomes a zombie with none open
    refine hk.frame i { k.proc i with state := .zombie, call := .idle } (by simp) (by simp)
      (by simp [hrun]) (fun _ _ h => by cases h) ⟨fun _ => rfl, fun _ fd => hlow fd (by omega), trivial⟩
      (Proc.refs_congr ((k.proc i).own_setCall (by rw [hc]; rfl)) (by simp [hc, Call.held]))
      (by simp [Call.fresh])

theorem Inv.exitClose (hk : Inv k) {fd : Fin NOFILE} {c : Close}
    (hc : (k.proc i).call = .exitClose fd c) (h : k.advance i b = .ok k') : Inv k' := by
  have hrun := (hk.wf i).runnable (by simp [hc])
  have hs : (∀ fd' : Fin NOFILE, fd'.val < fd.val → (k.proc i).ofile fd' = none) ∧
      ∀ f, c = .drop f → (k.proc i).ofile fd = some f := by
    have := (hk.wf i).shape
    rwa [hc] at this
  simp only [Kernel.advance, hc] at h
  obtain ⟨⟨k₁, next⟩, hcs, rfl⟩ := Kernel.ok_of_map_eq_ok h
  have hnd := Kernel.closeStep_next_ne_drop hcs
  have hproc₁ := Kernel.closeStep_proc hcs
  have hshape := Call.shape_exitNext hnd hs.1
  cases c with
  | drop f =>
    rw [Kernel.setCall_eq, hproc₁]
    -- the slot still points to the file, but its reference is gone
    have hown : ({ k.proc i with call := Call.exitNext fd next } : Proc).own =
        Function.update (k.proc i).own fd none := by
      funext fd'
      by_cases h' : fd' = fd
      · subst h'
        simp [Proc.own, Call.unbacked_exitNext hnd]
      · rw [Function.update_of_ne h']
        simp only [Proc.own, Call.unbacked_exitNext hnd, hc]
        simp [Call.unbacked, Ne.symm h']
    refine hk.drop hcs i _ (by simp [hrun]) (Call.exitNext_ne_forking fd next) (.of_runnable hrun hshape)
      (fun g => ?_) (by simp)
    have := Proc.refs_update hown g
    simp only [Call.held_exitNext, Proc.own, hc] at this
    simp [Call.unbacked, hs.2 f rfl, Call.held, List.count_singleton] at this ⊢
    omega
  | release ff =>
    have hk₁ : Inv k₁ := by
      refine hk.congr ?_ hproc₁
      rcases Kernel.closeStep_release hcs with ⟨-, rfl, -⟩ | ⟨-, rfl, -⟩ | ⟨-, rfl, -⟩ <;> rfl
    exact hk₁.setCall (by rw [hproc₁]; exact hrun) (Call.exitNext_ne_forking fd next)
      (by rw [hproc₁]; exact hshape) (by rw [hproc₁, hc, Call.unbacked_exitNext hnd]; rfl)
      (fun g => by rw [hproc₁, hc, Call.held_exitNext]; rfl) (by simp)
  | kfree q =>
    have hk₁ : Inv k₁ := hk.congr (by rw [(Kernel.closeStep_kfree hcs).1]; rfl) hproc₁
    exact hk₁.setCall (by rw [hproc₁]; exact hrun) (Call.exitNext_ne_forking fd next)
      (by rw [hproc₁]; exact hshape) (by rw [hproc₁, hc, Call.unbacked_exitNext hnd]; rfl)
      (fun g => by rw [hproc₁, hc, Call.held_exitNext]; rfl) (by simp)

theorem Inv.exitClear (hk : Inv k) {fd : Fin NOFILE} (hc : (k.proc i).call = .exitClear fd)
    (h : k.advance i b = .ok k') : Inv k' := by
  have hrun := (hk.wf i).runnable (by simp [hc])
  have hlow : ∀ fd' : Fin NOFILE, fd'.val < fd.val → (k.proc i).ofile fd' = none := by
    have := (hk.wf i).shape
    rwa [hc] at this
  simp only [Kernel.advance, hc] at h
  cases h
  refine hk.frame i ⟨(k.proc i).state, Function.update (k.proc i).ofile fd none, .exitScan (fd.val + 1)⟩
    (by simp) (by simp) (by simp [hrun]) (fun _ _ h => by cases h) (.of_runnable hrun fun fd' h' => ?_)
    (Proc.refs_congr ?_ (by simp [hc, Call.held])) (by simp [Call.fresh])
  · by_cases he : fd' = fd
    · simp [he]
    · have : fd'.val ≠ fd.val := fun e => he (Fin.ext e)
      simp only [ne_eq, he, not_false_eq_true, Function.update_of_ne]
      exact hlow fd' (by omega)
  · funext fd'
    by_cases he : fd' = fd
    · subst he
      simp [Proc.own, hc, Call.unbacked]
    · simp [Proc.own, hc, Call.unbacked, he, Ne.symm he]

theorem Inv.forkLoop (hk : Inv k) {c : Fin NPROC} {n : Nat} (hc : (k.proc i).call = .forking c n)
    (h : k.advance i b = .ok k') : Inv k' := by
  have hrun := (hk.wf i).runnable (by simp [hc])
  obtain ⟨hemb, hslots⟩ := hk.forking i c n hc
  have hci : c ≠ i := by
    rintro rfl
    simp [hrun] at hemb
  have hcidle : (k.proc c).call = .idle := (hk.wf c).idle (by simp [hemb])
  have hu : (k.proc i).call.unbacked = none := by rw [hc]; rfl
  have hheld : (k.proc i).call.held = [] := by rw [hc]; rfl
  have hfr : (k.proc i).call.fresh = [] := by rw [hc]; rfl
  simp only [Kernel.advance, hc] at h
  split at h
  · rename_i hn
    split at h
    · rename_i f hf
      simp only [Kernel.filedup] at h
      split at h
      · cases h
      cases h
      -- the new process gets a copy of the reference in the parent's slot `n`
      have hfi : 1 ≤ (k.proc i).refs f :=
        @Proc.one_le_refs_of_own _ ⟨n, hn⟩ _ (by rw [Proc.own_of_unbacked_none hu]; exact hf)
      have hcu : (k.proc c).call.unbacked = none := by rw [hcidle]; rfl
      have hk₂ : Counts ((k.setFile f { k.file f with ref := (k.file f).ref + 1 }).setSlot c
          ⟨n, hn⟩ (some f)) := by
        refine hk.toCounts.update c
          ⟨(k.proc c).state, Function.update (k.proc c).ofile ⟨n, hn⟩ (some f), (k.proc c).call⟩
          (by simp) ⟨fun _ => hcidle, fun h => by rcases h with h | h <;> simp [hemb] at h,
            by simp only [hcidle]; trivial⟩
          (fun g => ?_) (fun g hg => ?_) (fun g hg => ?_) (by simp [hcidle, Call.fresh])
        · have := Proc.refs_update ((k.proc c).own_setSlot (c := (k.proc c).call) ⟨n, hn⟩ (some f)
            hcu hcu) g
          rw [Proc.own_of_unbacked_none hcu, hslots ⟨n, hn⟩ le_rfl] at this
          by_cases hgf : g = f
          · subst hgf
            simp at this ⊢
            omega
          · simp [hgf, Ne.symm hgf] at this ⊢
            omega
        · have hgf := eq_of_update_ne (by simpa using hg)
          subst hgf
          simp
        · have hgf := eq_of_update_ne (by simpa using hg)
          subst hgf
          intro j hj
          by_cases hji : j = i
          · subst hji
            simp [hfr]
          · exact hk.not_mem_fresh_of_holds hfi hji
      have hp₂ (x : Fin NPROC) (hx : x ≠ c) : ((k.setFile f { k.file f with ref := (k.file f).ref + 1 }).setSlot c
          ⟨n, hn⟩ (some f)).proc x = k.proc x := by
        simp [Function.update_of_ne hx]
      have hic := Ne.symm hci
      refine Inv.setForking hk₂ (n + 1) (by rw [hp₂ i hic]; exact hrun) (by rw [hp₂ i hic]; exact hheld)
        (by rw [hp₂ i hic]; exact hu) (by rw [hp₂ i hic]; exact hfr) (by simp [hemb]) (fun fd hfd => ?_)
        (fun j c' m hj h => ?_) (fun j j' c' m m' _ _ h h' => ?_)
      · have hne : fd ≠ ⟨n, hn⟩ := fun e => by
          rw [e] at hfd
          simp at hfd
        simp [hne, hslots fd (by omega)]
      · have hjc : j ≠ c := by
          rintro rfl
          simp [hcidle] at h
        rw [hp₂ j hjc] at h
        obtain ⟨hc'c, he, hs⟩ := hk.others hc j c' m hj h
        rw [hp₂ c' hc'c]
        exact ⟨hc'c, he, hs⟩
      · have hjc : j ≠ c := by
          rintro rfl
          simp [hcidle] at h
        have hj'c : j' ≠ c := by
          rintro rfl
          simp [hcidle] at h'
        rw [hp₂ j hjc] at h
        rw [hp₂ j' hj'c] at h'
        exact hk.forking_unique j j' c' m m' h h'
    · cases h
      exact Inv.setForking hk.toCounts (n + 1) hrun hheld hu hfr hemb
        (fun fd hfd => hslots fd (by omega)) (fun j c' m hj h => hk.others hc j c' m hj h)
        (fun j j' c' m m' _ _ h h' => hk.forking_unique j j' c' m m' h h')
  · cases h
    -- `fork` is done: the new process runs, and nothing fills it any more
    have hk₁ : Counts (k.setProc c { k.proc c with state := .runnable }) :=
      hk.toCounts.frame c { k.proc c with state := .runnable } rfl (by simp)
        (.of_runnable rfl (hk.wf c).shape) (fun _ => rfl)
        (fun _ h => h)
    have hp₁ : (k.setProc c { k.proc c with state := .runnable }).proc i = k.proc i := by
      simp [Function.update_of_ne (Ne.symm hci)]
    have hrefs (g : Fin NFILE) : ({ k.proc i with call := .idle } : Proc).refs g =
        (k.proc i).refs g := by
      have := (k.proc i).refs_setCall (c := .idle) (by rw [hu]; rfl) g
      rw [hheld] at this
      simpa [Call.held] using this
    have hother (j : Fin NPROC) (hji : j ≠ i) (hjc : j ≠ c) :
        ((k.setProc c { k.proc c with state := .runnable }).setCall i .idle).proc j = k.proc j := by
      simp [Function.update_of_ne hji, Function.update_of_ne hjc]
    have hnf (j : Fin NPROC) (c' : Fin NPROC) (m : Nat)
        (h : (((k.setProc c { k.proc c with state := .runnable }).setCall i .idle).proc j).call =
          .forking c' m) : j ≠ i ∧ j ≠ c := by
      constructor
      · rintro rfl
        simp at h
      · rintro rfl
        simp [Function.update_of_ne hci, hcidle] at h
    refine ⟨hk₁.frame i { k.proc i with call := .idle } (by simp) (by simp [hp₁])
      (.of_runnable hrun trivial) (fun g => by rw [hp₁]; exact hrefs g)
      (by simp [Call.fresh]), fun j c' m h => ?_, fun j j' c' m m' h h' => ?_⟩
    · obtain ⟨hji, hjc⟩ := hnf j c' m h
      rw [hother j hji hjc] at h
      obtain ⟨hc'c, he, hs⟩ := hk.others hc j c' m hji h
      have hc'i : c' ≠ i := by
        rintro rfl
        simp [hrun] at he
      rw [hother c' hc'i hc'c]
      exact ⟨he, hs⟩
    · obtain ⟨hji, hjc⟩ := hnf j c' m h
      obtain ⟨hj'i, hj'c⟩ := hnf j' c' m' h'
      rw [hother j hji hjc] at h
      rw [hother j' hj'i hj'c] at h'
      exact hk.forking_unique j j' c' m m' h h'

end Advance

/-- Every step keeps the invariant. -/
theorem Inv.step {k k' : Kernel} (hk : Inv k) (hs : Step k k') : Inv k' := by
  cases hs with
  | sysOpen i ip omode hrun hidle => exact hk.sysOpen hrun hidle ip omode
  | sysDup i fd hrun hidle => exact hk.sysDup hrun hidle fd
  | sysClose i fd hrun hidle => exact hk.sysClose hrun hidle fd
  | sysPipe i hrun hidle => exact hk.sysPipe hrun hidle
  | sysFork i hrun hidle => exact hk.sysFork hrun hidle
  | sysExit i hrun hidle h => exact hk.sysExit hrun hidle h
  | reap i hz => exact hk.reap hz
  | advance i b h =>
    rcases hc : (k.proc i).call with _ | ⟨f, ip, omode⟩ | ⟨f, src, dst⟩ | f0 | ⟨f0, f1⟩ |
        ⟨rf, wf⟩ | ⟨rf, wf, fd0⟩ | ⟨c, rest⟩ | ⟨c, n⟩ | n | ⟨fd, c⟩ | fd
    · simp only [Kernel.advance, hc] at h
      cases h
      exact hk
    · exact hk.openFd hc h
    · exact hk.dupDone hc h
    · exact hk.allocF1 hc h
    · exact hk.kalloc hc h
    · exact hk.pipeFd0 hc h
    · exact hk.pipeFd1 hc h
    · exact hk.closing hc h
    · exact hk.forkLoop hc h
    · exact hk.exitScan hc h
    · exact hk.exitClose hc h
    · exact hk.exitClear hc h

theorem inv_of_reach {k : Kernel} (hreach : Relation.ReflTransGen Step Kernel.init k) : Inv k := by
  induction hreach with
  | refl => exact inv_init
  | tail _ hs ih => exact ih.step hs

end Xv6.Files
