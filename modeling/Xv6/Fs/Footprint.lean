import Xv6.Fs.Namespace

/-!
# What a namespace call can reach

A call starts from the root or from the caller's current directory and moves only along
directory entries; the one inode it takes that nothing names is a free one, from `ialloc`.
`Reach fs` is that set, and `Confined fs fs'` says that `fs'` differs from `fs` only on
inodes of `Reach fs`, that its new entries and current directories name inodes of
`Reach fs`, and nothing else. Every call is confined (`call_confined`), and so is every run
(`run_confined`).

Two facts about runs follow. An allocated inode that no entry names, that is not the root
and that no process is in, stays so along every run, with its type and its links: nothing
can reach it again, so nothing can free it (`Leaked.run`). And inode numbers stay below
`NINODES` (`Bounded.run`), which bounds the directories a reachable state has.
-/

namespace Xv6.Names

open Xv6.Inodes (T_DIR NINODES)
open Xv6.Mkfs (T_FILE)

/-- Some directory has an entry that names `j`. -/
def Named (fs : Fs) (j : Nat) : Prop := ∃ d, ∃ e ∈ fs.dir d, e.inum = j

/-- The inodes a call can reach: the root, the current directories, the inodes entries name
and the free inodes `ialloc` may take. -/
def Reach (fs : Fs) (j : Nat) : Prop :=
  j = ROOTINO ∨ (∃ q, fs.cwd q = j) ∨ (0 < j ∧ Named fs j) ∨ (0 < j ∧ j < NINODES ∧ fs.type j = 0)

/-- `fs'` keeps every inode outside `T`; its entries are old ones, empty ones or name inodes
of `T`, and a current directory that moved is in `T`. -/
structure Footprint (fs fs' : Fs) (T : Nat → Prop) : Prop where
  type : ∀ j, ¬ T j → fs'.type j = fs.type j
  nlink : ∀ j, ¬ T j → fs'.nlink j = fs.nlink j
  dir : ∀ j, ¬ T j → fs'.dir j = fs.dir j
  ref : ∀ j, ¬ T j → fs'.ref j = fs.ref j
  valid : ∀ j, ¬ T j → fs'.valid j = fs.valid j
  entry : ∀ d, ∀ e ∈ fs'.dir d, e ∈ fs.dir d ∨ e.inum = 0 ∨ T e.inum
  cwd : ∀ q, fs'.cwd q = fs.cwd q ∨ T (fs'.cwd q)

/-- `fs'` changes only what `fs` reaches. -/
def Confined (fs fs' : Fs) : Prop := Footprint fs fs' (Reach fs)

namespace Footprint

variable {a b c : Fs} {T : Nat → Prop}

theorem refl (a : Fs) (T : Nat → Prop) : Footprint a a T where
  type _ _ := rfl
  nlink _ _ := rfl
  dir _ _ := rfl
  ref _ _ := rfl
  valid _ _ := rfl
  entry _ _ he := .inl he
  cwd _ := .inl rfl

theorem trans (h₁ : Footprint a b T) (h₂ : Footprint b c T) : Footprint a c T where
  type j hj := (h₂.type j hj).trans (h₁.type j hj)
  nlink j hj := (h₂.nlink j hj).trans (h₁.nlink j hj)
  dir j hj := (h₂.dir j hj).trans (h₁.dir j hj)
  ref j hj := (h₂.ref j hj).trans (h₁.ref j hj)
  valid j hj := (h₂.valid j hj).trans (h₁.valid j hj)
  entry d e he := by
    rcases h₂.entry d e he with he | he | he
    · exact h₁.entry d e he
    · exact .inr (.inl he)
    · exact .inr (.inr he)
  cwd q := by
    rcases h₂.cwd q with hq | hq
    · rw [hq]
      exact h₁.cwd q
    · exact .inr hq

theorem mono {T' : Nat → Prop} (h : Footprint a b T) (hT : ∀ j, T j → T' j) : Footprint a b T' where
  type j hj := h.type j (mt (hT j) hj)
  nlink j hj := h.nlink j (mt (hT j) hj)
  dir j hj := h.dir j (mt (hT j) hj)
  ref j hj := h.ref j (mt (hT j) hj)
  valid j hj := h.valid j (mt (hT j) hj)
  entry d e he := (h.entry d e he).imp_right (Or.imp_right (hT _))
  cwd q := (h.cwd q).imp_right (hT _)

/-- What `b` reaches, `a` reached, or it is in `T`. -/
theorem reach (h : Footprint a b T) {j : Nat} (hj : Reach b j) : Reach a j ∨ T j := by
  by_cases hT : T j
  · exact .inr hT
  refine .inl ?_
  rcases hj with rfl | ⟨q, rfl⟩ | ⟨hpos, d, e, he, rfl⟩ | ⟨hpos, hlt, hfree⟩
  · exact .inl rfl
  · rcases h.cwd q with hq | hq
    · exact .inr (.inl ⟨q, hq.symm⟩)
    · exact absurd hq hT
  · rcases h.entry d e he with he' | h0 | hT'
    · exact .inr (.inr (.inl ⟨hpos, d, e, he', rfl⟩))
    · omega
    · exact absurd hT' hT
  · exact .inr (.inr (.inr ⟨hpos, hlt, (h.type _ hT).symm.trans hfree⟩))

theorem ite (c : Prop) [Decidable c] {b' : Fs} (h₁ : Footprint a b T) (h₂ : Footprint a b' T) :
    Footprint a (if c then b else b') T := by
  split
  · exact h₁
  · exact h₂

/-- A change to inode `j` alone, its new entries old, empty or in `T`. -/
theorem of_update {j : Nat} (hj : T j) (htype : ∀ k, k ≠ j → b.type k = a.type k)
    (hnlink : ∀ k, k ≠ j → b.nlink k = a.nlink k) (hdir : ∀ k, k ≠ j → b.dir k = a.dir k)
    (href : ∀ k, k ≠ j → b.ref k = a.ref k) (hvalid : ∀ k, k ≠ j → b.valid k = a.valid k)
    (hentry : ∀ e ∈ b.dir j, e ∈ a.dir j ∨ e.inum = 0 ∨ T e.inum) (hcwd : b.cwd = a.cwd) :
    Footprint a b T where
  type k hk := htype k (fun h => hk (h ▸ hj))
  nlink k hk := hnlink k (fun h => hk (h ▸ hj))
  dir k hk := hdir k (fun h => hk (h ▸ hj))
  ref k hk := href k (fun h => hk (h ▸ hj))
  valid k hk := hvalid k (fun h => hk (h ▸ hj))
  entry d e he := by
    by_cases hd : d = j
    · subst hd
      exact hentry e he
    · rw [hdir d hd] at he
      exact .inl he
  cwd q := .inl (congrFun hcwd q)

/-! ### One inode at a time -/

section Inode

variable {fs fs' : Fs} {j : Nat}

theorem setType (hj : T j) (t : Nat) : Footprint fs (fs.setType j t) T :=
  of_update hj (fun k hk => by simp [Function.update_of_ne hk]) (fun _ _ => rfl) (fun _ _ => rfl)
    (fun _ _ => rfl) (fun _ _ => rfl) (fun _ he => .inl he) rfl

theorem setNlink (hj : T j) (n : Int) : Footprint fs (fs.setNlink j n) T :=
  of_update hj (fun _ _ => rfl) (fun k hk => by simp [Function.update_of_ne hk]) (fun _ _ => rfl)
    (fun _ _ => rfl) (fun _ _ => rfl) (fun _ he => .inl he) rfl

theorem setRef (hj : T j) (n : Nat) : Footprint fs (fs.setRef j n) T :=
  of_update hj (fun _ _ => rfl) (fun _ _ => rfl) (fun _ _ => rfl)
    (fun k hk => by simp [Function.update_of_ne hk]) (fun _ _ => rfl) (fun _ he => .inl he) rfl

theorem setValid (hj : T j) (v : Bool) : Footprint fs (fs.setValid j v) T :=
  of_update hj (fun _ _ => rfl) (fun _ _ => rfl) (fun _ _ => rfl) (fun _ _ => rfl)
    (fun k hk => by simp [Function.update_of_ne hk]) (fun _ he => .inl he) rfl

/-- A directory rewritten with old, empty or `T` entries. -/
theorem setDir (hj : T j) {l : List Dirent} (hl : ∀ e ∈ l, e ∈ fs.dir j ∨ e.inum = 0 ∨ T e.inum) :
    Footprint fs (fs.setDir j l) T :=
  of_update hj (fun _ _ => rfl) (fun _ _ => rfl) (fun k hk => by simp [Function.update_of_ne hk])
    (fun _ _ => rfl) (fun _ _ => rfl) (fun e he => hl e (by simpa using he)) rfl

theorem iget (hj : T j) (h : fs.iget j = .ok fs') : Footprint fs fs' T := by
  unfold Fs.iget at h
  split_ifs at h with h0 hbusy
  · cases h
    exact (setValid hj false).trans (setRef hj 1)
  · cases h
    exact setRef hj _

theorem idup (hj : T j) : Footprint fs (fs.idup j) T := setRef hj _

theorem ilock (hj : T j) (h : fs.ilock j = .ok fs') : Footprint fs fs' T := by
  unfold Fs.ilock at h
  split_ifs at h with hv h0
  · cases h
    exact refl _ _
  · cases h
    exact setValid hj true

theorem iput (hj : T j) : Footprint fs (fs.iput j) T := by
  unfold Fs.iput
  split_ifs with hfree
  · exact (((setType hj 0).trans (setDir hj (by simp))).trans (setValid hj false)).trans (setRef hj _)
  · exact setRef hj _

end Inode

end Footprint

/-! ### Confined changes -/

namespace Confined

variable {a b c : Fs}

theorem refl (a : Fs) : Confined a a := Footprint.refl _ _

/-- A state confined from `a` reaches only what `a` reached. -/
theorem reach (h : Confined a b) {j : Nat} (hj : Reach b j) : Reach a j :=
  (Footprint.reach h hj).elim id id

theorem trans (h₁ : Confined a b) (h₂ : Confined b c) : Confined a c :=
  Footprint.trans h₁ (Footprint.mono h₂ fun _ => h₁.reach)

end Confined

section Paths

variable {fs₀ fs fs' : Fs}

theorem reach_of_dirlookup {dp i off : Nat} {name : List UInt8}
    (h : dirlookup fs dp name = some (i, off)) : Reach fs i := by
  obtain ⟨e, he, rfl, hi, -⟩ := dirlookup_some h
  exact .inr (.inr (.inl ⟨Nat.pos_of_ne_zero hi, dp, e, List.mem_of_getElem? he, rfl⟩))

/-- `dirlink` of a reached inode into a reached directory. -/
theorem dirlink_confined {dp inum : Nat} {name : List UInt8} {r : Int} (h : Confined fs₀ fs)
    (hdp : Reach fs₀ dp) (hi : Reach fs₀ inum) (hl : dirlink fs dp name inum = .ok (r, fs')) :
    Confined fs₀ fs' := by
  unfold dirlink at hl
  split at hl
  · rename_i ip off hfound
    obtain ⟨fs₁, hget, hfs⟩ := (Except.map_eq_ok _ _ _).mp hl
    simp only [Prod.mk.injEq] at hfs
    obtain ⟨-, rfl⟩ := hfs
    have hip : Reach fs₀ ip := h.reach (reach_of_dirlookup hfound)
    exact (Footprint.trans h (Footprint.iget hip hget)).trans (Footprint.iput hip)
  · simp only [Except.ok.injEq, Prod.mk.injEq] at hl
    obtain ⟨-, rfl⟩ := hl
    refine Footprint.trans h (Footprint.setDir hdp fun e he => ?_)
    rcases mem_writeSlot he with he | rfl
    · exact .inl he
    · exact .inr (.inr hi)

/-- `namex`'s walk from a reached inode stays among reached inodes, and so does its result. -/
theorem namexLoop_confined {b : Bool} {fuel ip : Nat} {path name : List UInt8}
    {r : Option (Nat × List UInt8)} (h : Confined fs₀ fs) (hip : Reach fs₀ ip)
    (hl : namexLoop b fuel fs ip path name = .ok (r, fs')) :
    Confined fs₀ fs' ∧ ∀ j n, r = some (j, n) → Reach fs₀ j := by
  induction fuel generalizing fs ip path name with
  | zero => simp [namexLoop] at hl
  | succ fuel ih =>
    rw [namexLoop] at hl
    split at hl
    · -- only slashes are left: the walk ends at `ip`
      split at hl <;> simp only [Except.ok.injEq, Prod.mk.injEq] at hl <;> obtain ⟨rfl, rfl⟩ := hl
      · exact ⟨Footprint.trans h (Footprint.iput hip), by simp⟩
      · exact ⟨h, fun j n hr => by cases hr; exact hip⟩
    · obtain ⟨fs₁, hlock, hl⟩ := (Except.bind_eq_ok _ _ _).mp hl
      have h₁ : Confined fs₀ fs₁ := Footprint.trans h (Footprint.ilock hip hlock)
      split_ifs at hl with hdir hend
      · simp only [Except.ok.injEq, Prod.mk.injEq] at hl
        obtain ⟨rfl, rfl⟩ := hl
        exact ⟨Footprint.trans h₁ (Footprint.iput hip), by simp⟩
      · simp only [Except.ok.injEq, Prod.mk.injEq] at hl
        obtain ⟨rfl, rfl⟩ := hl
        exact ⟨h₁, fun j n hr => by cases hr; exact hip⟩
      · split at hl
        · simp only [Except.ok.injEq, Prod.mk.injEq] at hl
          obtain ⟨rfl, rfl⟩ := hl
          exact ⟨Footprint.trans h₁ (Footprint.iput hip), by simp⟩
        · rename_i next off hfound
          obtain ⟨fs₂, hget, hl⟩ := (Except.bind_eq_ok _ _ _).mp hl
          have hnext : Reach fs₀ next := h₁.reach (reach_of_dirlookup hfound)
          have h₂ : Confined fs₀ fs₂ := Footprint.trans h₁ (Footprint.iget hnext hget)
          exact ih (Footprint.trans h₂ (Footprint.iput hip)) hnext hl

theorem namex_confined {p : Fin NPROC} {path : List UInt8} {b : Bool} {r : Option (Nat × List UInt8)}
    (hl : namex fs p path b = .ok (r, fs')) :
    Confined fs fs' ∧ ∀ j n, r = some (j, n) → Reach fs j := by
  unfold namex at hl
  split_ifs at hl
  · obtain ⟨fs₁, hget, hl⟩ := (Except.bind_eq_ok _ _ _).mp hl
    have hroot : Reach fs ROOTINO := .inl rfl
    exact namexLoop_confined (Footprint.iget hroot hget) hroot hl
  · have hcwd : Reach fs (fs.cwd p) := .inr (.inl ⟨p, rfl⟩)
    exact namexLoop_confined (Footprint.idup hcwd) hcwd hl

end Paths

/-! ### `create` -/

section Create

variable {fs₀ fs fs' : Fs}

/-- `ialloc` takes a free inode, which every state reaches. -/
theorem ialloc_confined {type i : Nat} (h : Confined fs₀ fs) (hl : ialloc fs type = .ok (i, fs')) :
    Confined fs₀ fs' ∧ Reach fs₀ i := by
  unfold ialloc at hl
  split at hl
  · rename_i j hfind
    obtain ⟨fs₁, hget, hfs⟩ := (Except.map_eq_ok _ _ _).mp hl
    simp only [Prod.mk.injEq] at hfs
    obtain ⟨rfl, rfl⟩ := hfs
    have hmem := List.mem_range'_1.mp (List.mem_of_find?_eq_some hfind)
    have hfree : fs.type j = 0 := by simpa using List.find?_some hfind
    have hj : Reach fs₀ j := h.reach (.inr (.inr (.inr ⟨by omega, by omega, hfree⟩)))
    exact ⟨Footprint.trans h ((((Footprint.setType hj type).trans (Footprint.setNlink hj 0)).trans
      (Footprint.setDir hj (by simp))).trans (Footprint.iget hj hget)), hj⟩
  · cases hl

theorem makeDots_confined {ip dp : Nat} (h : Confined fs₀ fs) (hip : Reach fs₀ ip)
    (hdp : Reach fs₀ dp) (hl : makeDots fs ip dp = .ok fs') : Confined fs₀ fs' := by
  unfold makeDots at hl
  have h₁ := Footprint.trans h (Footprint.setNlink hdp (fs.nlink dp + 1))
  obtain ⟨⟨r₁, fs₂⟩, hl₁, hl⟩ := (Except.bind_eq_ok _ _ _).mp hl
  have h₂ := dirlink_confined h₁ hip hip hl₁
  dsimp only at hl
  split_ifs at hl
  obtain ⟨⟨r₂, fs₃⟩, hl₂, hl⟩ := (Except.bind_eq_ok _ _ _).mp hl
  have h₃ := dirlink_confined h₂ hip hdp hl₂
  dsimp only at hl
  split_ifs at hl
  cases hl
  exact h₃

theorem createNew_confined {dp type : Nat} {name : List UInt8} {r : Option Nat}
    (h : Confined fs₀ fs) (hdp : Reach fs₀ dp) (hl : createNew fs dp name type = .ok (r, fs')) :
    Confined fs₀ fs' ∧ ∀ i, r = some i → Reach fs₀ i := by
  unfold createNew at hl
  obtain ⟨⟨ip, fs₁⟩, halloc, hl⟩ := (Except.bind_eq_ok _ _ _).mp hl
  obtain ⟨h₁, hip⟩ := ialloc_confined h halloc
  dsimp only at hl
  obtain ⟨fs₂, hlock, hl⟩ := (Except.bind_eq_ok _ _ _).mp hl
  have h₃ := Footprint.trans (Footprint.trans h₁ (Footprint.ilock hip hlock)) (Footprint.setNlink hip 1)
  obtain ⟨fs₄, hdots, hl⟩ := (Except.bind_eq_ok _ _ _).mp hl
  have h₄ : Confined fs₀ fs₄ := by
    split_ifs at hdots
    · exact makeDots_confined h₃ hip hdp hdots
    · cases hdots
      exact h₃
  obtain ⟨⟨r', fs₅⟩, hlink, hl⟩ := (Except.bind_eq_ok _ _ _).mp hl
  have h₅ := dirlink_confined h₄ hdp hip hlink
  dsimp only at hl
  split_ifs at hl
  simp only [Except.ok.injEq, Prod.mk.injEq] at hl
  obtain ⟨rfl, rfl⟩ := hl
  exact ⟨Footprint.trans h₅ (Footprint.iput hdp), fun i hi => Option.some.inj hi ▸ hip⟩

theorem createIn_confined {dp type : Nat} {name : List UInt8} {r : Option Nat}
    (h : Confined fs₀ fs) (hdp : Reach fs₀ dp) (hl : createIn fs dp name type = .ok (r, fs')) :
    Confined fs₀ fs' ∧ ∀ i, r = some i → Reach fs₀ i := by
  unfold createIn at hl
  obtain ⟨fs₁, hlock, hl⟩ := (Except.bind_eq_ok _ _ _).mp hl
  have h₁ := Footprint.trans h (Footprint.ilock hdp hlock)
  split at hl
  · -- `name` is in `dp`
    rename_i ip off hfound
    have hip : Reach fs₀ ip := Confined.reach h₁ (reach_of_dirlookup hfound)
    obtain ⟨fs₂, hget, hl⟩ := (Except.bind_eq_ok _ _ _).mp hl
    obtain ⟨fs₃, hlock', hl⟩ := (Except.bind_eq_ok _ _ _).mp hl
    have h₃ := Footprint.trans (Footprint.trans (Footprint.trans h₁ (Footprint.iget hip hget))
      (Footprint.iput hdp)) (Footprint.ilock hip hlock')
    split_ifs at hl <;> simp only [Except.ok.injEq, Prod.mk.injEq] at hl <;> obtain ⟨rfl, rfl⟩ := hl
    · exact ⟨h₃, fun i hi => Option.some.inj hi ▸ hip⟩
    · exact ⟨Footprint.trans h₃ (Footprint.iput hip), by simp⟩
  · exact createNew_confined h₁ hdp hl

theorem create_confined {p : Fin NPROC} {path : List UInt8} {type : Nat} {r : Option Nat}
    (hl : create fs p path type = .ok (r, fs')) :
    Confined fs fs' ∧ ∀ i, r = some i → Reach fs i := by
  unfold create at hl
  obtain ⟨⟨r₁, fs₁⟩, hnamex, hl⟩ := (Except.bind_eq_ok _ _ _).mp hl
  obtain ⟨h₁, hr₁⟩ := namex_confined hnamex
  dsimp only at hl
  split at hl
  · simp only [Except.ok.injEq, Prod.mk.injEq] at hl
    obtain ⟨rfl, rfl⟩ := hl
    exact ⟨h₁, by simp⟩
  · rename_i dp name
    exact createIn_confined h₁ (hr₁ dp name rfl) hl

end Create

/-! ### The calls -/

section Calls

variable {fs₀ fs fs' : Fs} {p : Fin NPROC}

theorem Footprint.openFile {T : Nat → Prop} : Footprint fs (fs.openFile p) T where
  type _ _ := rfl
  nlink _ _ := rfl
  dir _ _ := rfl
  ref _ _ := rfl
  valid _ _ := rfl
  entry _ _ he := .inl he
  cwd _ := .inl rfl

/-- Current directories that move, move to inodes of `T`. -/
theorem Footprint.setCwd {T : Nat → Prop} {c : Fin NPROC → Nat} (hc : ∀ q, c q = fs.cwd q ∨ T (c q)) :
    Footprint fs { fs with cwd := c } T where
  type _ _ := rfl
  nlink _ _ := rfl
  dir _ _ := rfl
  ref _ _ := rfl
  valid _ _ := rfl
  entry _ _ he := .inl he
  cwd := hc

theorem sysOpenCreate_confined {path : List UInt8} {r : Int}
    (hl : sysOpenCreate fs p path = .ok (r, fs')) : Confined fs fs' := by
  unfold sysOpenCreate at hl
  obtain ⟨⟨r₁, fs₁⟩, hcreate, hl⟩ := (Except.bind_eq_ok _ _ _).mp hl
  obtain ⟨h₁, hr₁⟩ := create_confined hcreate
  dsimp only at hl
  split at hl
  · simp only [Except.ok.injEq, Prod.mk.injEq] at hl
    obtain ⟨rfl, rfl⟩ := hl
    exact h₁
  · rename_i ip
    split_ifs at hl <;> simp only [Except.ok.injEq, Prod.mk.injEq] at hl <;> obtain ⟨rfl, rfl⟩ := hl
    · exact Footprint.trans h₁ (Footprint.iput (hr₁ ip rfl))
    · exact Footprint.trans h₁ Footprint.openFile

/-- `sys_mkdir` and `sys_mknod`: `create`, and the inode it returns put. -/
theorem create_iput_confined {path : List UInt8} {type : Nat} {r : Int}
    (hl : (do
      let (r, fs) ← create fs p path type
      match r with
      | none => .ok (-1, fs)
      | some ip => .ok (0, fs.iput ip) : Except String (Int × Fs)) = .ok (r, fs')) :
    Confined fs fs' := by
  obtain ⟨⟨r₁, fs₁⟩, hcreate, hl⟩ := (Except.bind_eq_ok _ _ _).mp hl
  obtain ⟨h₁, hr₁⟩ := create_confined hcreate
  dsimp only at hl
  split at hl <;> simp only [Except.ok.injEq, Prod.mk.injEq] at hl <;> obtain ⟨rfl, rfl⟩ := hl
  · exact h₁
  · exact Footprint.trans h₁ (Footprint.iput (hr₁ _ rfl))

theorem sysChdir_confined {path : List UInt8} {r : Int}
    (hl : sysChdir fs p path = .ok (r, fs')) : Confined fs fs' := by
  unfold sysChdir at hl
  obtain ⟨⟨r₁, fs₁⟩, hnamex, hl⟩ := (Except.bind_eq_ok _ _ _).mp hl
  obtain ⟨h₁, hr₁⟩ := namex_confined hnamex
  dsimp only at hl
  split at hl
  · simp only [Except.ok.injEq, Prod.mk.injEq] at hl
    obtain ⟨rfl, rfl⟩ := hl
    exact h₁
  · rename_i ip name
    have hip := hr₁ ip name rfl
    obtain ⟨fs₂, hlock, hl⟩ := (Except.bind_eq_ok _ _ _).mp hl
    have h₂ := Footprint.trans h₁ (Footprint.ilock hip hlock)
    split_ifs at hl <;> simp only [Except.ok.injEq, Prod.mk.injEq] at hl <;> obtain ⟨rfl, rfl⟩ := hl
    · exact Footprint.trans h₂ (Footprint.iput hip)
    · -- the old current directory is one `fs₂` reaches
      have hold : Reach fs (fs₂.cwd p) := Confined.reach h₂ (.inr (.inl ⟨p, rfl⟩))
      refine Footprint.trans (Footprint.trans h₂ (Footprint.iput hold)) (Footprint.setCwd fun q => ?_)
      by_cases hq : q = p
      · subst hq
        exact .inr (by simpa using hip)
      · exact .inl (by simp [Function.update_of_ne hq])

theorem unlinkAt_confined {dp ip off : Nat} {r : Int} (h : Confined fs₀ fs) (hdp : Reach fs₀ dp)
    (hip : Reach fs₀ ip) (hl : unlinkAt fs dp ip off = .ok (r, fs')) : Confined fs₀ fs' := by
  unfold unlinkAt at hl
  obtain ⟨fs₁, hget, hl⟩ := (Except.bind_eq_ok _ _ _).mp hl
  obtain ⟨fs₂, hlock, hl⟩ := (Except.bind_eq_ok _ _ _).mp hl
  have h₂ := Footprint.trans (Footprint.trans h (Footprint.iget hip hget)) (Footprint.ilock hip hlock)
  split_ifs at hl with hn hd <;> simp only [Except.ok.injEq, Prod.mk.injEq] at hl <;>
    obtain ⟨rfl, rfl⟩ := hl
  · exact (Footprint.trans h₂ (Footprint.iput hip)).trans (Footprint.iput hdp)
  · -- the entry zeroed in place, and a directory's parent one link less
    have h₃ := Footprint.trans h₂ (Footprint.setDir (l := (fs₂.dir dp).set off ⟨0, List.replicate DIRSIZ 0⟩) hdp fun e he =>
      (List.mem_or_eq_of_mem_set he).imp_right fun he => .inl (by rw [he]))
    exact (((h₃.trans (Footprint.ite _ (Footprint.setNlink hdp _) (Footprint.refl _ _))).trans
      (Footprint.iput hdp)).trans (Footprint.setNlink hip _)).trans (Footprint.iput hip)

theorem sysUnlink_confined {path : List UInt8} {r : Int}
    (hl : sysUnlink fs p path = .ok (r, fs')) : Confined fs fs' := by
  unfold sysUnlink at hl
  obtain ⟨⟨r₁, fs₁⟩, hnamex, hl⟩ := (Except.bind_eq_ok _ _ _).mp hl
  obtain ⟨h₁, hr₁⟩ := namex_confined hnamex
  dsimp only at hl
  split at hl
  · simp only [Except.ok.injEq, Prod.mk.injEq] at hl
    obtain ⟨rfl, rfl⟩ := hl
    exact h₁
  · rename_i dp name
    have hdp := hr₁ dp name rfl
    obtain ⟨fs₂, hlock, hl⟩ := (Except.bind_eq_ok _ _ _).mp hl
    have h₂ : Confined fs fs₂ := Footprint.trans h₁ (Footprint.ilock hdp hlock)
    split_ifs at hl
    · simp only [Except.ok.injEq, Prod.mk.injEq] at hl
      obtain ⟨rfl, rfl⟩ := hl
      exact Footprint.trans h₂ (Footprint.iput hdp)
    · split at hl
      · simp only [Except.ok.injEq, Prod.mk.injEq] at hl
        obtain ⟨rfl, rfl⟩ := hl
        exact Footprint.trans h₂ (Footprint.iput hdp)
      · rename_i ip off hfound
        exact unlinkAt_confined h₂ hdp (Confined.reach h₂ (reach_of_dirlookup hfound)) hl

theorem linkBad_confined {ip : Nat} {r : Int} (h : Confined fs₀ fs) (hip : Reach fs₀ ip)
    (hl : linkBad fs ip = .ok (r, fs')) : Confined fs₀ fs' := by
  unfold linkBad at hl
  obtain ⟨fs₁, hlock, hl⟩ := (Except.bind_eq_ok _ _ _).mp hl
  simp only [Except.ok.injEq, Prod.mk.injEq] at hl
  obtain ⟨rfl, rfl⟩ := hl
  exact ((Footprint.trans h (Footprint.ilock hip hlock)).trans (Footprint.setNlink hip _)).trans
    (Footprint.iput hip)

theorem sysLink_confined {old new : List UInt8} {r : Int}
    (hl : sysLink fs p old new = .ok (r, fs')) : Confined fs fs' := by
  unfold sysLink at hl
  obtain ⟨⟨r₁, fs₁⟩, hnamex, hl⟩ := (Except.bind_eq_ok _ _ _).mp hl
  obtain ⟨h₁, hr₁⟩ := namex_confined hnamex
  dsimp only at hl
  split at hl
  · simp only [Except.ok.injEq, Prod.mk.injEq] at hl
    obtain ⟨rfl, rfl⟩ := hl
    exact h₁
  · rename_i ip name
    have hip := hr₁ ip name rfl
    obtain ⟨fs₂, hlock, hl⟩ := (Except.bind_eq_ok _ _ _).mp hl
    have h₂ : Confined fs fs₂ := Footprint.trans h₁ (Footprint.ilock hip hlock)
    split_ifs at hl
    · simp only [Except.ok.injEq, Prod.mk.injEq] at hl
      obtain ⟨rfl, rfl⟩ := hl
      exact Footprint.trans h₂ (Footprint.iput hip)
    · -- the link is counted before `new` is looked up
      have h₃ : Confined fs (fs₂.setNlink ip (fs₂.nlink ip + 1)) :=
        Footprint.trans h₂ (Footprint.setNlink hip _)
      obtain ⟨⟨r₄, fs₄⟩, hnamex', hl⟩ := (Except.bind_eq_ok _ _ _).mp hl
      obtain ⟨h₄, hr₄⟩ := namex_confined hnamex'
      have h₄' : Confined fs fs₄ := h₃.trans h₄
      dsimp only at hl
      split at hl
      · exact linkBad_confined h₄' hip hl
      · rename_i dp name'
        have hdp : Reach fs dp := Confined.reach h₃ (hr₄ dp name' rfl)
        obtain ⟨fs₅, hlock', hl⟩ := (Except.bind_eq_ok _ _ _).mp hl
        have h₅ : Confined fs fs₅ := Footprint.trans h₄' (Footprint.ilock hdp hlock')
        obtain ⟨⟨r₆, fs₆⟩, hlink, hl⟩ := (Except.bind_eq_ok _ _ _).mp hl
        have h₆ := dirlink_confined h₅ hdp hip hlink
        dsimp only at hl
        split_ifs at hl
        · exact linkBad_confined (Footprint.trans h₆ (Footprint.iput hdp)) hip hl
        · simp only [Except.ok.injEq, Prod.mk.injEq] at hl
          obtain ⟨rfl, rfl⟩ := hl
          exact (Footprint.trans h₆ (Footprint.iput hdp)).trans (Footprint.iput hip)

/-- Every call changes only what the state it starts from reaches. -/
theorem call_confined {c : Call} {r : Int} (hl : fs.call p c = .ok (r, fs')) : Confined fs fs' := by
  cases c with
  | link old new => exact sysLink_confined hl
  | unlink path => exact sysUnlink_confined hl
  | openCreate path => exact sysOpenCreate_confined hl
  | mkdir path => exact create_iput_confined hl
  | mknod path => exact create_iput_confined hl
  | chdir path => exact sysChdir_confined hl

end Calls

/-- A run changes only what the state it starts from reaches. -/
theorem run_confined {fs fs' : Fs} {cs : List (Fin NPROC × Call)} (hl : run fs cs = .ok fs') :
    Confined fs fs' := by
  induction cs generalizing fs with
  | nil =>
    cases hl
    exact Confined.refl _
  | cons pc cs ih =>
    obtain ⟨p, c⟩ := pc
    obtain ⟨⟨r, fs₁⟩, hcall, hl⟩ := (Except.bind_eq_ok _ _ _).mp hl
    exact (call_confined hcall).trans (ih hl)

/-! ### What runs keep -/

section Runs

variable {fs fs' : Fs} {cs : List (Fin NPROC × Call)} {x : Nat}

/-- Inode `x` is allocated and nothing reaches it: it is not the root, no process is in it,
and no entry names it. -/
structure Leaked (fs : Fs) (x : Nat) : Prop where
  pos : 0 < x
  alloc : fs.type x ≠ 0
  root : x ≠ ROOTINO
  cwd : ∀ q, fs.cwd q ≠ x
  unnamed : ¬ Named fs x

theorem Leaked.not_reach (h : Leaked fs x) : ¬ Reach fs x := by
  rintro (hr | ⟨q, hq⟩ | ⟨-, hn⟩ | ⟨-, -, hfree⟩)
  · exact h.root hr
  · exact h.cwd q hq
  · exact h.unnamed hn
  · exact h.alloc hfree

/-- A confined change leaves an unreachable inode unreachable, with its type and links. -/
theorem Leaked.confined (h : Leaked fs x) (hc : Confined fs fs') :
    Leaked fs' x ∧ fs'.type x = fs.type x ∧ fs'.nlink x = fs.nlink x := by
  have hx := h.not_reach
  refine ⟨⟨h.pos, ?_, h.root, fun q hq => ?_, ?_⟩, hc.type x hx, hc.nlink x hx⟩
  · rw [hc.type x hx]
    exact h.alloc
  · rcases hc.cwd q with hq' | hq'
    · exact h.cwd q (hq'.symm.trans hq)
    · exact hx (hq ▸ hq')
  · rintro ⟨d, e, he, rfl⟩
    rcases hc.entry d e he with he' | h0 | hr
    · exact h.unnamed ⟨d, e, he', rfl⟩
    · exact (Nat.pos_iff_ne_zero.mp h.pos) h0
    · exact hx hr

/-- Along every run, an unreachable inode stays allocated with its links: it is never freed. -/
theorem Leaked.run (h : Leaked fs x) (hl : run fs cs = .ok fs') :
    Leaked fs' x ∧ fs'.type x = fs.type x ∧ fs'.nlink x = fs.nlink x :=
  h.confined (run_confined hl)

/-- No entry, in a linked directory or not, names an unreachable inode. -/
theorem Leaked.linkedEntries (h : Leaked fs x) : linkedEntries fs x = 0 := by
  unfold Xv6.Names.linkedEntries
  refine List.sum_eq_zero_iff_forall_eq_nat.mpr fun n hn => ?_
  obtain ⟨d, -, rfl⟩ := List.mem_map.mp hn
  refine List.length_eq_zero_iff.mpr (List.filter_eq_nil_iff.mpr fun e he hx => ?_)
  simp only [decide_eq_true_eq] at hx
  exact h.unnamed ⟨d, e, he, hx.1⟩

/-- Inode numbers stay below `NINODES`: in entries, in current directories, and as
directories. -/
structure Bounded (fs : Fs) : Prop where
  entry : ∀ d, ∀ e ∈ fs.dir d, e.inum < NINODES
  cwd : ∀ q, fs.cwd q < NINODES
  dir : ∀ d, NINODES ≤ d → fs.dir d = []

theorem Bounded.reach (h : Bounded fs) {j : Nat} (hj : Reach fs j) : j < NINODES := by
  rcases hj with rfl | ⟨q, rfl⟩ | ⟨-, d, e, he, rfl⟩ | ⟨-, hlt, -⟩
  · decide
  · exact h.cwd q
  · exact h.entry d e he
  · exact hlt

theorem Bounded.confined (h : Bounded fs) (hc : Confined fs fs') : Bounded fs' where
  entry d e he := by
    rcases hc.entry d e he with he' | h0 | hr
    · exact h.entry d e he'
    · rw [h0]
      decide
    · exact h.reach hr
  cwd q := by
    rcases hc.cwd q with hq | hq
    · rw [hq]
      exact h.cwd q
    · exact h.reach hq
  dir d hd := by
    rw [hc.dir d fun hr => absurd (h.reach hr) (Nat.not_lt.mpr hd)]
    exact h.dir d hd

theorem bounded_boot : Bounded Fs.boot where
  entry d e he := by
    dsimp only [Fs.boot] at he
    split_ifs at he
    · simp only [List.mem_cons, List.not_mem_nil, or_false] at he
      rcases he with rfl | rfl <;> decide
    · simp at he
  cwd _ := show ROOTINO < NINODES by decide
  dir d hd := by
    have : d ≠ ROOTINO := by unfold ROOTINO NINODES at *; omega
    simp [Fs.boot, this]

theorem Bounded.run (h : Bounded fs) (hl : run fs cs = .ok fs') : Bounded fs' :=
  h.confined (run_confined hl)

end Runs

/-! ### A file nothing links and nothing frees -/

/-- Process 0 makes `/d`, moves into it, unlinks it, creates `x` in it and moves back to `/`,
which frees `d` and its entry for `x`. -/
def orphanCalls : List (Fin NPROC × Call) :=
  [(⟨0, NPROC_pos⟩, .mkdir (cstr "/d")), (⟨0, NPROC_pos⟩, .chdir (cstr "/d")),
    (⟨0, NPROC_pos⟩, .unlink (cstr "/d")), (⟨0, NPROC_pos⟩, .openCreate (cstr "x")),
    (⟨0, NPROC_pos⟩, .chdir (cstr "/"))]

/-- Where `orphanCalls` ends: `x` is inode 3, a file with one link, and nothing reaches it. -/
theorem orphanCalls_run : ∃ fs, run Fs.boot orphanCalls = .ok fs ∧ fs.type 3 = T_FILE ∧
    fs.nlink 3 = 1 ∧ (∀ q, fs.cwd q ≠ 3) ∧ ∀ d < NINODES, ∀ e ∈ fs.dir d, e.inum ≠ 3 := by
  refine ⟨_, rfl, ?_⟩
  decide +kernel

theorem create_in_unlinked_dir_leaks :
    ∃ fs, run Fs.boot orphanCalls = .ok fs ∧ ∀ cs fs', run fs cs = .ok fs' →
      fs'.type 3 = T_FILE ∧ fs'.nlink 3 = 1 ∧ linkedEntries fs' 3 = 0 := by
  obtain ⟨fs, hrun, htype, hnlink, hcwd, hdir⟩ := orphanCalls_run
  have hb : Bounded fs := bounded_boot.run hrun
  -- directories past `NINODES` are empty, so no entry names `x`
  have hunnamed : ¬ Named fs 3 := by
    rintro ⟨d, e, he, hx⟩
    by_cases hd : d < NINODES
    · exact hdir d hd e he hx
    · rw [hb.dir d (Nat.not_lt.mp hd)] at he
      cases he
  have hleak : Leaked fs 3 := ⟨by decide, by rw [htype]; decide, by decide, hcwd, hunnamed⟩
  refine ⟨fs, hrun, fun cs fs' hl => ?_⟩
  obtain ⟨hleak', htype', hnlink'⟩ := hleak.run hl
  exact ⟨htype'.trans htype, hnlink'.trans hnlink, hleak'.linkedEntries⟩

end Xv6.Names
