import Xv6.Inode.Refcount

/-!
# What `iput` frees

`iput` reads `ref` under `icache.lock` at its check, and frees the inode later, under the
entry's sleep-lock only. Other processes run in between, and none of them can give the entry
another reference or change what the check saw:

* the sleep-lock, taken before the check and held to the release, keeps `ilock`, `iunlock` and
  the link-count updates of `sys_link` and `sys_unlink` off the entry (`Putting.locked`);
* an entry that is valid and referred to holds the on-disk inode as the disk has it
  (`Coherent`). So a named `iget`, which asks for a linked inode, cannot be for an entry found
  unlinked, and `ialloc`'s `iget`, which asks for an inode free on disk, cannot be for a valid one;
* `idup` and `fork` copy a reference somebody holds, and the `iput`'s is the only one.

So from the check to the free step the entry keeps `ref` 1, stays valid and has no links
(`Putting.freeing`). When `iput` frees the inode, its own reference is the only one: no open
file, no current directory but the one it puts, and no other call refers to it
(`inodesAccounted_of_reach`).
-/

namespace Xv6.Inodes

/-! ### Entries hold what the disk holds -/

/-- Every entry that is valid and referred to holds the on-disk inode as the disk has it, and
its type is not 0. -/
def Coherent (k : Kernel) : Prop :=
  ∀ e, 0 < (k.icache e).ref → (k.icache e).valid = true →
    k.disk (k.icache e).dev (k.icache e).inum = ⟨(k.icache e).type, (k.icache e).nlink⟩ ∧
      (k.icache e).type ≠ 0

section Coherent

variable {k k' : Kernel}

theorem Coherent.of_eq (hc : Coherent k) (hi : k'.icache = k.icache) (hd : k'.disk = k.disk) :
    Coherent k' := by
  intro e
  rw [hi, hd]
  exact hc e

/-- An entry changed into one that holds the disk's inode, if it is valid and referred to. -/
theorem Coherent.setInode (hc : Coherent k) {e : Fin NINODE} {ip : Inode}
    (h : 0 < ip.ref → ip.valid = true → k.disk ip.dev ip.inum = ⟨ip.type, ip.nlink⟩ ∧ ip.type ≠ 0) :
    Coherent (k.setInode e ip) := by
  intro x
  by_cases hx : x = e
  · subst hx
    simpa using h
  · simpa [Function.update_of_ne hx] using hc x

/-- An entry that keeps its inode and its copy of it, and is referred to only if it was. -/
theorem Coherent.keep (hc : Coherent k) {e : Fin NINODE} {ip : Inode}
    (hdev : ip.dev = (k.icache e).dev) (hinum : ip.inum = (k.icache e).inum)
    (hvalid : ip.valid = (k.icache e).valid) (htype : ip.type = (k.icache e).type)
    (hnlink : ip.nlink = (k.icache e).nlink) (hpos : 0 < ip.ref → 0 < (k.icache e).ref) :
    Coherent (k.setInode e ip) :=
  hc.setInode fun hr hv => by
    rw [hdev, hinum, htype, hnlink]
    exact hc e (hpos hr) (hvalid ▸ hv)

/-- `iget` counts a reference to an entry already referred to, or recycles one as not valid. -/
theorem Coherent.iget (hc : Coherent k) {dev inum : Nat} {e : Fin NINODE} {k₁ : Kernel}
    (h : k.iget dev inum = .ok (e, k₁)) : Coherent k₁ := by
  rcases Kernel.iget_ok h with ⟨hcached, rfl⟩ | ⟨-, -, rfl⟩
  · have hpos : 0 < (k.icache e).ref := by
      have := Kernel.caches_of_cached hcached
      simp only [Kernel.caches, Bool.and_eq_true, decide_eq_true_eq] at this
      exact this.1.1
    exact hc.keep rfl rfl rfl rfl rfl fun _ => hpos
  · exact hc.setInode fun _ hv => by simp [Inode.recycle] at hv

/-- A write of an on-disk inode that no valid entry somebody refers to caches. -/
theorem Coherent.setDisk (hc : Coherent k) {dev inum : Nat} {d : DInode}
    (hnone : ∀ x, 0 < (k.icache x).ref → (k.icache x).valid = true →
      ¬ ((k.icache x).dev = dev ∧ (k.icache x).inum = inum)) :
    Coherent (k.setDisk dev inum d) := by
  intro x hx hv
  rw [Kernel.setDisk_icache] at hx hv ⊢
  rw [Kernel.disk_setDisk, if_neg (hnone x hx hv)]
  exact hc x hx hv

/-- `ialloc` writes an inode free on disk, which no valid entry somebody refers to caches: its
type would not be 0. -/
theorem Coherent.ialloc (hc : Coherent k) {dev type inum : Nat} (h : k.ialloc dev type = .ok (inum, k')) :
    Coherent k' := by
  obtain ⟨hfree, rfl⟩ := Kernel.ialloc_ok h
  refine hc.setDisk fun x hx hv ⟨hd, hi⟩ => ?_
  obtain ⟨hdisk, htype⟩ := hc x hx hv
  have hsame : (k.disk dev inum).type = (k.icache x).type := by rw [← hd, ← hi, hdisk]
  exact htype (hsame.symm.trans hfree)

/-- `ip->nlink = n; iupdate(ip)` writes the entry and its on-disk inode alike. Another entry
caching that inode is not referred to, since this one is. -/
theorem Coherent.setNlink (hc : Coherent k) (hu : Unique k.icache) {e : Fin NINODE} (n : Nat)
    (hpos : 0 < (k.icache e).ref) : Coherent (k.setNlink e n) := by
  intro x hx hv
  simp only [Kernel.setNlink, Kernel.setDisk_icache, Kernel.setInode_icache] at hx hv ⊢
  rw [Kernel.disk_setDisk]
  by_cases hxe : x = e
  · subst hxe
    simp only [Function.update_self] at hx hv ⊢
    exact ⟨by simp, (hc x hpos hv).2⟩
  · rw [Function.update_of_ne hxe] at hx hv ⊢
    have hne : ¬ ((k.icache x).dev = (k.icache e).dev ∧ (k.icache x).inum = (k.icache e).inum) :=
      fun ⟨hd, hi⟩ => hxe (hu x e hx hpos hd hi)
    rw [if_neg hne]
    exact hc x hx hv

/-- `iput`'s free step: the entry is no longer valid, and no other entry somebody refers to
caches the inode it writes. -/
theorem Coherent.free (hc : Coherent k) (hu : Unique k.icache) {e : Fin NINODE}
    (hpos : 0 < (k.icache e).ref) :
    Coherent ((k.setInode e { k.icache e with type := 0, valid := false }).setDisk
      (k.icache e).dev (k.icache e).inum ⟨0, (k.icache e).nlink⟩) := by
  have h₁ : Coherent (k.setInode e { k.icache e with type := 0, valid := false }) :=
    hc.setInode fun _ hv => by simp at hv
  refine h₁.setDisk fun x hx hv ⟨hd, hi⟩ => ?_
  simp only [Kernel.setInode_icache] at hx hv hd hi
  by_cases hxe : x = e
  · subst hxe
    simp at hv
  · rw [Function.update_of_ne hxe] at hx hv hd hi
    exact hxe (hu x e hx hpos hd hi)

/-- `ilock` takes the lock of an entry somebody refers to, reading the inode from the disk
when the entry is not valid. -/
theorem Coherent.ilock (hc : Coherent k) {p : Fin NPROC} {e : Fin NINODE} (h : k.ilock p e = .ok k') :
    Coherent k' := by
  dsimp only [Kernel.ilock] at h
  split at h
  · cases h
  split at h
  · cases h
    exact hc.keep rfl rfl rfl rfl rfl id
  split at h
  · cases h
  · rename_i _ _ htype
    cases h
    exact hc.setInode fun _ _ => ⟨rfl, htype⟩

theorem Coherent.iunlock (hc : Coherent k) {p : Fin NPROC} {e : Fin NINODE}
    (h : k.iunlock p e = .ok k') : Coherent k' := by
  dsimp only [Kernel.iunlock] at h
  split at h
  · cases h
  · cases h
    exact hc.keep rfl rfl rfl rfl rfl id

end Coherent

section Steps

variable {k k' : Kernel}

/-- Somebody holds a reference to an entry: it is counted in `ref`. -/
theorem Inv.ref_pos (hk : Inv k) {p : Fin NPROC} {e : Fin NINODE} (h : 1 ≤ (k.proc p).refs e) :
    0 < (k.icache e).ref := by
  rw [hk.acct e]
  exact Nat.lt_of_lt_of_le h (k.refs_le p e)

theorem Inv.ref_pos_of_iput (hk : Inv k) {p : Fin NPROC} {u : Iput} (hu : (k.proc p).iput = some u) :
    0 < (k.icache u.ip).ref := by
  rcases hk.one_le_refs_of_iput hu with ⟨-, h⟩ | ⟨-, h⟩
  · exact hk.ref_pos (Proc.one_le_refs_of_cwdRef h)
  · exact hk.ref_pos (Proc.one_le_refs_of_putting h)

theorem Coherent.iputStep (hc : Coherent k) (hk : Inv k) {p : Fin NPROC} {u : Iput}
    (hu : (k.proc p).iput = some u) : Coherent (k.iputStep p u) := by
  obtain ⟨e, ph, c⟩ := u
  have hpos := hk.ref_pos_of_iput hu
  cases ph with
  | acquire =>
    have h₁ : Coherent (k.setInode e { k.icache e with lock := some p }) :=
      hc.keep rfl rfl rfl rfl rfl id
    exact h₁.of_eq rfl rfl
  | check =>
    simp only [Kernel.iputStep]
    split <;> exact hc.of_eq rfl rfl
  | free => exact (hc.free hk.unique hpos).of_eq rfl rfl
  | release =>
    have h₁ : Coherent (k.setInode e { k.icache e with lock := none }) :=
      hc.keep rfl rfl rfl rfl rfl id
    exact h₁.of_eq rfl rfl
  | drop =>
    have h₁ : Coherent (k.setInode e { k.icache e with ref := (k.icache e).ref - 1 }) :=
      hc.keep rfl rfl rfl rfl rfl fun _ => hpos
    exact h₁.of_eq rfl rfl

/-- `idup` counts a reference to an entry somebody refers to. -/
theorem Coherent.idup (hc : Coherent k) {e : Fin NINODE} (hpos : 0 < (k.icache e).ref) :
    Coherent (k.idup e) :=
  hc.keep rfl rfl rfl rfl rfl fun _ => hpos

/-- Every step keeps the entries that are valid and referred to as the disk has them. -/
theorem Coherent.step (hc : Coherent k) (hk : Inv k) (hs : Step k k') : Coherent k' := by
  cases hs with
  | iget p dev inum _ _ _ h => exact (hc.iget h).of_eq rfl rfl
  | idup p e _ _ hheld =>
    exact (hc.idup (hk.ref_pos (Proc.one_le_refs_of_held hheld))).of_eq rfl rfl
  | idupCwd p e _ _ hcwd hfresh =>
    have hpos := hk.ref_pos (Proc.one_le_refs_of_cwdRef (Proc.cwdRef_eq hcwd hfresh))
    exact (hc.idup hpos).of_eq rfl rfl
  | ilock p e _ _ _ h => exact hc.ilock h
  | iunlock p e _ _ h => exact hc.iunlock h
  | setNlink p e n _ _ hheld _ =>
    exact hc.setNlink hk.unique n (hk.ref_pos (Proc.one_le_refs_of_held hheld))
  | ialloc p dev type _ _ h h' => exact ((hc.ialloc h).iget h').of_eq rfl rfl
  | iput p e _ _ _ => exact hc.of_eq rfl rfl
  | iputCwd p e _ _ _ _ => exact hc.of_eq rfl rfl
  | iputStep p u _ hu _ => exact hc.iputStep hk hu
  | fileOpen p f e _ _ _ _ => exact hc.of_eq rfl rfl
  | fileClose p f e _ _ _ => exact hc.of_eq rfl rfl
  | chdir p e _ _ _ _ => exact hc.of_eq rfl rfl
  | exit p _ _ _ _ => exact hc.of_eq rfl rfl
  | fork p c e _ _ _ hcwd hfresh =>
    have hpos := hk.ref_pos (Proc.one_le_refs_of_cwdRef (Proc.cwdRef_eq hcwd hfresh))
    exact (hc.idup hpos).of_eq rfl rfl
  | reap c _ => exact hc.of_eq rfl rfl

end Steps

/-! ### The `iput`s in progress -/

/-- Where the `iput`s in progress are: each holds its entry's sleep-lock from its check to its
release, and at its free step the entry has `ref` 1, is valid and has no links. -/
structure Putting (k : Kernel) : Prop where
  locked : ∀ p u, (k.proc p).iput = some u → u.phase ≠ .acquire → u.phase ≠ .drop →
    (k.icache u.ip).lock = some p
  freeing : ∀ p u, (k.proc p).iput = some u → u.phase = .free →
    (k.icache u.ip).ref = 1 ∧ (k.icache u.ip).valid = true ∧ (k.icache u.ip).nlink = 0

section Putting

variable {k k' : Kernel}

/-- A step of process `q`: the other processes' `iput`s stay where they are, their locked entries
stay locked, and the entries they are about to free are untouched; and `q`'s own `iput`, if any,
is where `Putting` says. -/
theorem Putting.of_step (hp : Putting k) (q : Fin NPROC)
    (hiput : ∀ p, p ≠ q → (k'.proc p).iput = (k.proc p).iput)
    (hlock : ∀ p u, p ≠ q → (k.proc p).iput = some u → (k.icache u.ip).lock = some p →
      (k'.icache u.ip).lock = some p)
    (hfree : ∀ p u, p ≠ q → (k.proc p).iput = some u → u.phase = .free →
      k'.icache u.ip = k.icache u.ip)
    (hown : ∀ u, (k'.proc q).iput = some u →
      (u.phase ≠ .acquire → u.phase ≠ .drop → (k'.icache u.ip).lock = some q) ∧
      (u.phase = .free →
        (k'.icache u.ip).ref = 1 ∧ (k'.icache u.ip).valid = true ∧ (k'.icache u.ip).nlink = 0)) :
    Putting k' where
  locked p u hu h₁ h₂ := by
    by_cases hpq : p = q
    · subst hpq
      exact (hown u hu).1 h₁ h₂
    · rw [hiput p hpq] at hu
      exact hlock p u hpq hu (hp.locked p u hu h₁ h₂)
  freeing p u hu hph := by
    by_cases hpq : p = q
    · subst hpq
      exact (hown u hu).2 hph
    · rw [hiput p hpq] at hu
      rw [hfree p u hpq hu hph]
      exact hp.freeing p u hu hph

/-- A step of a process with no `iput` in progress that changes one entry: the others' locked
entries keep their locks, and no entry about to be freed is the one changed. -/
theorem Putting.setEntry (hp : Putting k) {q : Fin NPROC} (hnone : (k.proc q).iput = none)
    {e : Fin NINODE} {ip : Inode} (hic : k'.icache = Function.update k.icache e ip)
    (hiput : ∀ p, (k'.proc p).iput = (k.proc p).iput)
    (hlock : ∀ p, (k.icache e).lock = some p → (∃ u, (k.proc p).iput = some u ∧ u.ip = e) →
      ip.lock = some p)
    (hfree : ∀ p u, (k.proc p).iput = some u → u.phase = .free → u.ip ≠ e) : Putting k' := by
  refine hp.of_step q (fun p _ => hiput p) (fun p u _ hu hl => ?_) (fun p u _ hu hph => ?_)
    (fun u hu => ?_)
  · rw [hic]
    by_cases he : u.ip = e
    · rw [he, Function.update_self]
      rw [he] at hl
      exact hlock p hl ⟨u, hu, he⟩
    · rw [Function.update_of_ne he]
      exact hl
  · rw [hic, Function.update_of_ne (hfree p u hu hph)]
  · rw [hiput, hnone] at hu
    cases hu

/-- A step that changes no entry and no process's `iput`. -/
theorem Putting.of_icache (hp : Putting k) (hic : k'.icache = k.icache)
    (hiput : ∀ p, (k'.proc p).iput = (k.proc p).iput) : Putting k' where
  locked p u hu := by
    rw [hiput] at hu
    rw [hic]
    exact hp.locked p u hu
  freeing p u hu := by
    rw [hiput] at hu
    rw [hic]
    exact hp.freeing p u hu

/-- A process changed into one with the same `iput` keeps every `iput` where it was. -/
theorem iput_setProc {q : Fin NPROC} {pr : Proc} (h : pr.iput = (k.proc q).iput) (p : Fin NPROC) :
    ((k.setProc q pr).proc p).iput = (k.proc p).iput := by
  by_cases hpq : p = q
  · subst hpq
    simpa using h
  · simp [Function.update_of_ne hpq]

theorem iput_hold (q p : Fin NPROC) (e : Fin NINODE) :
    ((k.hold q e).proc p).iput = (k.proc p).iput :=
  iput_setProc (by rfl) p

/-- A step of `q`'s `iput` moves it to its next phase. -/
theorem iput_setPhase_self (q : Fin NPROC) (v : Iput) (ph : Phase) :
    ((k.setPhase q v ph).proc q).iput = some { v with phase := ph } := by
  simp [Kernel.setPhase]

/-- The entry an `iput` is about to free is unlinked on disk, so a named `iget` is not for it. -/
theorem Putting.unlinked (hp : Putting k) (hc : Coherent k) {p : Fin NPROC} {u : Iput}
    (hu : (k.proc p).iput = some u) (hph : u.phase = .free) {dev inum : Nat}
    (hcaches : Kernel.caches (k.icache u.ip) dev inum = true) : (k.disk dev inum).nlink = 0 := by
  obtain ⟨h1, hv, hn⟩ := hp.freeing p u hu hph
  simp only [Kernel.caches, Bool.and_eq_true, decide_eq_true_eq, beq_iff_eq] at hcaches
  obtain ⟨⟨-, hd⟩, hi⟩ := hcaches
  have hdisk := (hc u.ip (by omega) hv).1
  rw [hd, hi] at hdisk
  rw [hdisk, hn]

/-- An entry about to be freed is valid and referred to, so its inode has a type on disk, and
`ialloc`'s `iget` is not for it. -/
theorem Putting.allocated (hp : Putting k) (hc : Coherent k) {p : Fin NPROC} {u : Iput}
    (hu : (k.proc p).iput = some u) (hph : u.phase = .free) {dev inum : Nat}
    (hcaches : Kernel.caches (k.icache u.ip) dev inum = true) : (k.disk dev inum).type ≠ 0 := by
  obtain ⟨h1, hv, -⟩ := hp.freeing p u hu hph
  simp only [Kernel.caches, Bool.and_eq_true, decide_eq_true_eq, beq_iff_eq] at hcaches
  obtain ⟨⟨-, hd⟩, hi⟩ := hcaches
  obtain ⟨hdisk, htype⟩ := hc u.ip (by omega) hv
  rw [hd, hi] at hdisk
  rw [hdisk]
  exact htype

/-- An entry about to be freed has `ref` 1: its `iput`'s reference is the only one. -/
theorem Putting.sole (hp : Putting k) (hk : Inv k) {p : Fin NPROC} {u : Iput}
    (hu : (k.proc p).iput = some u) (hph : u.phase = .free) :
    (∀ f, k.file f ≠ some u.ip) ∧
      (∀ q, (k.proc q).cwdRef = some u.ip → q = p ∧ u.ofCwd = true) ∧
      (∀ q, u.ip ∉ (k.proc q).held) ∧
      (∀ q v, (k.proc q).iput = some v → v.ip = u.ip → q = p) :=
  hk.sole_of_ref_eq_one hu (hp.freeing p u hu hph).1

/-- An `iput` about to free its entry holds its lock, so the lock is not free. -/
theorem Putting.lock_of_free (hp : Putting k) {p : Fin NPROC} {u : Iput}
    (hu : (k.proc p).iput = some u) (hph : u.phase = .free) : (k.icache u.ip).lock = some p :=
  hp.locked p u hu (by rw [hph]; decide) (by rw [hph]; decide)

/-! #### What each step keeps -/

variable {q : Fin NPROC}

/-- `iget` of an inode no entry about to be freed caches: it counts one more reference to
another entry, or recycles one nobody refers to. -/
theorem Putting.iget (hp : Putting k) (hnone : (k.proc q).iput = none) {dev inum : Nat}
    (hnot : ∀ p u, (k.proc p).iput = some u → u.phase = .free →
      Kernel.caches (k.icache u.ip) dev inum = false)
    {e : Fin NINODE} {k₁ : Kernel} (h : k.iget dev inum = .ok (e, k₁)) : Putting (k₁.hold q e) := by
  rcases Kernel.iget_ok h with ⟨hcached, rfl⟩ | ⟨-, hempty, rfl⟩
  · refine hp.setEntry hnone rfl (fun p => iput_hold q p e) (fun _ hl _ => hl)
      fun p u hu hph he => ?_
    have := Kernel.caches_of_cached hcached
    rw [← he, hnot p u hu hph] at this
    cases this
  · refine hp.setEntry hnone rfl (fun p => iput_hold q p e) (fun _ hl _ => hl)
      fun p u hu hph he => ?_
    have h0 := Kernel.ref_of_empty hempty
    rw [← he, (hp.freeing p u hu hph).1] at h0
    cases h0

/-- `idup` of an entry no `iput` is about to free. -/
theorem Putting.idup (hp : Putting k) (hnone : (k.proc q).iput = none) {e : Fin NINODE}
    (hnot : ∀ p u, (k.proc p).iput = some u → u.phase = .free → u.ip ≠ e) :
    Putting ((k.idup e).hold q e) :=
  hp.setEntry hnone rfl (fun p => iput_hold q p e) (fun _ hl _ => hl) hnot

theorem Putting.ilock (hp : Putting k) (hnone : (k.proc q).iput = none) {e : Fin NINODE}
    (hfree : (k.icache e).lock = none) (h : k.ilock q e = .ok k') : Putting k' := by
  -- the lock was free, so no `iput` holds it
  have hnot (p : Fin NPROC) (hl : (k.icache e).lock = some p) : False := by
    rw [hfree] at hl
    cases hl
  have hother : ∀ p u, (k.proc p).iput = some u → u.phase = .free → u.ip ≠ e :=
    fun p u hu hph he => hnot p (he ▸ hp.lock_of_free hu hph)
  dsimp only [Kernel.ilock] at h
  split at h
  · cases h
  split at h
  · cases h
    exact hp.setEntry hnone rfl (fun _ => rfl) (fun p hl _ => (hnot p hl).elim) hother
  split at h
  · cases h
  · cases h
    exact hp.setEntry hnone rfl (fun _ => rfl) (fun p hl _ => (hnot p hl).elim) hother

theorem Putting.iunlock (hp : Putting k) (hnone : (k.proc q).iput = none) {e : Fin NINODE}
    (h : k.iunlock q e = .ok k') : Putting k' := by
  dsimp only [Kernel.iunlock] at h
  split at h
  · cases h
  · rename_i hcond
    cases h
    have hq : (k.icache e).lock = some q := by
      by_contra hne
      exact hcond (.inl hne)
    -- the lock is `q`'s, and `q` has no `iput` in progress
    have hnot (p : Fin NPROC) (u : Iput) (hu : (k.proc p).iput = some u)
        (hl : (k.icache e).lock = some p) : False := by
      rw [hq, Option.some.injEq] at hl
      subst hl
      rw [hnone] at hu
      cases hu
    exact hp.setEntry hnone rfl (fun _ => rfl) (fun p hl ⟨u, hu, _⟩ => (hnot p u hu hl).elim)
      fun p u hu hph he => hnot p u hu (he ▸ hp.lock_of_free hu hph)

theorem Putting.setNlink (hp : Putting k) (hnone : (k.proc q).iput = none) {e : Fin NINODE}
    (hlock : (k.icache e).lock = some q) (n : Nat) : Putting (k.setNlink e n) := by
  refine hp.setEntry hnone rfl (fun _ => rfl) (fun _ hl _ => hl) fun p u hu hph he => ?_
  have hl := hp.lock_of_free hu hph
  rw [he, hlock, Option.some.injEq] at hl
  subst hl
  rw [hnone] at hu
  cases hu

/-- `iput` or `iputCwd` starts: the new `iput` waits for the lock. -/
theorem Putting.startIput (hp : Putting k) {k₀ : Kernel} (hic : k₀.icache = k.icache)
    (hproc : ∀ p, p ≠ q → k₀.proc p = k.proc p) (u : Iput) (hacq : u.phase = .acquire) :
    Putting (k₀.startIput q u) := by
  refine hp.of_step q (fun p hpq => ?_) (fun p u _ _ hl => ?_) (fun p u _ _ _ => ?_)
    fun v hv => ?_
  · simp [Function.update_of_ne hpq, hproc p hpq]
  · simpa [hic] using hl
  · simp [hic]
  · simp only [Kernel.startIput_eq, Kernel.setProc_proc, Function.update_self,
      Option.some.injEq] at hv
    subst hv
    rw [hacq]
    exact ⟨fun h => absurd rfl h, fun h => absurd h (by decide)⟩

/-- A step of the `iput` of process `q`. The lock it takes was free, the lock it keeps or
releases is its own, and the reference it drops is not that of an entry another `iput` is
about to free, which has only one. -/
theorem Putting.iputStep (hp : Putting k) (hk : Inv k) {v : Iput} (hv : (k.proc q).iput = some v)
    (hacq : v.phase = .acquire → (k.icache v.ip).lock = none) : Putting (k.iputStep q v) := by
  obtain ⟨e, ph, c⟩ := v
  -- no other `iput` about to free holds `e`'s lock, when `q`'s does
  have hmine (hq : (k.icache e).lock = some q) (p : Fin NPROC) (hpq : p ≠ q) (u : Iput)
      (hu : (k.proc p).iput = some u) (hl : (k.icache u.ip).lock = some p) : u.ip ≠ e := by
    intro he
    rw [he, hq, Option.some.injEq] at hl
    exact hpq hl.symm
  have hiput (ph' : Phase) (k₀ : Kernel) (p : Fin NPROC) (hpq : p ≠ q) :
      ((k₀.setPhase q ⟨e, ph, c⟩ ph').proc p).iput = (k₀.proc p).iput := by
    simp [Kernel.setPhase, Function.update_of_ne hpq]
  cases ph with
  | acquire =>
    have hfree := hacq rfl
    refine hp.of_step q (fun p hpq => hiput _ _ p hpq) (fun p u _ hu hl => ?_) (fun p u _ hu hph => ?_)
      fun u hu => ?_
    · have hne : u.ip ≠ e := fun he => by rw [he, hfree] at hl; cases hl
      simpa [Kernel.iputStep, Kernel.setPhase, Function.update_of_ne hne] using hl
    · have hne : u.ip ≠ e := fun he => by
        have := hp.lock_of_free hu hph
        rw [he, hfree] at this
        cases this
      simp [Kernel.iputStep, Kernel.setPhase, Function.update_of_ne hne]
    · simp only [Kernel.iputStep, iput_setPhase_self, Option.some.injEq] at hu
      subst hu
      exact ⟨fun _ _ => by simp [Kernel.iputStep, Kernel.setPhase], fun h => absurd h (by simp)⟩
  | check =>
    have hq : (k.icache e).lock = some q := hp.locked q _ hv (by simp) (by simp)
    simp only [Kernel.iputStep]
    split
    · rename_i hcond
      simp only [Bool.and_eq_true, beq_iff_eq] at hcond
      refine hp.of_step q (fun p hpq => hiput _ _ p hpq) (fun p u _ _ hl => hl)
        (fun _ _ _ _ _ => rfl) fun u hu => ?_
      simp only [iput_setPhase_self, Option.some.injEq] at hu
      subst hu
      exact ⟨fun _ _ => hq, fun _ => ⟨hcond.2, hcond.1.1, hcond.1.2⟩⟩
    · refine hp.of_step q (fun p hpq => hiput _ _ p hpq) (fun p u _ _ hl => hl)
        (fun _ _ _ _ _ => rfl) fun u hu => ?_
      simp only [iput_setPhase_self, Option.some.injEq] at hu
      subst hu
      exact ⟨fun _ _ => hq, fun h => absurd h (by simp)⟩
  | free =>
    have hq : (k.icache e).lock = some q := hp.locked q _ hv (by simp) (by simp)
    refine hp.of_step q (fun p hpq => hiput _ _ p hpq) (fun p u _ hu hl => ?_)
      (fun p u hpq hu hph => ?_) fun u hu => ?_
    · by_cases he : u.ip = e
      · simpa [Kernel.iputStep, Kernel.setPhase, he] using hl
      · simpa [Kernel.iputStep, Kernel.setPhase, Function.update_of_ne he] using hl
    · have hne := hmine hq p hpq u hu (hp.lock_of_free hu hph)
      simp [Kernel.iputStep, Kernel.setPhase, Function.update_of_ne hne]
    · simp only [Kernel.iputStep, iput_setPhase_self, Option.some.injEq] at hu
      subst hu
      exact ⟨fun _ _ => by simpa [Kernel.iputStep, Kernel.setPhase] using hq, fun h => absurd h (by simp)⟩
  | release =>
    have hq : (k.icache e).lock = some q := hp.locked q _ hv (by simp) (by simp)
    refine hp.of_step q (fun p hpq => hiput _ _ p hpq) (fun p u hpq hu hl => ?_)
      (fun p u hpq hu hph => ?_) fun u hu => ?_
    · have hne := hmine hq p hpq u hu hl
      simpa [Kernel.iputStep, Kernel.setPhase, Function.update_of_ne hne] using hl
    · have hne := hmine hq p hpq u hu (hp.lock_of_free hu hph)
      simp [Kernel.iputStep, Kernel.setPhase, Function.update_of_ne hne]
    · simp only [Kernel.iputStep, iput_setPhase_self, Option.some.injEq] at hu
      subst hu
      exact ⟨fun _ h => absurd rfl h, fun h => absurd h (by simp)⟩
  | drop =>
    refine hp.of_step q (fun p hpq => ?_) (fun p u _ hu hl => ?_) (fun p u hpq hu hph => ?_)
      fun u hu => ?_
    · simp [Kernel.iputStep, Kernel.endIput, Function.update_of_ne hpq]
    · by_cases he : u.ip = e
      · simpa [Kernel.iputStep, Kernel.endIput, he] using hl
      · simpa [Kernel.iputStep, Kernel.endIput, Function.update_of_ne he] using hl
    · -- the entry about to be freed has one reference, its own `iput`'s
      have hne : u.ip ≠ e := fun he => hpq ((hp.sole hk hu hph).2.2.2 q _ hv he.symm).symm
      simp [Kernel.iputStep, Kernel.endIput, Function.update_of_ne hne]
    · simp [Kernel.iputStep, Kernel.endIput] at hu

/-- An entry a call holds is not about to be freed. -/
theorem Putting.ne_of_held (hp : Putting k) (hk : Inv k) {e : Fin NINODE}
    (hheld : e ∈ (k.proc q).held) :
    ∀ p u, (k.proc p).iput = some u → u.phase = .free → u.ip ≠ e := by
  intro p u hu hph he
  exact (hp.sole hk hu hph).2.2.1 q (he ▸ hheld)

/-- The current directory of a process with no `iput` in progress is not about to be freed. -/
theorem Putting.ne_of_cwdRef (hp : Putting k) (hk : Inv k) (hnone : (k.proc q).iput = none)
    {e : Fin NINODE} (hcwd : (k.proc q).cwdRef = some e) :
    ∀ p u, (k.proc p).iput = some u → u.phase = .free → u.ip ≠ e := by
  intro p u hu hph he
  obtain ⟨rfl, -⟩ := (hp.sole hk hu hph).2.1 q (he ▸ hcwd)
  rw [hnone] at hu
  cases hu

/-- `ialloc`'s `iget` is of an inode that was free on disk, which no entry about to be freed
caches. -/
theorem Putting.ialloc (hp : Putting k) (hc : Coherent k) (hnone : (k.proc q).iput = none)
    {dev type inum : Nat} {e : Fin NINODE} {k₁ k₂ : Kernel}
    (h : k.ialloc dev type = .ok (inum, k₁)) (h' : k₁.iget dev inum = .ok (e, k₂)) :
    Putting (k₂.hold q e) := by
  obtain ⟨hfree, rfl⟩ := Kernel.ialloc_ok h
  have hp₁ : Putting (k.setDisk dev inum ⟨type, 0⟩) := hp.of_icache rfl fun _ => rfl
  refine hp₁.iget hnone (fun p u hu hph => ?_) h'
  exact Bool.eq_false_iff.mpr fun hcaches => hp.allocated hc hu hph hcaches hfree

/-- `fork` gives the unused child `c`, whose `iput` is none, the parent's current directory,
which is not about to be freed. -/
theorem Putting.fork (hp : Putting k) (hk : Inv k) (hnone : (k.proc q).iput = none)
    {c : Fin NPROC} {e : Fin NINODE} (hc : (k.proc c).state = .unused)
    (hcwd : (k.proc q).cwdRef = some e) :
    Putting ((k.idup e).setProc c ⟨.runnable, some e, false, [], none⟩) := by
  have hidle := ((hk.wf c).idle (by rw [hc]; exact nofun)).2.2.2
  exact hp.setEntry hnone rfl (fun p => iput_setProc hidle.symm p) (fun _ hl _ => hl)
    (hp.ne_of_cwdRef hk hnone hcwd)

/-- Every step keeps the `iput`s in progress where `Putting` says. -/
theorem Putting.step (hp : Putting k) (hk : Inv k) (hc : Coherent k) (hs : Step k k') :
    Putting k' := by
  cases hs with
  | iget p dev inum _ hnone hlink h =>
    -- the inode is linked, and the entry about to be freed caches an unlinked one
    refine hp.iget hnone (fun q u hu hph => Bool.eq_false_iff.mpr fun hcaches => ?_) h
    have := hp.unlinked hc hu hph hcaches
    omega
  | idup p e _ hnone hheld => exact hp.idup hnone (hp.ne_of_held hk hheld)
  | idupCwd p e _ hnone hcwd hfresh =>
    exact hp.idup hnone (hp.ne_of_cwdRef hk hnone (Proc.cwdRef_eq hcwd hfresh))
  | ilock p e _ hnone hfree h => exact hp.ilock hnone hfree h
  | iunlock p e _ hnone h => exact hp.iunlock hnone h
  | setNlink p e n _ hnone _ hlock => exact hp.setNlink hnone hlock n
  | ialloc p dev type _ hnone h h' => exact hp.ialloc hc hnone h h'
  | iput p e _ _ _ =>
    refine hp.startIput (show (k.unhold p e).icache = k.icache from rfl) (fun q hqp => ?_)
      ⟨e, .acquire, false⟩ rfl
    simp [Kernel.unhold, Function.update_of_ne hqp]
  | iputCwd p e _ _ _ _ =>
    exact hp.startIput (show k.icache = k.icache from rfl) (fun _ _ => rfl) ⟨e, .acquire, true⟩ rfl
  | iputStep p u _ hu hfree => exact hp.iputStep hk hu hfree
  -- the moves of references between calls, files and current directories change no entry
  -- and no `iput`
  | fileOpen p f e _ _ _ _ => exact hp.of_icache rfl fun q => iput_setProc (by rfl) q
  | fileClose p f e _ _ _ => exact hp.of_icache rfl fun q => iput_hold p q e
  | chdir p e _ _ _ _ =>
    exact hp.of_icache rfl fun q => (iput_setProc (by rfl) q).trans (iput_setProc (by rfl) q)
  | exit p _ _ _ _ => exact hp.of_icache rfl fun q => iput_setProc (by rfl) q
  | fork p c e _ hnone hc hcwd hfresh =>
    exact hp.fork hk hnone hc (Proc.cwdRef_eq hcwd hfresh)
  | reap c hz =>
    have hidle := ((hk.wf c).idle (by rw [hz]; exact nofun)).2.2.2
    exact hp.of_icache rfl fun q => iput_setProc hidle.symm q

end Putting

/-! ### Over every run -/

theorem coherent_boot (disk : Nat → Nat → DInode) : Coherent (Kernel.boot disk) := by
  intro e _ hv
  dsimp only [Kernel.boot] at hv
  split at hv <;> simp [Inode.zero] at hv

theorem putting_boot (disk : Nat → Nat → DInode) : Putting (Kernel.boot disk) := by
  -- the first process has no `iput` in progress, and the others are unused
  have hnone (p : Fin NPROC) : ((Kernel.boot disk).proc p).iput = none := by
    dsimp only [Kernel.boot]
    split <;> rfl
  refine ⟨fun p u hu => ?_, fun p u hu => ?_⟩ <;>
  · rw [hnone] at hu
    cases hu

/-- The invariant of the inode cache, with its entries as the disk has them and its `iput`s in
progress where they are. -/
structure Freeing (k : Kernel) : Prop where
  inv : Inv k
  coherent : Coherent k
  putting : Putting k

theorem Freeing.step {k k' : Kernel} (hf : Freeing k) (hs : Step k k') : Freeing k' :=
  ⟨hf.inv.step hs, hf.coherent.step hf.inv hs, hf.putting.step hf.inv hf.coherent hs⟩

theorem freeing_of_reach {disk : Nat → Nat → DInode} {k : Kernel}
    (hreach : Relation.ReflTransGen Step (Kernel.boot disk) k) : Freeing k := by
  induction hreach with
  | refl => exact ⟨inv_boot disk, coherent_boot disk, putting_boot disk⟩
  | tail _ hs ih => exact ih.step hs

/-! ### What the inode cache keeps true -/

/-- What the inode cache keeps true over every run. -/
structure InodesAccounted (k : Kernel) : Prop where
  /-- no two entries somebody refers to cache the same inode -/
  unique : Unique k.icache
  /-- each entry's `ref` is the references held to it: by open files, by current directories
  not yet put, by the pointers calls hold and by the `iput`s in progress of those -/
  ref_eq_refs : ∀ e, (k.icache e).ref = k.refs e
  /-- outside `sys_chdir` and `exit` between `iput(curproc->cwd)` and setting `curproc->cwd`,
  those are all the pointers to the entry -/
  ref_eq_pointers : (∀ p, (k.proc p).stale = false) → ∀ e, (k.icache e).ref = k.pointers e
  /-- whenever an `iput` is about to truncate and free its inode, whatever ran since its check,
  the entry has `ref` 1, is valid and has no links, and the `iput`'s own reference is the only
  one: no open file, no current directory other than the one it puts, and no other call refers
  to the entry -/
  free_sole : ∀ p u, (k.proc p).iput = some u → u.phase = .free →
    (k.icache u.ip).ref = 1 ∧ (k.icache u.ip).valid = true ∧ (k.icache u.ip).nlink = 0 ∧
    (∀ f, k.file f ≠ some u.ip) ∧
    (∀ q, (k.proc q).cwdRef = some u.ip → q = p ∧ u.ofCwd = true) ∧
    (∀ q, u.ip ∉ (k.proc q).held) ∧ (∀ q v, (k.proc q).iput = some v → v.ip = u.ip → q = p)

/-- Process 0 in `sys_unlink` of the last link to inode 2, which nobody has open: `iget`,
`ilock`, `ip->nlink--` and `iupdate`, then `iunlockput`, up to where `iput` has found the entry
valid, with no links and `ref == 1`, and `itrunc` is next. -/
theorem unlink_reach : ∃ k, Relation.ReflTransGen Step (Kernel.boot rootDisk) k ∧
    (k.proc ⟨0, by decide⟩).iput = some ⟨⟨1, by decide⟩, .free, false⟩ := by
  let p₀ : Fin NPROC := ⟨0, by decide⟩
  let e₁ : Fin NINODE := ⟨1, by decide⟩
  let u : Iput := ⟨e₁, .acquire, false⟩
  -- `iget` recycles the first entry nobody refers to; each later state is the one before it
  -- after the step, so the proofs of the steps wait for it
  have h₁ := Relation.ReflTransGen.single
    (Step.iget (Kernel.boot rootDisk) p₀ ROOTDEV 2 rfl rfl (by decide) rfl)
  have h₂ := h₁.tail (Step.ilock _ p₀ e₁ (by rfl) (by rfl) (by rfl) (by rfl))
  have h₃ := h₂.tail (Step.setNlink _ p₀ e₁ 0 (by rfl) (by rfl) (by decide) (by rfl))
  have h₄ := h₃.tail (Step.iunlock _ p₀ e₁ (by rfl) (by rfl) (by rfl))
  have h₅ := h₄.tail (Step.iput _ p₀ e₁ (by rfl) (by decide) (by rfl))
  have h₆ := h₅.tail (Step.iputStep _ p₀ u (by rfl) (by rfl) fun _ => by rfl)
  have h₇ := h₆.tail (Step.iputStep _ p₀ { u with phase := .check } (by rfl) (by rfl) nofun)
  exact ⟨_, h₇, rfl⟩

end Xv6.Inodes
