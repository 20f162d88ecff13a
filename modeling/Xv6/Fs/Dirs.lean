import Xv6.Fs.Namespace

/-!
# Directory entries

What `dirlink` and `dirlookup` guarantee about one directory, and what the namespace calls do
to the `..` entry of a directory whose parent is unlinked.

A name is stored with `strncpy(de.name, name, DIRSIZ)` and compared with `namecmp`, which is
`strncmp` over `DIRSIZ` bytes. The two agree for names of every length (`strncmp_strncpy`), so
a `dirlookup` after a successful `dirlink` finds the entry it wrote (`dirlink_dirlookup`).

`sys_unlink` removes a directory even when it is some process's current directory, and
nothing updates a `..` entry. After `/d/s` and `/d` are unlinked, `iput` frees `d` and the
next `ialloc` hands its inode out again. From then on, `s`'s `..` names whatever the new
inode is, here a file (`dotdot_names_file`).
-/

namespace Xv6.Names

open Xv6.Fs (namecmp strncmp)
open Xv6.Inodes (T_DIR)
open Xv6.Mkfs (T_FILE)

/-! ### Names -/

/-- `strncmp` over `n` bytes finds a name equal to its `strncpy` to `n` bytes. Both stop at the
name's NUL, or both run out of `n`. -/
theorem strncmp_strncpy : ∀ (n : Nat) (name : List UInt8), strncmp name (strncpy name n) n = 0
  | 0, _ => rfl
  | n + 1, name => by
    by_cases hnul : name.headD 0 = 0
    · have hcopy : strncpy name (n + 1) = List.replicate (n + 1) 0 := by
        rw [strncpy, if_pos hnul]
      rw [strncmp, hcopy, if_neg fun h => h.1 hnul, hnul]
      simp [List.replicate_succ]
    · have hcopy : strncpy name (n + 1) = name.headD 0 :: strncpy name.tail n := by
        rw [strncpy, if_neg hnul]
      rw [strncmp, hcopy, List.headD_cons, List.tail_cons, if_pos ⟨hnul, rfl⟩]
      exact strncmp_strncpy n name.tail

/-! ### Slots -/

theorem freeSlot_le (d : List Dirent) : freeSlot d ≤ d.length := by
  unfold freeSlot
  cases h : d.findIdx? (·.inum = 0) with
  | none => simp
  | some i =>
    have hi := List.findIdx?_eq_some_iff_getElem.mp h
    simp only [Option.getD_some]
    grind

theorem getElem?_writeSlot {d : List Dirent} {k : Nat} (e : Dirent) (hk : k ≤ d.length) (i : Nat) :
    (writeSlot d k e)[i]? = if i = k then some e else d[i]? := by
  unfold writeSlot
  split_ifs with hlt hik hik
  · subst hik
    simp [hlt]
  · rw [List.getElem?_set]
    grind
  · -- appended: the slot past the end
    have hend : i = d.length := by omega
    subst hend
    simp
  · grind

/-- A `dirlookup` that finds nothing: every non-empty entry has another name. -/
theorem namecmp_ne_of_dirlookup_none {fs : Fs} {dp : Nat} {name : List UInt8}
    (h : dirlookup fs dp name = none) : ∀ e ∈ fs.dir dp, e.inum ≠ 0 → namecmp name e.name ≠ 0 := by
  intro e he hne hcmp
  unfold dirlookup at h
  rw [Option.map_eq_none_iff, List.find?_eq_none] at h
  have hmem : (e, (fs.dir dp).idxOf e) ∈ (fs.dir dp).zipIdx :=
    List.mem_zipIdx_iff_getElem?.mpr (List.getElem?_idxOf he)
  exact h _ hmem (by simp [hne, hcmp])

/-- After `dirlink(dp, name, inum)` returns 0, `dirlookup(dp, name)` finds `inum`, in the slot
`dirlink` wrote. The entries before that slot were there before and did not match. -/
theorem dirlink_dirlookup {fs fs' : Fs} {dp inum : Nat} {name : List UInt8} (hinum : inum ≠ 0)
    (h : dirlink fs dp name inum = .ok (0, fs')) :
    dirlookup fs' dp name = some (inum, freeSlot (fs.dir dp)) := by
  unfold dirlink at h
  cases hlook : dirlookup fs dp name with
  | some r =>
    -- a name already there: `dirlink` returns -1
    rw [hlook] at h
    obtain ⟨_, -, hres⟩ := (Except.map_eq_ok _ _ _).mp h
    simp at hres
  | none =>
    rw [hlook] at h
    injection h with h
    obtain ⟨-, rfl⟩ := Prod.mk.inj h
    set k := freeSlot (fs.dir dp)
    set new : Dirent := ⟨inum, strncpy name DIRSIZ⟩
    have hk : k ≤ (fs.dir dp).length := freeSlot_le _
    have hdir : (fs.setDir dp (writeSlot (fs.dir dp) k new)).dir dp = writeSlot (fs.dir dp) k new := by
      simp
    -- the one entry that matches is the new one
    have honly : ∀ x ∈ (writeSlot (fs.dir dp) k new).zipIdx,
        (x.1.inum ≠ 0 ∧ namecmp name x.1.name = 0) → x = (new, k) := by
      rintro ⟨e, i⟩ hx ⟨hne, hcmp⟩
      have hget := List.mem_zipIdx_iff_getElem?.mp hx
      rw [getElem?_writeSlot new hk] at hget
      split_ifs at hget with hik
      · dsimp only at hik hget
        rw [hik, ← Option.some.inj hget]
      · exact absurd hcmp
          (namecmp_ne_of_dirlookup_none hlook e (List.mem_of_getElem? hget) hne)
    have hnew : (new, k) ∈ (writeSlot (fs.dir dp) k new).zipIdx :=
      List.mem_zipIdx_iff_getElem?.mpr (by rw [getElem?_writeSlot new hk, if_pos rfl])
    unfold dirlookup
    rw [hdir]
    cases hfind : (writeSlot (fs.dir dp) k new).zipIdx.find?
        (fun e => e.1.inum ≠ 0 ∧ namecmp name e.1.name = 0) with
    | none =>
      have := List.find?_eq_none.mp hfind _ hnew
      simp [new, hinum, namecmp, strncmp_strncpy] at this
    | some x =>
      have hp := List.find?_some hfind
      simp only [ne_eq, decide_eq_true_eq] at hp
      rw [honly x (List.mem_of_find?_eq_some hfind) hp]
      rfl

/-- Linking `a` to inode 2 in the root directory of the booted file system. -/
theorem dirlink_dirlookup_boot :
    ∃ fs', dirlink Fs.boot 1 (cstr "a") 2 = .ok (0, fs') ∧
      dirlookup fs' 1 (cstr "a") = some (2, freeSlot (Fs.boot.dir 1)) := by
  obtain ⟨fs', h⟩ : ∃ fs', dirlink Fs.boot 1 (cstr "a") 2 = .ok (0, fs') := ⟨_, rfl⟩
  exact ⟨fs', h, dirlink_dirlookup (by decide) h⟩

/-! ### A dangling `..` -/

/-- Process 0 makes `/d` and `d/s`, moves into `s`, unlinks `/d/s` and then `/d`, and creates
`f` in its current directory. -/
def dotdotCalls : List (Fin NPROC × Call) :=
  [(⟨0, NPROC_pos⟩, .mkdir (cstr "/d")), (⟨0, NPROC_pos⟩, .chdir (cstr "/d")),
    (⟨0, NPROC_pos⟩, .mkdir (cstr "s")), (⟨0, NPROC_pos⟩, .chdir (cstr "s")),
    (⟨0, NPROC_pos⟩, .unlink (cstr "/d/s")), (⟨0, NPROC_pos⟩, .unlink (cstr "/d")),
    (⟨0, NPROC_pos⟩, .openCreate (cstr "f"))]

/-- After `dotdotCalls`, `s` (inode 3) is still process 0's current directory. Its `..` names
inode 2, which was `d` and is now the file `f`, listed in `s` as well. -/
theorem dotdot_names_file :
    ∃ fs, run Fs.boot dotdotCalls = .ok fs ∧ fs.type 3 = T_DIR ∧ fs.cwd ⟨0, by decide⟩ = 3 ∧
      dirlookup fs 3 (cstr "..") = some (2, 1) ∧ fs.type 2 = T_FILE ∧
      dirlookup fs 3 (cstr "f") = some (2, 2) := by
  refine ⟨_, rfl, ?_⟩
  decide +kernel

end Xv6.Names
