import Xv6.Fs.Namespace
import Mathlib.Data.List.TakeWhile

/-!
# Path lookup

What `skipelem` and `namex` (`fs.c`) compute, against a statement of it over the path's
components: the non-empty pieces between slashes (`components`). `skipelem` takes the first
component and drops the slashes after it (`skipelem_some`), so `namex`'s loop sees the components
in order, each cut to `DIRSIZ` bytes, and stops when only slashes are left. A name is a list of
bytes read as a C string: a component of `DIRSIZ` bytes or more fills the buffer with no NUL,
and `namecmp` compares `DIRSIZ` bytes either way.

`walk` looks names up one by one; `walkParent` stops one short, at the directory holding the
last name. `namex` computes these from the state it starts in, when nothing it does on the way
changes what a lookup reads: its `iget`s find room in the inode cache, and no `iput` frees an
inode it will come back to (`Sound`, `Live`). It then returns holding exactly one reference more
than before, on what it returns (`Holds`). With the cache full, `iget` panics instead.
-/

namespace Xv6.Names

open Xv6.Inodes (T_DIR)
open Xv6.Mkfs (T_FILE)

/-! ### Components -/

/-- The non-empty `/`-separated components of a path: what a lookup of it names. -/
def components (path : List UInt8) : List (List UInt8) :=
  (path.splitOn (ch '/')).filter (!·.isEmpty)

theorem components_nil : components [] = [] := rfl

/-- A slash starts no component. -/
theorem components_slash (path : List UInt8) : components (ch '/' :: path) = components path := by
  rw [components, List.splitOn_cons_eq_if_modifyHead, if_pos BEq.rfl]
  rfl

theorem components_dropWhile (path : List UInt8) :
    components (path.dropWhile (· = ch '/')) = components path := by
  induction path with
  | nil => rfl
  | cons x path ih =>
    by_cases hx : x = ch '/'
    · subst hx
      rw [List.dropWhile_cons_of_pos (by simp), ih, components_slash]
    · rw [List.dropWhile_cons_of_neg (by simpa using hx)]

/-- A run of other bytes followed by a slash or by the end is one component. -/
theorem components_append {e t : List UInt8} (he : e ≠ []) (hslash : ch '/' ∉ e)
    (ht : t = [] ∨ t.head? = some (ch '/')) : components (e ++ t) = e :: components t := by
  have hkeep : (!e.isEmpty) = true := by simpa using he
  rcases ht with rfl | ht
  · rw [List.append_nil, components, List.splitOn_eq_singleton hslash, List.filter_singleton,
      hkeep]
    rfl
  · obtain ⟨t, rfl⟩ : ∃ t', t = ch '/' :: t' := by
      cases t with
      | nil => cases ht
      | cons x t => exact ⟨t, by simpa using ht⟩
    rw [components_slash, components, List.splitOn_append_cons_self_of_not_mem hslash,
      List.filter_cons_of_pos (by simpa using he)]
    rfl

/-! ### `skipelem` -/

private theorem head?_dropWhile_eq_some {α : Type} {p : α → Bool} {l : List α} {y : α}
    (h : (l.dropWhile p).head? = some y) : p y = false := by
  simpa [h] using List.head?_dropWhile_not p l

/-- `skipelem` finds nothing exactly when only slashes are left. -/
theorem skipelem_eq_none_iff {path : List UInt8} : skipelem path = none ↔ ∀ x ∈ path, x = ch '/' := by
  have hall : path.dropWhile (· = ch '/') = [] ↔ ∀ x ∈ path, x = ch '/' := by
    simp [List.dropWhile_eq_nil_iff]
  by_cases hd : path.dropWhile (· = ch '/') = []
  · rw [skipelem, if_pos hd]
    exact iff_of_true rfl (hall.mp hd)
  · rw [skipelem, if_neg hd]
    exact iff_of_false (Option.some_ne_none _) (mt hall.mpr hd)

/-- What `skipelem` finds: the first component cut to `DIRSIZ` bytes, and a shorter rest that
starts with no slash and holds the other components. -/
theorem skipelem_some {path name rest : List UInt8} (h : skipelem path = some (name, rest)) :
    ∃ e, components path = e :: components rest ∧ name = e.take DIRSIZ ∧
      rest.length < path.length ∧ rest.head? ≠ some (ch '/') := by
  unfold skipelem at h
  split_ifs at h with hd
  simp only [Option.some.injEq, Prod.mk.injEq] at h
  obtain ⟨rfl, rfl⟩ := h
  have hhead := List.head?_dropWhile_not (· = ch '/') path
  have hlen := List.length_dropWhile_le (· = ch '/') path
  rw [← components_dropWhile path]
  generalize path.dropWhile (· = ch '/') = d at hd hhead hlen ⊢
  obtain ⟨x, d, rfl⟩ := List.exists_cons_of_ne_nil hd
  -- the element runs from `x` to the next slash, and what follows it starts with that slash
  have hx : x ≠ ch '/' := by simpa using hhead
  have he : (x :: d).takeWhile (· ≠ ch '/') ≠ [] := by
    rw [List.takeWhile_cons_of_pos (by simpa using hx)]
    exact List.cons_ne_nil _ _
  have hslash : ch '/' ∉ (x :: d).takeWhile (· ≠ ch '/') := fun hm => by
    simpa using List.mem_takeWhile_imp hm
  have hs : (x :: d).dropWhile (· ≠ ch '/') = [] ∨
      ((x :: d).dropWhile (· ≠ ch '/')).head? = some (ch '/') := by
    cases hh : ((x :: d).dropWhile (· ≠ ch '/')).head? with
    | none => exact .inl (List.head?_eq_none_iff.mp hh)
    | some y =>
      have hy : y = ch '/' := by simpa using head?_dropWhile_eq_some hh
      exact .inr (by rw [hy])
  have hsplit := List.takeWhile_append_dropWhile (p := (· ≠ ch '/')) (l := x :: d)
  refine ⟨_, ?_, rfl, ?_, ?_⟩
  · rw [components_dropWhile ((x :: d).dropWhile (· ≠ ch '/')), ← components_append he hslash hs,
      hsplit]
  · have hrest := List.length_dropWhile_le (· = ch '/') ((x :: d).dropWhile (· ≠ ch '/'))
    have hparts := congrArg List.length hsplit
    have hpos := List.length_pos_of_ne_nil he
    rw [List.length_append] at hparts
    omega
  · intro hh
    simpa using head?_dropWhile_eq_some hh

/-- A path has no component exactly when `skipelem` finds none in it. -/
theorem components_eq_nil_iff {path : List UInt8} : components path = [] ↔ skipelem path = none := by
  cases hs : skipelem path with
  | none =>
    have hall := skipelem_eq_none_iff.mp hs
    rw [← components_dropWhile, List.dropWhile_eq_nil_iff.mpr (by simpa using hall)]
    exact iff_of_true rfl rfl
  | some r =>
    obtain ⟨e, hc, -⟩ := skipelem_some hs
    rw [hc]
    exact iff_of_false (List.cons_ne_nil _ _) (Option.some_ne_none _)

/-- `namex`'s loop over the path alone: `skipelem` applied again to what it returns until it
returns 0, for at most `k` passes; the names it copied, in order. -/
def skipelems : Nat → List UInt8 → List (List UInt8)
  | 0, _ => []
  | k + 1, path =>
    match skipelem path with
    | none => []
    | some (name, rest) => name :: skipelems k rest

/-- Every element takes a byte, so `path.length + 1` passes reach the `skipelem` that returns 0,
and the names copied are the components cut to `DIRSIZ` bytes. -/
theorem skipelems_eq {k : Nat} {path : List UInt8} (hk : path.length < k) :
    skipelems k path = (components path).map (List.take DIRSIZ) := by
  induction k generalizing path with
  | zero => exact absurd hk (Nat.not_lt_zero _)
  | succ k ih =>
    rw [skipelems]
    cases hs : skipelem path with
    | none => rw [components_eq_nil_iff.mpr hs, List.map_nil]
    | some r =>
      obtain ⟨name, rest⟩ := r
      obtain ⟨e, hc, rfl, hlen, -⟩ := skipelem_some hs
      dsimp only
      rw [hc, List.map_cons, ih (by omega)]


/-! ### Lookups -/

/-- The lookup of `names` one by one from `ip`: the inode reached, or `none` when an inode on the
way is not a directory or has no entry of the next name. -/
def walk (fs : Fs) (ip : Nat) : List (List UInt8) → Option Nat
  | [] => some ip
  | name :: names =>
    if fs.type ip = T_DIR then (dirlookup fs ip name).bind fun e => walk fs e.1 names else none

/-- The directory that holds the last of `names`, reached by `walk` over the others, with that
name; `none` when there are no names. -/
def walkParent (fs : Fs) (ip : Nat) (names : List (List UInt8)) : Option (Nat × List UInt8) :=
  names.getLast?.bind fun last =>
    (walk fs ip names.dropLast).bind fun d => if fs.type d = T_DIR then some (d, last) else none

/-- `walkParent` one name at a time, the way `namex` stops one level early. -/
theorem walkParent_cons (fs : Fs) (ip : Nat) (name : List UInt8) (names : List (List UInt8)) :
    walkParent fs ip (name :: names) =
      if fs.type ip = T_DIR then
        if names = [] then some (ip, name)
        else (dirlookup fs ip name).bind fun e => walkParent fs e.1 names
      else none := by
  cases names with
  | nil => simp [walkParent, walk]
  | cons n ns =>
    obtain ⟨last, hlast⟩ : ∃ last, (n :: ns).getLast? = some last :=
      ⟨_, List.getLast?_eq_some_getLast (List.cons_ne_nil n ns)⟩
    simp only [walkParent, List.getLast?_cons_cons, hlast, Option.bind_some,
      List.dropLast_cons_cons, walk, reduceCtorEq, if_false]
    split_ifs <;> simp [Option.bind_assoc]


/-! ### What `namex` holds -/

section Holds

variable {fs₀ fs fs' : Fs} {ip i : Nat} {held : Option Nat}

/-- An inode a lookup may hold: allocated, and linked or referenced, so that dropping the
lookup's reference does not free it. -/
def Live (fs : Fs) (i : Nat) : Prop := fs.type i ≠ 0 ∧ (fs.nlink i ≠ 0 ∨ fs.ref i ≠ 0)

/-- What a lookup needs of the state it starts from: room in the inode cache for an entry more
than the one it holds, and every entry of a directory naming a live inode. -/
structure Sound (fs : Fs) : Prop where
  room : fs.busy + 1 < NINODE
  entry : ∀ d, fs.type d = T_DIR → ∀ e ∈ fs.dir d, e.inum ≠ 0 → Live fs e.inum

/-- `fs` is `fs₀` with one reference more, to `held`, and nothing a lookup reads changed. -/
structure Holds (fs₀ fs : Fs) (held : Option Nat) : Prop where
  type : fs.type = fs₀.type
  nlink : fs.nlink = fs₀.nlink
  dir : fs.dir = fs₀.dir
  ref : ∀ i, fs.ref i = fs₀.ref i + if held = some i then 1 else 0

theorem Holds.refl (fs : Fs) : Holds fs fs none := ⟨rfl, rfl, rfl, fun _ => by simp⟩

theorem dirlookup_congr {fs fs' : Fs} (h : fs'.dir = fs.dir) (dp : Nat) (name : List UInt8) :
    dirlookup fs' dp name = dirlookup fs dp name := by
  unfold dirlookup
  rw [h]

/-- A successful `iget` is one reference more, and changes nothing a lookup reads. -/
theorem iget_eq (h : fs.iget i = .ok fs') :
    fs'.type = fs.type ∧ fs'.nlink = fs.nlink ∧ fs'.dir = fs.dir ∧
      fs'.ref = Function.update fs.ref i (fs.ref i + 1) := by
  unfold Fs.iget at h
  split_ifs at h with h0
  · cases h
    simp [h0]
  · cases h
    simp

theorem iget_ok (h : fs.ref i = 0 → fs.busy < NINODE) : ∃ fs', fs.iget i = .ok fs' := by
  unfold Fs.iget
  split_ifs with h0 hfull
  · exact absurd (h h0) (Nat.not_lt.mpr hfull)
  · exact ⟨_, rfl⟩
  · exact ⟨_, rfl⟩

theorem Holds.of_update (h : Holds fs₀ fs none) (hty : fs'.type = fs.type)
    (hn : fs'.nlink = fs.nlink) (hd : fs'.dir = fs.dir)
    (hr : fs'.ref = Function.update fs.ref i (fs.ref i + 1)) : Holds fs₀ fs' (some i) where
  type := hty.trans h.type
  nlink := hn.trans h.nlink
  dir := hd.trans h.dir
  ref j := by
    rw [hr, Function.update_apply, h.ref, h.ref]
    by_cases hj : j = i
    · subst hj
      simp
    · simp [hj, Ne.symm hj]

theorem Holds.idup (fs : Fs) (i : Nat) : Holds fs (fs.idup i) (some i) :=
  (Holds.refl fs).of_update rfl rfl rfl rfl

theorem Holds.iget (h : fs₀.iget i = .ok fs) : Holds fs₀ fs (some i) :=
  have ⟨hty, hn, hd, hr⟩ := iget_eq h
  (Holds.refl fs₀).of_update hty hn hd hr

theorem Holds.ilock (h : Holds fs₀ fs held) (hl : fs.ilock i = .ok fs') : Holds fs₀ fs' held := by
  unfold Fs.ilock at hl
  split_ifs at hl <;> cases hl
  · exact h
  · exact ⟨h.type, h.nlink, h.dir, h.ref⟩

theorem ilock_ok (h : fs.type i ≠ 0) : ∃ fs', fs.ilock i = .ok fs' := by
  unfold Fs.ilock
  split_ifs
  · exact ⟨_, rfl⟩
  · exact ⟨_, rfl⟩

/-- `iput` of an inode that keeps a link or another reference only drops the reference. -/
theorem iput_of_kept (h : fs.nlink i ≠ 0 ∨ 1 < fs.ref i) : fs.iput i = fs.setRef i (fs.ref i - 1) := by
  have hkeep : ¬(fs.valid i = true ∧ fs.nlink i = 0 ∧ fs.ref i = 1) := fun hc =>
    h.elim (· hc.2.1) fun hr => absurd hc.2.2 (by omega)
  simp only [Fs.iput, if_neg hkeep]

/-- The reference a lookup holds on a live inode is one more than the state it started from
has, so dropping it frees nothing. -/
theorem Holds.kept (h : Holds fs₀ fs (some ip)) (hlive : Live fs₀ ip) :
    fs.nlink ip ≠ 0 ∨ 1 < fs.ref ip := by
  rw [h.nlink, h.ref]
  rcases hlive.2 with hn | hr
  · exact .inl hn
  · exact .inr (by simp; omega)

/-- The lookup's reference dropped: the state it started from, as far as a lookup reads. -/
theorem Holds.iput (h : Holds fs₀ fs (some ip)) (hlive : Live fs₀ ip) :
    Holds fs₀ (fs.iput ip) none := by
  rw [iput_of_kept (h.kept hlive)]
  refine ⟨h.type, h.nlink, h.dir, fun j => ?_⟩
  rw [setRef_ref, Function.update_apply, h.ref, h.ref]
  by_cases hj : j = ip
  · subst hj
    simp
  · simp [hj, Ne.symm hj]

/-- One pass of the walk: the next inode taken and the current one dropped. -/
theorem Holds.step (h : Holds fs₀ fs (some ip)) (hlive : Live fs₀ ip) {next : Nat} {fs₂ : Fs}
    (hget : fs.iget next = .ok fs₂) : Holds fs₀ (fs₂.iput ip) (some next) := by
  obtain ⟨hty, hn, hd, hr⟩ := iget_eq hget
  have hkept : fs₂.nlink ip ≠ 0 ∨ 1 < fs₂.ref ip := by
    have hle : fs.ref ip ≤ fs₂.ref ip := by
      rw [hr, Function.update_apply]
      split_ifs with hip
      · rw [hip]
        omega
      · exact le_rfl
    rw [hn]
    exact (h.kept hlive).imp id (fun hlt => by omega)
  rw [iput_of_kept hkept]
  refine ⟨hty.trans h.type, hn.trans h.nlink, hd.trans h.dir, fun j => ?_⟩
  rw [setRef_ref, hr]
  simp only [Function.update_apply, h.ref]
  by_cases hj : j = ip <;> by_cases hjn : j = next
  · subst hj hjn
    simp
  · subst hj
    simp [hjn, Ne.symm hjn]
  · subst hjn
    simp [hj, Ne.symm hj]
  · simp [hj, hjn, Ne.symm hj, Ne.symm hjn]

/-- Over distinct elements, a test changed at one element passes at most one more. -/
private theorem length_filter_le_succ {L : List Nat} (hL : L.Nodup) {q q' : Nat → Bool} {j : Nat}
    (h : ∀ i, i ≠ j → q' i = q i) : (L.filter q').length ≤ (L.filter q).length + 1 := by
  induction L with
  | nil => simp
  | cons x L ih =>
    obtain ⟨hx, hL⟩ := List.nodup_cons.mp hL
    by_cases hxj : x = j
    · -- `j` is met once: past it, the two tests agree
      subst hxj
      have hrest : L.filter q' = L.filter q :=
        List.filter_congr fun i hi => h i fun hij => hx (hij ▸ hi)
      simp only [List.filter_cons, hrest]
      split_ifs <;> simp
      omega
    · have := ih hL
      simp only [List.filter_cons, h x hxj]
      split_ifs <;> simpa using this

/-- A reference more, on one inode, takes at most one cache entry more. -/
theorem Holds.busy_le (h : Holds fs₀ fs (some ip)) : fs.busy ≤ fs₀.busy + 1 :=
  length_filter_le_succ List.nodup_range fun i (hi : i ≠ ip) => by simp [h.ref, Ne.symm hi]

end Holds


/-! ### `namex` -/

section Namex

variable {fs₀ : Fs}

/-- A name found in a directory names a live inode. -/
theorem Sound.live_of_dirlookup (hs : Sound fs₀) {ip : Nat} (hdir : fs₀.type ip = T_DIR)
    {name : List UInt8} {next off : Nat} (h : dirlookup fs₀ ip name = some (next, off)) :
    Live fs₀ next := by
  obtain ⟨e, he, rfl, hne, -⟩ := dirlookup_some h
  exact hs.entry ip hdir e (List.mem_of_getElem? he) hne

/-- `namex`'s loop from a live inode it holds answers what the lookup of the rest of the path
from there answers, and in the end holds one reference more than `fs₀`, on what it returns. -/
theorem namexLoop_spec (hs : Sound fs₀) {b : Bool} {fuel ip : Nat} {fs : Fs}
    {path name : List UInt8} (h : Holds fs₀ fs (some ip)) (hlive : Live fs₀ ip)
    (hfuel : path.length < fuel) :
    ∃ r fs', namexLoop b fuel fs ip path name = .ok (r, fs') ∧
      (b = false → r.map Prod.fst = walk fs₀ ip ((components path).map (List.take DIRSIZ))) ∧
      (b = true → r = walkParent fs₀ ip ((components path).map (List.take DIRSIZ))) ∧
      Holds fs₀ fs' (r.map Prod.fst) := by
  induction fuel generalizing fs ip path name with
  | zero => exact absurd hfuel (Nat.not_lt_zero _)
  | succ fuel ih =>
    rw [namexLoop]
    cases hskip : skipelem path with
    | none =>
      -- only slashes are left: `namei` has its inode, `nameiparent` has no last name
      rw [components_eq_nil_iff.mpr hskip, List.map_nil]
      cases b
      · exact ⟨_, _, rfl, fun _ => rfl, nofun, h⟩
      · exact ⟨_, _, rfl, nofun, fun _ => rfl, h.iput hlive⟩
    | some r =>
      obtain ⟨name', rest⟩ := r
      obtain ⟨e, hc, rfl, hlen, hhead⟩ := skipelem_some hskip
      rw [hc, List.map_cons]
      obtain ⟨fs₁, hlock⟩ := ilock_ok (by rw [h.type]; exact hlive.1 : fs.type ip ≠ 0)
      have h₁ := h.ilock hlock
      dsimp only
      rw [hlock, Except.ok_bind, h₁.type, dirlookup_congr h₁.dir]
      by_cases hdir : fs₀.type ip = T_DIR
      swap
      · -- not a directory: the lookup ends here with nothing
        rw [if_pos hdir]
        refine ⟨_, _, rfl, fun _ => ?_, fun _ => ?_, h₁.iput hlive⟩
        · simp [walk, hdir]
        · simp [walkParent_cons, hdir]
      rw [if_neg (not_not_intro hdir)]
      by_cases hend : b = true ∧ rest = []
      · -- `nameiparent` stops one level early, at the directory that holds the last name
        rw [if_pos hend]
        obtain ⟨rfl, rfl⟩ := hend
        refine ⟨_, _, rfl, nofun, fun _ => ?_, h₁⟩
        rw [walkParent_cons, if_pos hdir, components_nil, List.map_nil, if_pos rfl]
      rw [if_neg hend]
      -- a rest that is not empty starts with no slash, so it has a component
      have hrest : rest ≠ [] → (components rest).map (List.take DIRSIZ) ≠ [] := by
        intro hne hnil
        rw [List.map_eq_nil_iff, components_eq_nil_iff, skipelem_eq_none_iff] at hnil
        obtain ⟨x, xs, rfl⟩ := List.exists_cons_of_ne_nil hne
        exact hhead (by rw [hnil x List.mem_cons_self]; rfl)
      cases hfound : dirlookup fs₀ ip (e.take DIRSIZ) with
      | none =>
        refine ⟨_, _, rfl, fun _ => ?_, fun hb => ?_, h₁.iput hlive⟩
        · simp [walk, hdir, hfound]
        · rw [walkParent_cons, if_pos hdir, if_neg (hrest fun h => hend ⟨hb, h⟩), hfound]
          rfl
      | some found =>
        obtain ⟨next, off⟩ := found
        have hnext := hs.live_of_dirlookup hdir hfound
        have hroom : fs₁.ref next = 0 → fs₁.busy < NINODE := fun _ => by
          have := h₁.busy_le
          have := hs.room
          omega
        obtain ⟨fs₂, hget⟩ := iget_ok hroom
        obtain ⟨r, fs', hl, hwalk, hparent, hheld⟩ := ih (h₁.step hlive hget) hnext
          (show rest.length < fuel by omega)
        refine ⟨r, fs', ?_, fun hb => ?_, fun hb => ?_, hheld⟩
        · dsimp only
          rw [hget, Except.ok_bind]
          exact hl
        · rw [walk, if_pos hdir, hfound]
          exact hwalk hb
        · rw [walkParent_cons, if_pos hdir, if_neg (hrest fun h => hend ⟨hb, h⟩), hfound]
          exact hparent hb


/-- Where `namex` starts: at the root for a path that begins with a slash, else at the process's
current directory. -/
def Fs.start (fs : Fs) (p : Fin NPROC) (path : List UInt8) : Nat :=
  if path.head? = some (ch '/') then ROOTINO else fs.cwd p

/-- `namex` answers what the lookup of the path's components, cut to `DIRSIZ` bytes, answers
from where it starts, and holds one reference more than before, on what it returns. -/
theorem namex_spec (hs : Sound fs₀) (p : Fin NPROC) (path : List UInt8) (b : Bool)
    (hstart : Live fs₀ (fs₀.start p path)) :
    ∃ r fs', namex fs₀ p path b = .ok (r, fs') ∧
      (b = false →
        r.map Prod.fst = walk fs₀ (fs₀.start p path) ((components path).map (List.take DIRSIZ))) ∧
      (b = true →
        r = walkParent fs₀ (fs₀.start p path) ((components path).map (List.take DIRSIZ))) ∧
      Holds fs₀ fs' (r.map Prod.fst) := by
  by_cases hroot : path.head? = some (ch '/')
  · rw [Fs.start, if_pos hroot] at hstart ⊢
    have hroom : fs₀.ref ROOTINO = 0 → fs₀.busy < NINODE := fun _ => by
      have := hs.room
      omega
    obtain ⟨fs₁, hget⟩ := iget_ok hroom
    rw [namex, if_pos hroot, hget, Except.ok_bind]
    exact namexLoop_spec hs (Holds.iget hget) hstart (Nat.lt_succ_self _)
  · rw [Fs.start, if_neg hroot] at hstart ⊢
    rw [namex, if_neg hroot]
    exact namexLoop_spec hs (Holds.idup fs₀ _) hstart (Nat.lt_succ_self _)

theorem namex_resolves_components (fs : Fs) (p : Fin NPROC) (path : List UInt8) (hs : Sound fs)
    (hstart : Live fs (fs.start p path)) :
    (∀ k, path.length < k → skipelems k path = (components path).map (List.take DIRSIZ)) ∧
    (∀ rest, skipelem rest = none ↔ ∀ x ∈ rest, x = ch '/') ∧
    (∃ r fs', namex fs p path false = .ok (r, fs') ∧
      r.map Prod.fst = walk fs (fs.start p path) ((components path).map (List.take DIRSIZ))) ∧
    (∃ r fs', namex fs p path true = .ok (r, fs') ∧
      r = walkParent fs (fs.start p path) ((components path).map (List.take DIRSIZ))) := by
  obtain ⟨r, fs', hl, hwalk, -, -⟩ := namex_spec hs p path false hstart
  obtain ⟨r', fs'', hl', -, hparent, -⟩ := namex_spec hs p path true hstart
  exact ⟨fun _ hk => skipelems_eq hk, fun _ => skipelem_eq_none_iff,
    ⟨r, fs', hl, hwalk rfl⟩, ⟨r', fs'', hl', hparent rfl⟩⟩

theorem sound_boot : Sound Fs.boot where
  room := by decide
  entry d hd e he _ := by
    have hroot : d = ROOTINO := by
      by_contra hne
      simp [Fs.boot, hne, T_DIR] at hd
    subst hroot
    dsimp only [Fs.boot] at he
    rw [if_pos rfl] at he
    simp only [List.mem_cons, List.not_mem_nil, or_false] at he
    rcases he with rfl | rfl <;> exact ⟨by decide, .inl (by decide)⟩

/-- In the state `mkfs` leaves, `/.` names the root. -/
theorem namex_root_dot :
    ∃ r fs', namex Fs.boot ⟨0, by decide⟩ (cstr "/.") false = .ok (r, fs') ∧ r.map Prod.fst = some ROOTINO := by
  obtain ⟨-, -, ⟨r, fs', hl, hwalk⟩, -⟩ :=
    namex_resolves_components Fs.boot ⟨0, by decide⟩ (cstr "/.") sound_boot ⟨by decide, .inl (by decide)⟩
  exact ⟨r, fs', hl, hwalk.trans (by decide)⟩

/-- The root holds the file `a`, inode 60, and process 0 has 49 other files open, inodes 2 to
50: with the root, every entry of the inode cache is in use. -/
def fullCache : Fs :=
  { Fs.boot with
    type := fun i => if i = ROOTINO then T_DIR else if 2 ≤ i ∧ i ≤ 50 ∨ i = 60 then T_FILE else 0
    nlink := fun i => if i = ROOTINO ∨ 2 ≤ i ∧ i ≤ 50 ∨ i = 60 then 1 else 0
    dir := fun i =>
      if i = ROOTINO then [⟨ROOTINO, cstr "."⟩, ⟨ROOTINO, cstr ".."⟩, ⟨60, cstr "a"⟩] else []
    ref := fun i => if i = ROOTINO then NPROC else if 2 ≤ i ∧ i ≤ 50 then 1 else 0
    nofile := fun q => if q.val = 0 then 49 else 0
    nfile := 49 }

/-- With the cache full, `namei("a")` panics in `iget` where the lookup finds `a`. -/
theorem namei_full_cache_panics :
    walk fullCache (fullCache.start ⟨0, by decide⟩ (cstr "a"))
        ((components (cstr "a")).map (List.take DIRSIZ)) = some 60 ∧
      namex fullCache ⟨0, by decide⟩ (cstr "a") false = .error "iget: no inodes" :=
  ⟨by decide, rfl⟩

end Namex

end Xv6.Names
