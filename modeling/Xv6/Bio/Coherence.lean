import Xv6.Bio.Cache
import Mathlib.Data.Fintype.Card

/-!
# Coherence of the buffer cache

Two facts carry the buffer cache. The links always thread every buffer exactly once around
`head` (`BCache.Ordered.ring`). And although `binit` leaves all `NBUF` buffers carrying the
identity `(0, 0)`, of two buffers with the same identity only the one nearer the front of the
list can be live (`BCache.Ordered.shadow`): `bget` takes a cached copy from the front and
recycles only under an identity nobody carries, and `brelse` only ever moves a live buffer,
which is the first of its identity, to the front. So at most one buffer per block is live, and
`bget`'s first loop finds it.

The rest of `Sys.Inv` counts references and lock holders, so that every step that changes a
buffer's flags (a lock holder's `bwrite` or `log_write`, `ideintr` for a queued request) is
known to act on a buffer that is referenced, hence live.
-/

namespace Xv6.Bio

open DList

/-- A buffer is live when it is referenced or its data stand for a disk block: `refcnt > 0`,
`B_VALID` or `B_DIRTY`. -/
def Buf.Live (b : Buf) : Prop := b.refcnt ≠ 0 ∨ b.valid = true ∨ b.dirty = true

instance : DecidablePred Buf.Live := fun _ => inferInstanceAs (Decidable (_ ∨ _ ∨ _))

namespace BCache

/-- Buffers `i` and `j` carry the same `(dev, blockno)`. -/
def SameBlock (c : BCache) (i j : Fin NBUF) : Prop :=
  (c.buf i).dev = (c.buf j).dev ∧ (c.buf i).blockno = (c.buf j).blockno

theorem SameBlock.symm {c : BCache} {i j : Fin NBUF} (h : c.SameBlock i j) : c.SameBlock j i :=
  ⟨h.1.symm, h.2.symm⟩

/-- The list invariant, with `order` the buffers from the most to the least recently used:
the links thread each buffer exactly once, and of two buffers carrying the same block the later
one is not live. -/
structure Ordered (c : BCache) (order : List (Fin NBUF)) : Prop where
  ring : c.links.Ring Node.head (order.map Node.buf)
  complete : ∀ i, i ∈ order
  shadow : order.Pairwise fun i j => c.SameBlock i j → ¬(c.buf j).Live

variable {c : BCache} {order : List (Fin NBUF)}

theorem Ordered.nodup (h : c.Ordered order) : order.Nodup :=
  (List.nodup_cons.mp h.ring.nodup).2.of_map Node.buf

theorem Ordered.length_lt (h : c.Ordered order) : (order.map Node.buf).length < NBUF + 1 := by
  have hle := h.nodup.length_le_card
  rw [Fintype.card_fin] at hle
  rw [List.length_map]
  omega

/-- `bget`'s first loop returns the most recently used buffer carrying the block. -/
theorem Ordered.cached_eq (h : c.Ordered order) (dev blockno : Nat) :
    c.cached dev blockno = (order.find? (c.holds dev blockno)).map Node.buf := by
  rw [cached, h.ring.scan_next _ h.length_lt, List.find?_map]
  rfl

/-- `bget`'s second loop returns the least recently used buffer it may recycle. -/
theorem Ordered.unused_eq (h : c.Ordered order) :
    c.unused = (order.reverse.find? c.reusable).map Node.buf := by
  rw [unused, h.ring.scan_prev _ h.length_lt, ← List.map_reverse, List.find?_map]
  rfl

/-- `bget` on a well-formed list: a search of the list from the front for the block, then
from the back for a buffer to recycle. -/
theorem Ordered.bget_eq (h : c.Ordered order) (dev blockno : Nat) :
    c.bget dev blockno =
      match order.find? (c.holds dev blockno) with
      | some i => .ok (i, c.setBuf i { c.buf i with refcnt := (c.buf i).refcnt + 1 })
      | none =>
        match order.reverse.find? c.reusable with
        | some i => .ok (i, c.setBuf i ((c.buf i).recycle dev blockno))
        | none => .error "bget: no buffers" := by
  rw [bget, h.cached_eq, h.unused_eq]
  cases order.find? (c.holds dev blockno) <;> cases order.reverse.find? c.reusable <;> rfl

/-- What `bget` can do on a well-formed list: take a reference to the first buffer carrying
the block, or, when none does, recycle the last buffer that is unreferenced and clean. -/
theorem Ordered.bget_eq_ok (h : c.Ordered order) {dev blockno : Nat} {i : Fin NBUF}
    {c' : BCache} (hb : c.bget dev blockno = .ok (i, c')) :
    (order.find? (c.holds dev blockno) = some i ∧
      c' = c.setBuf i { c.buf i with refcnt := (c.buf i).refcnt + 1 }) ∨
    (order.find? (c.holds dev blockno) = none ∧ order.reverse.find? c.reusable = some i ∧
      c' = c.setBuf i ((c.buf i).recycle dev blockno)) := by
  rw [h.bget_eq] at hb
  cases hf : order.find? (c.holds dev blockno) with
  | some j =>
    rw [hf] at hb
    cases hb
    exact .inl ⟨rfl, rfl⟩
  | none =>
    rw [hf] at hb
    cases hu : order.reverse.find? c.reusable with
    | some j =>
      rw [hu] at hb
      cases hb
      exact .inr ⟨rfl, rfl, rfl⟩
    | none =>
      rw [hu] at hb
      cases hb

/-- A live buffer comes before every other buffer carrying its block, which is therefore
not live. -/
theorem Ordered.not_live_of_sameBlock (h : c.Ordered order) {i j : Fin NBUF}
    (hi : (c.buf i).Live) (hji : j ≠ i) (hs : c.SameBlock i j) : ¬(c.buf j).Live := by
  obtain ⟨us, vs, hsplit⟩ := List.append_of_mem (h.complete i)
  have hsh := h.shadow
  rw [hsplit, List.pairwise_append, List.pairwise_cons] at hsh
  have hj := h.complete j
  rw [hsplit, List.mem_append, List.mem_cons] at hj
  rcases hj with hj | hj | hj
  · exact absurd (hsh.2.2 j hj i List.mem_cons_self hs.symm) (not_not.mpr hi)
  · exact absurd hj hji
  · exact hsh.2.1.1 j hj hs

theorem sameBlock_setBuf {i : Fin NBUF} {b : Buf} (hdev : b.dev = (c.buf i).dev)
    (hblk : b.blockno = (c.buf i).blockno) (x y : Fin NBUF) :
    (c.setBuf i b).SameBlock x y ↔ c.SameBlock x y := by
  have key : ∀ j, ((c.setBuf i b).buf j).dev = (c.buf j).dev ∧
      ((c.setBuf i b).buf j).blockno = (c.buf j).blockno := by
    intro j
    by_cases hj : j = i
    · subst hj
      simp [hdev, hblk]
    · simp [hj]
  simp only [SameBlock, (key x).1, (key x).2, (key y).1, (key y).2]

/-- Changing a live buffer, but not the block it carries, keeps the invariant. -/
theorem Ordered.setBuf_live (h : c.Ordered order) {i : Fin NBUF} (hi : (c.buf i).Live)
    {b : Buf} (hdev : b.dev = (c.buf i).dev) (hblk : b.blockno = (c.buf i).blockno) :
    (c.setBuf i b).Ordered order := by
  refine ⟨h.ring, h.complete, (h.shadow.and h.nodup).imp fun {x y} ⟨hxy, hne⟩ hs => ?_⟩
  rw [sameBlock_setBuf hdev hblk] at hs
  by_cases hy : y = i
  · -- nothing before the live buffer carries its block
    subst hy
    exact absurd (hxy hs) (not_not.mpr hi)
  · rw [setBuf_of_ne _ _ hy]
    exact hxy hs

/-- Taking a reference to the first buffer carrying a block keeps the invariant. -/
theorem Ordered.setBuf_first (h : c.Ordered order) {dev blockno : Nat} {i : Fin NBUF}
    (hfirst : order.find? (c.holds dev blockno) = some i) {b : Buf}
    (hdev : b.dev = (c.buf i).dev) (hblk : b.blockno = (c.buf i).blockno) :
    (c.setBuf i b).Ordered order := by
  have hi : c.holds dev blockno i = true := List.find?_some hfirst
  refine ⟨h.ring, h.complete, ((h.shadow.and (pairwise_find h.nodup hfirst)).and h.nodup).imp
    fun {x y} ⟨⟨hxy, hbefore⟩, hne⟩ hs => ?_⟩
  rw [sameBlock_setBuf hdev hblk] at hs
  by_cases hy : y = i
  · -- a buffer before the first one carrying the block carries another block
    subst hy
    have hx := hbefore rfl
    simp only [holds, Bool.and_eq_true, beq_iff_eq] at hi
    simp only [holds, Bool.and_eq_false_iff, beq_eq_false_iff_ne] at hx
    rcases hx with hx | hx
    · exact absurd (hs.1.trans hi.1) hx
    · exact absurd (hs.2.trans hi.2) hx
  · rw [setBuf_of_ne _ _ hy]
    exact hxy hs

/-- Recycling a buffer for a block that no buffer carries keeps the invariant. -/
theorem Ordered.setBuf_fresh (h : c.Ordered order) {dev blockno : Nat}
    (hnone : order.find? (c.holds dev blockno) = none) {i : Fin NBUF} {b : Buf}
    (hdev : b.dev = dev) (hblk : b.blockno = blockno) :
    (c.setBuf i b).Ordered order := by
  -- no other buffer carries the new block
  have hfresh : ∀ j, j ≠ i → ¬((c.buf j).dev = dev ∧ (c.buf j).blockno = blockno) := by
    intro j _ hj
    have := List.find?_eq_none.mp hnone j (h.complete j)
    simp [holds, hj.1, hj.2] at this
  refine ⟨h.ring, h.complete, (h.shadow.and h.nodup).imp fun {x y} ⟨hxy, hne⟩ hs => ?_⟩
  simp only [SameBlock] at hs
  by_cases hy : y = i
  · subst hy
    rw [setBuf_self, setBuf_of_ne _ _ hne, hdev, hblk] at hs
    exact absurd hs (hfresh x hne)
  · by_cases hx : x = i
    · subst hx
      rw [setBuf_self, setBuf_of_ne _ _ hy, hdev, hblk] at hs
      exact absurd ⟨hs.1.symm, hs.2.symm⟩ (hfresh y hy)
    · rw [setBuf_of_ne _ _ hx, setBuf_of_ne _ _ hy] at hs
      rw [setBuf_of_ne _ _ hy]
      exact hxy hs

/-- Moving a buffer that comes before every live buffer carrying its block to the front of
the list keeps the invariant. -/
theorem Ordered.moveFront (h : c.Ordered order) {i : Fin NBUF}
    (hfirst : ∀ j, j ≠ i → c.SameBlock i j → ¬(c.buf j).Live) :
    ∃ order', ({ c with links := (c.links.unlink (.buf i)).pushFront Node.head (.buf i) } :
      BCache).Ordered order' := by
  obtain ⟨us, vs, hsplit⟩ := List.append_of_mem (h.complete i)
  have hnd := h.nodup
  rw [hsplit] at hnd
  have hring := h.ring
  rw [hsplit, List.map_append, List.map_cons] at hring
  refine ⟨i :: (us ++ vs), ⟨?_, fun j => ?_, ?_⟩⟩
  · simpa using hring.moveFront
  · have hj := h.complete j
    rw [hsplit] at hj
    simp only [List.mem_cons, List.mem_append] at hj ⊢
    tauto
  · refine List.pairwise_cons.mpr ⟨fun y hy hs => hfirst y ?_ hs, ?_⟩
    · rintro rfl
      exact (List.nodup_cons.mp (List.perm_middle.nodup_iff.mp hnd)).1 hy
    · have hsh := h.shadow
      rw [hsplit] at hsh
      exact hsh.sublist ((List.sublist_cons_self i vs).append_left us)

theorem brelse_buf (c : BCache) (i : Fin NBUF) :
    (c.brelse i).buf = (c.setBuf i { c.buf i with refcnt := (c.buf i).refcnt - 1 }).buf := by
  unfold brelse
  dsimp only
  split <;> rfl

/-- `brelse` keeps the invariant when it drops a reference to a live buffer. -/
theorem Ordered.brelse (h : c.Ordered order) {i : Fin NBUF} (hi : (c.buf i).Live) :
    ∃ order', (c.brelse i).Ordered order' := by
  have h₁ := h.setBuf_live hi (b := { c.buf i with refcnt := (c.buf i).refcnt - 1 }) rfl rfl
  unfold BCache.brelse
  dsimp only
  split
  · -- the buffer is first of its block, and stays so at the front
    refine h₁.moveFront fun j hj hs => ?_
    rw [setBuf_of_ne _ _ hj]
    exact h.not_live_of_sameBlock hi hj ((sameBlock_setBuf (by rfl) (by rfl) i j).mp hs)
  · exact ⟨order, h₁⟩

/-- `bget` returns the live buffer carrying a block whenever there is one. -/
theorem Ordered.bget_of_live (h : c.Ordered order) {i : Fin NBUF} (hi : (c.buf i).Live) :
    ∃ c', c.bget (c.buf i).dev (c.buf i).blockno = .ok (i, c') := by
  have hholds : c.holds (c.buf i).dev (c.buf i).blockno i = true := by simp [holds]
  have hfind : order.find? (c.holds (c.buf i).dev (c.buf i).blockno) = some i := by
    cases hf : order.find? (c.holds (c.buf i).dev (c.buf i).blockno) with
    | none => exact absurd (List.find?_eq_none.mp hf i (h.complete i)) (by simp [hholds])
    | some j =>
      obtain ⟨hj, as, bs, hsplit, has⟩ := List.find?_eq_some_iff_append.mp hf
      by_contra hji
      -- `j` is the first buffer carrying the block; `i` comes after it
      have hibs : i ∈ bs := by
        have hi' := h.complete i
        rw [hsplit, List.mem_append, List.mem_cons] at hi'
        rcases hi' with hi' | hi' | hi'
        · exact absurd hholds (by simpa using has i hi')
        · exact absurd (congrArg some hi'.symm) hji
        · exact hi'
      have hsh := h.shadow
      rw [hsplit, List.pairwise_append, List.pairwise_cons] at hsh
      simp only [holds, Bool.and_eq_true, beq_iff_eq] at hj
      exact hsh.2.1.1 i hibs ⟨hj.1, hj.2⟩ hi
  rw [bget, h.cached_eq, hfind, Option.map_some]
  exact ⟨_, rfl⟩

/-- `binit` threads the buffers in reverse array order, and no buffer is live yet. -/
theorem ordered_binit : binit.Ordered (List.finRange NBUF).reverse := by
  have hnd : (Node.head :: (((List.finRange NBUF).map Node.buf).reverse ++ [])).Nodup := by
    simpa using (List.nodup_finRange NBUF).map (fun _ _ h => Node.buf.inj h)
  have hring := (@DList.Links.ring_nil Node ⟨fun _ => Node.head, fun _ => Node.head⟩ Node.head
    rfl rfl).foldl_pushFront hnd
  rw [List.foldl_map] at hring
  refine ⟨by simpa [binit] using hring, fun i => by simp, ?_⟩
  exact List.pairwise_of_forall_mem_list fun _ _ _ _ _ => by simp [binit, Buf.zero, Buf.Live]

end BCache

/-! ### The invariant of the whole system -/

namespace Sys

/-- The reachable states: the list invariant, `refcnt` counts the holders, at most one holder
owns the sleep-lock and `locked` says whether one does, and every queued request belongs to
a holder sleeping in `iderw` and still has something to do. -/
structure Inv (s : Sys) : Prop where
  ordered : ∃ order, s.cache.Ordered order
  refcnt : ∀ i, (s.cache.buf i).refcnt = (s.refs i).total
  owners : ∀ i, (s.refs i).owners ≤ 1
  locked : ∀ i, (s.cache.buf i).locked = true ↔ (s.refs i).owners = 1
  queue_nodup : s.idequeue.Nodup
  queued : ∀ i ∈ s.idequeue,
    0 < (s.refs i).io ∧ ((s.cache.buf i).valid = false ∨ (s.cache.buf i).dirty = true)

variable {s s' : Sys}

theorem Inv.live (h : s.Inv) {i : Fin NBUF} (hpos : 0 < (s.refs i).total) :
    (s.cache.buf i).Live :=
  Or.inl (by rw [h.refcnt]; omega)

/-- The holder of a buffer's lock has no disk request queued for it. -/
theorem Inv.not_queued (h : s.Inv) {i : Fin NBUF} (hh : 0 < (s.refs i).held) :
    i ∉ s.idequeue := fun hq => by
  have hown := h.owners i
  have hio := (h.queued i hq).1
  simp only [Holders.owners] at hown
  omega

/-- A step that changes only buffer `i` and its holders, and leaves the disk queue, keeps the
invariant once its facts about `i` are shown. -/
theorem Inv.of_local (h : s.Inv) {i : Fin NBUF}
    (hbuf : ∀ j, j ≠ i → s'.cache.buf j = s.cache.buf j)
    (hrefs : ∀ j, j ≠ i → s'.refs j = s.refs j) (hq : s'.idequeue = s.idequeue)
    (hord : ∃ order, s'.cache.Ordered order)
    (hrefcnt : (s'.cache.buf i).refcnt = (s'.refs i).total)
    (howners : (s'.refs i).owners ≤ 1)
    (hlocked : (s'.cache.buf i).locked = true ↔ (s'.refs i).owners = 1)
    (hqueued : i ∈ s.idequeue →
      0 < (s'.refs i).io ∧ ((s'.cache.buf i).valid = false ∨ (s'.cache.buf i).dirty = true)) :
    s'.Inv := by
  refine ⟨hord, fun j => ?_, fun j => ?_, fun j => ?_, hq ▸ h.queue_nodup, fun j hj => ?_⟩
  · by_cases hji : j = i
    · exact hji ▸ hrefcnt
    · rw [hbuf j hji, hrefs j hji]; exact h.refcnt j
  · by_cases hji : j = i
    · exact hji ▸ howners
    · rw [hrefs j hji]; exact h.owners j
  · by_cases hji : j = i
    · exact hji ▸ hlocked
    · rw [hbuf j hji, hrefs j hji]; exact h.locked j
  · rw [hq] at hj
    by_cases hji : j = i
    · exact hji ▸ hqueued (hji ▸ hj)
    · rw [hbuf j hji, hrefs j hji]; exact h.queued j hj

theorem inv_init (disk : Nat → Nat → Block) : (Sys.init disk).Inv :=
  ⟨⟨_, BCache.ordered_binit⟩, fun _ => rfl, fun _ => Nat.zero_le 1,
    fun _ => by simp [init, binit, Buf.zero, Holders.owners], List.nodup_nil,
    fun _ h => absurd h List.not_mem_nil⟩

/-! ### Each step keeps the invariant -/

section Steps

variable {i : Fin NBUF}

theorem Inv.bget (h : s.Inv) {dev blockno : Nat} {c : BCache}
    (hb : s.cache.bget dev blockno = .ok (i, c)) :
    ({ s with cache := c }.setRefs i fun r => { r with waiting := r.waiting + 1 }).Inv := by
  obtain ⟨order, ho⟩ := h.ordered
  rcases ho.bget_eq_ok hb with ⟨hf, rfl⟩ | ⟨hf, hu, rfl⟩
  · -- a cached copy: one more reference to it
    refine h.of_local (i := i) (fun j hj => by simp [hj]) (fun j hj => by simp [hj]) rfl
      ⟨order, ho.setBuf_first hf (by rfl) (by rfl)⟩ ?_ ?_ ?_ ?_
    · simp only [setRefs_cache, setRefs_refs_self, BCache.setBuf_self, Holders.total, h.refcnt i]
      omega
    · simpa [Holders.owners] using h.owners i
    · simpa [Holders.owners] using h.locked i
    · intro hq
      simpa using h.queued i hq
  · -- a recycled buffer: nobody held it
    have hr := List.find?_some hu
    simp only [BCache.reusable, Bool.and_eq_true, beq_iff_eq, Bool.not_eq_true'] at hr
    have htot : (s.refs i).total = 0 := by rw [← h.refcnt]; exact hr.1
    simp only [Holders.total] at htot
    refine h.of_local (i := i) (fun j hj => by simp [hj]) (fun j hj => by simp [hj]) rfl
      ⟨order, ho.setBuf_fresh hf rfl rfl⟩ ?_ ?_ ?_ ?_
    · simp [Buf.recycle, Holders.total]
      omega
    · simp [Holders.owners]
      omega
    · simpa [Buf.recycle, Holders.owners] using h.locked i
    · intro hq
      have := (h.queued i hq).1
      omega

theorem Inv.acquiresleep (h : s.Inv) (hw : 0 < (s.refs i).waiting)
    (hfree : (s.cache.buf i).locked = false) :
    ((s.modify i fun b => { b with locked := true }).setRefs i
      fun r => { r with waiting := r.waiting - 1, held := r.held + 1 }).Inv := by
  obtain ⟨order, ho⟩ := h.ordered
  have hlive := h.live (i := i) (by simp only [Holders.total]; omega)
  -- the lock is free, so nobody owns it
  have hfree' : (s.refs i).held + (s.refs i).io = 0 := by
    have h1 := h.owners i
    have h2 := (h.locked i).not.mp (by simp [hfree])
    simp only [Holders.owners] at h1 h2
    omega
  refine h.of_local (i := i) (fun j hj => by simp [hj]) (fun j hj => by simp [hj]) rfl
    ⟨order, ho.setBuf_live hlive (by rfl) (by rfl)⟩ ?_ ?_ ?_ ?_
  · simp [Holders.total, h.refcnt i]
    omega
  · simp [Holders.owners]
    omega
  · simp [Holders.owners]
    omega
  · intro hq
    have := (h.queued i hq).1
    omega

theorem Inv.iderw (h : s.Inv) (hh : 0 < (s.refs i).held) (hio : s.iderw i = .ok s') :
    s'.Inv := by
  obtain ⟨-, hpending, rfl⟩ := iderw_eq_ok hio
  have hown := h.owners i
  simp only [Holders.owners] at hown
  -- the lock holder has no request queued yet
  have hnot : i ∉ s.idequeue := h.not_queued hh
  refine ⟨by simpa using h.ordered, fun j => ?_, fun j => ?_, fun j => ?_, ?_, fun j hj => ?_⟩
  · by_cases hj : j = i
    · subst hj
      simp [Holders.total, h.refcnt j]
      omega
    · simp [hj, h.refcnt j]
  · by_cases hj : j = i
    · subst hj
      simp [Holders.owners]
      omega
    · simp [hj, h.owners j]
  · by_cases hj : j = i
    · subst hj
      have e : (s.refs j).held - 1 + ((s.refs j).io + 1) = (s.refs j).held + (s.refs j).io := by
        omega
      simpa [Holders.owners, e] using h.locked j
    · simp [hj, h.locked j]
  · rw [List.nodup_append]
    refine ⟨h.queue_nodup, List.nodup_cons.mpr ⟨List.not_mem_nil, List.nodup_nil⟩, ?_⟩
    intro a ha b hb e
    rw [List.mem_singleton] at hb
    exact hnot (hb ▸ e ▸ ha)
  · rw [List.mem_append, List.mem_singleton] at hj
    rcases hj with hj | rfl
    · have hji : j ≠ i := fun e => hnot (e ▸ hj)
      simpa [hji] using h.queued j hj
    · simpa using hpending

theorem Inv.logWrite (h : s.Inv) (hh : 0 < (s.refs i).held) :
    (s.modify i fun b => { b with dirty := true }).Inv := by
  obtain ⟨order, ho⟩ := h.ordered
  have hlive := h.live (i := i) (by simp only [Holders.total]; omega)
  refine h.of_local (i := i) (fun j hj => by simp [hj]) (fun _ _ => rfl) rfl
    ⟨order, ho.setBuf_live hlive (by rfl) (by rfl)⟩ ?_ (h.owners i) ?_ ?_
  · simpa using h.refcnt i
  · simpa using h.locked i
  · intro hq
    simpa using (h.queued i hq).1

theorem Inv.write (h : s.Inv) (d : Block) (hh : 0 < (s.refs i).held) :
    (s.modify i fun b => { b with data := d }).Inv := by
  obtain ⟨order, ho⟩ := h.ordered
  have hlive := h.live (i := i) (by simp only [Holders.total]; omega)
  refine h.of_local (i := i) (fun j hj => by simp [hj]) (fun _ _ => rfl) rfl
    ⟨order, ho.setBuf_live hlive (by rfl) (by rfl)⟩ ?_ (h.owners i) ?_ ?_
  · simpa using h.refcnt i
  · simpa using h.locked i
  · intro hq
    simpa using h.queued i hq

theorem Inv.bwrite (h : s.Inv) (hh : 0 < (s.refs i).held) (hb : s.bwrite i = .ok s') :
    s'.Inv :=
  (h.logWrite hh).iderw hh (bwrite_eq_ok hb).2

theorem Inv.ideintr (h : s.Inv) : s.ideintr.Inv := by
  cases hq : s.idequeue with
  | nil => rwa [ideintr_nil hq]
  | cons i rest =>
    rw [ideintr_cons hq]
    have hnd := h.queue_nodup
    rw [hq, List.nodup_cons] at hnd
    obtain ⟨order, ho⟩ := h.ordered
    -- the finished request belongs to a holder, so its buffer is live
    have hlive := h.live (i := i) (by
      have := (h.queued i (by simp [hq])).1
      simp only [Holders.total]
      omega)
    refine ⟨⟨order, ho.setBuf_live hlive (by rfl) (by rfl)⟩, fun j => ?_, h.owners, fun j => ?_,
      hnd.2, fun j hj => ?_⟩
    · by_cases hj : j = i
      · subst hj
        simpa using h.refcnt j
      · simpa [hj] using h.refcnt j
    · by_cases hj : j = i
      · subst hj
        simpa using h.locked j
      · simpa [hj] using h.locked j
    · have hji : j ≠ i := fun e => hnd.1 (e ▸ hj)
      simpa [hji] using h.queued j (by simp [hq, hj])

theorem Inv.iderwDone (h : s.Inv) (hio : 0 < (s.refs i).io)
    (hdone : (s.cache.buf i).valid = true ∧ (s.cache.buf i).dirty = false) :
    (s.setRefs i fun r => { r with io := r.io - 1, held := r.held + 1 }).Inv := by
  have hown := h.owners i
  simp only [Holders.owners] at hown
  refine h.of_local (i := i) (fun _ _ => rfl) (fun j hj => by simp [hj]) rfl
    (by simpa using h.ordered) ?_ ?_ ?_ ?_
  · simp [Holders.total, h.refcnt i]
    omega
  · simp [Holders.owners]
    omega
  · have e : (s.refs i).held + 1 + ((s.refs i).io - 1) = (s.refs i).held + (s.refs i).io := by
      omega
    simpa [Holders.owners, e] using h.locked i
  · -- a finished request is no longer queued
    intro hq
    have := (h.queued i hq).2
    simp [hdone.1, hdone.2] at this

theorem Inv.releasesleep (h : s.Inv) (hh : 0 < (s.refs i).held)
    (hr : s.releasesleep i = .ok s') : s'.Inv := by
  obtain ⟨-, rfl⟩ := releasesleep_eq_ok hr
  obtain ⟨order, ho⟩ := h.ordered
  have hlive := h.live (i := i) (by simp only [Holders.total]; omega)
  have hown := h.owners i
  simp only [Holders.owners] at hown
  refine h.of_local (i := i) (fun j hj => by simp [hj]) (fun j hj => by simp [hj]) rfl
    ⟨order, ho.setBuf_live hlive (by rfl) (by rfl)⟩ ?_ ?_ ?_ ?_
  · simp [Holders.total, h.refcnt i]
    omega
  · simp [Holders.owners]
    omega
  · simp [Holders.owners]
    omega
  · intro hq
    have := (h.queued i hq).1
    omega

theorem Inv.brelse (h : s.Inv) (hr : 0 < (s.refs i).releasing) :
    ({ s with cache := s.cache.brelse i }.setRefs i
      fun r => { r with releasing := r.releasing - 1 }).Inv := by
  obtain ⟨order, ho⟩ := h.ordered
  have hlive := h.live (i := i) (by simp only [Holders.total]; omega)
  refine h.of_local (i := i) (fun j hj => by simp [BCache.brelse_buf, hj])
    (fun j hj => by simp [hj]) rfl (by simpa using ho.brelse hlive) ?_ ?_ ?_ ?_
  · simp [BCache.brelse_buf, Holders.total, h.refcnt i]
    omega
  · simpa [Holders.owners] using h.owners i
  · simpa [BCache.brelse_buf, Holders.owners] using h.locked i
  · intro hq
    simpa [BCache.brelse_buf] using h.queued i hq

end Steps

theorem Inv.step (h : s.Inv) (hs : Step s s') : s'.Inv := by
  cases hs with
  | bget hb => exact h.bget hb
  | acquiresleep hw hfree => exact h.acquiresleep hw hfree
  | bread hh _ hio => exact h.iderw hh hio
  | bwrite hh hb => exact h.bwrite hh hb
  | logWrite hh => exact h.logWrite hh
  | write d hh => exact h.write d hh
  | ideintr => exact h.ideintr
  | iderwDone hio hdone => exact h.iderwDone hio hdone
  | releasesleep hh hr => exact h.releasesleep hh hr
  | brelse hr => exact h.brelse hr

theorem inv_of_reach {disk : Nat → Nat → Block}
    (hreach : Relation.ReflTransGen Step (Sys.init disk) s) : s.Inv := by
  induction hreach with
  | refl => exact inv_init disk
  | tail _ hs ih => exact ih.step hs

/-- A step gives a buffer another block only when `bget` recycles it, which it does only to an
unreferenced clean buffer; and only a holder of its lock changes the data of a dirty buffer
(`ideintr` reads a block into a buffer only when it is clean). -/
theorem Inv.step_keeps (h : s.Inv) (hs : Step s s') {j : Fin NBUF}
    (hj : (s.cache.buf j).refcnt ≠ 0 ∨ (s.cache.buf j).dirty = true) :
    (s'.cache.buf j).dev = (s.cache.buf j).dev ∧
      (s'.cache.buf j).blockno = (s.cache.buf j).blockno ∧
      ((s.cache.buf j).dirty = true →
        (s'.cache.buf j).data = (s.cache.buf j).data ∨ 0 < (s.refs j).held) := by
  cases hs with
  | @bget dev blockno i c hb =>
    obtain ⟨order, ho⟩ := h.ordered
    rcases ho.bget_eq_ok hb with ⟨-, rfl⟩ | ⟨-, hu, rfl⟩
    · by_cases hji : j = i
      · subst hji
        simp
      · simp [hji]
    · -- the recycled buffer is unreferenced and clean, so it is not `j`
      have hr := List.find?_some hu
      simp only [BCache.reusable, Bool.and_eq_true, beq_iff_eq, Bool.not_eq_true'] at hr
      have hji : j ≠ i := by
        rintro rfl
        rcases hj with hj | hj
        · exact hj hr.1
        · exact absurd (hj.symm.trans hr.2) Bool.noConfusion
      simp [hji]
  | @acquiresleep i _ _ =>
    by_cases hji : j = i
    · subst hji
      simp
    · simp [hji]
  | bread _ _ hio =>
    obtain ⟨-, -, rfl⟩ := iderw_eq_ok hio
    simp
  | @bwrite i _ _ hb =>
    obtain ⟨-, -, rfl⟩ := iderw_eq_ok (bwrite_eq_ok hb).2
    by_cases hji : j = i
    · subst hji
      simp
    · simp [hji]
  | @logWrite i _ =>
    by_cases hji : j = i
    · subst hji
      simp
    · simp [hji]
  | @write i d hh =>
    by_cases hji : j = i
    · subst hji
      simp [hh]
    · simp [hji]
  | ideintr =>
    cases hq : s.idequeue with
    | nil => simp [ideintr_nil hq]
    | cons i rest =>
      rw [ideintr_cons hq]
      by_cases hji : j = i
      · subst hji
        simp only [BCache.setBuf_self, true_and]
        intro hd
        simp [hd]
      · simp [hji]
  | iderwDone => simp
  | @releasesleep i _ _ hr =>
    obtain ⟨-, rfl⟩ := releasesleep_eq_ok hr
    by_cases hji : j = i
    · subst hji
      simp
    · simp [hji]
  | @brelse i _ =>
    by_cases hji : j = i
    · subst hji
      simp [BCache.brelse_buf]
    · simp [BCache.brelse_buf, hji]

/-- A dirty buffer with no disk request queued stays dirty and keeps its `B_VALID` through a
step: `bget` recycles only clean buffers, and `ideintr` clears `B_DIRTY` only of the buffer at
the head of the queue. -/
theorem Inv.step_flags (h : s.Inv) (hs : Step s s') {j : Fin NBUF}
    (hd : (s.cache.buf j).dirty = true) (hq : j ∉ s.idequeue) :
    (s'.cache.buf j).valid = (s.cache.buf j).valid ∧ (s'.cache.buf j).dirty = true := by
  cases hs with
  | @bget dev blockno i c hb =>
    obtain ⟨order, ho⟩ := h.ordered
    rcases ho.bget_eq_ok hb with ⟨-, rfl⟩ | ⟨-, hu, rfl⟩
    · by_cases hji : j = i
      · subst hji
        simp [hd]
      · simp [hji, hd]
    · -- the recycled buffer is clean, so it is not `j`
      have hr := List.find?_some hu
      simp only [BCache.reusable, Bool.and_eq_true, beq_iff_eq, Bool.not_eq_true'] at hr
      have hji : j ≠ i := by
        rintro rfl
        exact absurd (hd.symm.trans hr.2) Bool.noConfusion
      simp [hji, hd]
  | @acquiresleep i _ _ =>
    by_cases hji : j = i
    · subst hji
      simp [hd]
    · simp [hji, hd]
  | bread _ _ hio =>
    obtain ⟨-, -, rfl⟩ := iderw_eq_ok hio
    simp [hd]
  | @bwrite i _ _ hb =>
    obtain ⟨-, -, rfl⟩ := iderw_eq_ok (bwrite_eq_ok hb).2
    by_cases hji : j = i
    · subst hji
      simp
    · simp [hji, hd]
  | @logWrite i _ =>
    by_cases hji : j = i
    · subst hji
      simp
    · simp [hji, hd]
  | @write i d _ =>
    by_cases hji : j = i
    · subst hji
      simp [hd]
    · simp [hji, hd]
  | ideintr =>
    cases hq' : s.idequeue with
    | nil => simp [ideintr_nil hq', hd]
    | cons i rest =>
      -- the finished request is not `j`'s
      have hji : j ≠ i := fun e => hq (by simp [hq', e])
      rw [ideintr_cons hq']
      simp [hji, hd]
  | iderwDone => simp [hd]
  | @releasesleep i _ _ hr =>
    obtain ⟨-, rfl⟩ := releasesleep_eq_ok hr
    by_cases hji : j = i
    · subst hji
      simp [hd]
    · simp [hji, hd]
  | @brelse i _ =>
    by_cases hji : j = i
    · subst hji
      simp [BCache.brelse_buf, hd]
    · simp [BCache.brelse_buf, hji, hd]

end Sys

/-- Buffer-cache coherence. In every reachable state: (a) the links form one circle through
`head` holding every buffer exactly once; (b) no two buffers carrying the same block are both
live, and `bget` of a block a live buffer carries returns that buffer; (c) no step gives a
referenced or dirty buffer another block, and the data of a dirty buffer change only while
a process holds its lock. -/
theorem bcache_coherent (disk : Nat → Nat → Block) (s : Sys)
    (hreach : Relation.ReflTransGen Step (Sys.init disk) s) :
    (∃ order : List (Fin NBUF),
      s.cache.links.Ring Node.head (order.map Node.buf) ∧ ∀ i, i ∈ order) ∧
    (∀ i j, i ≠ j → s.cache.SameBlock i j → ¬((s.cache.buf i).Live ∧ (s.cache.buf j).Live)) ∧
    (∀ i, (s.cache.buf i).Live →
      ∃ c, s.cache.bget (s.cache.buf i).dev (s.cache.buf i).blockno = .ok (i, c)) ∧
    (∀ s', Step s s' → ∀ i, ((s.cache.buf i).refcnt ≠ 0 ∨ (s.cache.buf i).dirty = true) →
      (s'.cache.buf i).dev = (s.cache.buf i).dev ∧
      (s'.cache.buf i).blockno = (s.cache.buf i).blockno ∧
      ((s.cache.buf i).dirty = true →
        (s'.cache.buf i).data = (s.cache.buf i).data ∨ 0 < (s.refs i).held)) := by
  have h := Sys.inv_of_reach hreach
  obtain ⟨order, ho⟩ := h.ordered
  refine ⟨⟨order, ho.ring, ho.complete⟩, ?_, fun i hi => ho.bget_of_live hi,
    fun s' hs i hi => h.step_keeps hs hi⟩
  rintro i j hij hs ⟨hi, hj⟩
  exact ho.not_live_of_sameBlock hi (Ne.symm hij) hs hj

/-- The system after a first `bget` of block 5 of device 1: buffer 0, the least recently used,
is recycled for it. -/
def firstBget : Sys :=
  { Sys.init (fun _ _ _ => 0) with
    cache := binit.setBuf ⟨0, by decide⟩ ((binit.buf ⟨0, by decide⟩).recycle 1 5) }.setRefs
    ⟨0, by decide⟩ fun r => { r with waiting := r.waiting + 1 }

theorem bcache_coherent_firstBget :
    (∃ order : List (Fin NBUF),
      firstBget.cache.links.Ring Node.head (order.map Node.buf) ∧ ∀ i, i ∈ order) ∧
    (∀ i j, i ≠ j → firstBget.cache.SameBlock i j →
      ¬((firstBget.cache.buf i).Live ∧ (firstBget.cache.buf j).Live)) ∧
    (∀ i, (firstBget.cache.buf i).Live → ∃ c,
      firstBget.cache.bget (firstBget.cache.buf i).dev (firstBget.cache.buf i).blockno =
        .ok (i, c)) ∧
    (∀ s', Step firstBget s' → ∀ i,
      ((firstBget.cache.buf i).refcnt ≠ 0 ∨ (firstBget.cache.buf i).dirty = true) →
      (s'.cache.buf i).dev = (firstBget.cache.buf i).dev ∧
      (s'.cache.buf i).blockno = (firstBget.cache.buf i).blockno ∧
      ((firstBget.cache.buf i).dirty = true →
        (s'.cache.buf i).data = (firstBget.cache.buf i).data ∨
          0 < (firstBget.refs i).held)) := by
  have hnone : (List.finRange NBUF).reverse.find? (binit.holds 1 5) = none := by decide
  have hlru : (List.finRange NBUF).reverse.reverse.find? binit.reusable =
      some ⟨0, by decide⟩ := by decide
  have hb : binit.bget 1 5 = .ok (⟨0, by decide⟩,
      binit.setBuf ⟨0, by decide⟩ ((binit.buf ⟨0, by decide⟩).recycle 1 5)) := by
    rw [BCache.ordered_binit.bget_eq, hnone, hlru]
  exact bcache_coherent (fun _ _ _ => 0) firstBget
    (Relation.ReflTransGen.single (Step.bget (Sys.init fun _ _ _ => 0) hb))

end Xv6.Bio
