import Xv6.Param
import Xv6.Lib.DList
import Mathlib.Logic.Relation

/-!
# The buffer cache

`bio.c` keeps `NBUF` buffers on one circular doubly-linked list through the sentinel
`bcache.head`, most recently used first. `bget` looks for a cached copy of a block from the
front and, failing that, recycles from the back the least recently used buffer that is
neither referenced nor dirty; `brelse` drops a reference and moves a buffer that nobody
references any more to the front. A buffer's `B_VALID` and `B_DIRTY` flags are also set by
`bwrite` and `log_write` (whose callers hold the buffer's sleep-lock) and by `ideintr` when
the disk finishes a request that `iderw` queued.

The links are modelled at the level of pointers, as `next`/`prev` fields of the list nodes
(`DList.Links`), and the two loops of `bget` as walks of those pointers. A process that got a
buffer from `bget` is modelled by the reference it holds and by what it is doing with it
(`Phase`): each step below is one critical section of the code, under `bcache.lock`, under
the buffer's sleep-lock or under `idelock`, and any interleaving of them is a run.
-/

namespace Xv6.Bio

open DList

/-- A node of the buffer list: `bcache.head`, or `bcache.buf[i]`. -/
inductive Node where
  | head
  | buf (i : Fin NBUF)
  deriving DecidableEq

/-- A test on buffers, read on list nodes (the sentinel passes no test). -/
def Node.test (p : Fin NBUF → Bool) : Node → Bool
  | .head => false
  | .buf i => p i

/-- `struct buf`. Of `flags` only its two bits `B_VALID` and `B_DIRTY` are used, and of the
sleep-lock only its `locked` field; the links live in `BCache.links`. -/
structure Buf where
  /-- `B_VALID`: the data has been read from disk -/
  valid : Bool
  /-- `B_DIRTY`: the data needs to be written to disk -/
  dirty : Bool
  dev : Nat
  blockno : Nat
  locked : Bool
  refcnt : Nat
  data : Block

/-- A buffer as the zeroed `bcache` holds it before `binit`. -/
def Buf.zero : Buf :=
  { valid := false, dirty := false, dev := 0, blockno := 0, locked := false, refcnt := 0,
    data := fun _ => 0 }

/-- What `bget` writes into a buffer it recycles for block `blockno` of `dev`. -/
def Buf.recycle (b : Buf) (dev blockno : Nat) : Buf :=
  { b with dev := dev, blockno := blockno, valid := false, dirty := false, refcnt := 1 }

/-- `bcache`, less its spinlock: the buffers, and the `prev`/`next` fields of every node. -/
structure BCache where
  buf : Fin NBUF → Buf
  links : Links Node

namespace BCache

def setBuf (c : BCache) (i : Fin NBUF) (b : Buf) : BCache :=
  { c with buf := Function.update c.buf i b }

@[simp] theorem setBuf_self (c : BCache) (i : Fin NBUF) (b : Buf) : (c.setBuf i b).buf i = b := by
  simp [setBuf]

@[simp] theorem setBuf_of_ne (c : BCache) {i j : Fin NBUF} (b : Buf) (h : j ≠ i) :
    (c.setBuf i b).buf j = c.buf j := by
  simp [setBuf, h]

@[simp] theorem setBuf_links (c : BCache) (i : Fin NBUF) (b : Buf) :
    (c.setBuf i b).links = c.links := rfl

end BCache

/-- `binit`: the zeroed cache, the empty circle at `head`, and every buffer pushed right
after `head` in array order. -/
def binit : BCache :=
  { buf := fun _ => Buf.zero,
    links := (List.finRange NBUF).foldl (fun L i => L.pushFront Node.head (.buf i))
      ⟨fun _ => .head, fun _ => .head⟩ }

namespace BCache

/-- `b->dev == dev && b->blockno == blockno`. -/
def holds (c : BCache) (dev blockno : Nat) (i : Fin NBUF) : Bool :=
  (c.buf i).dev == dev && (c.buf i).blockno == blockno

/-- `b->refcnt == 0 && (b->flags & B_DIRTY) == 0`. -/
def reusable (c : BCache) (i : Fin NBUF) : Bool :=
  (c.buf i).refcnt == 0 && !(c.buf i).dirty

/-- The first loop of `bget`, from `head.next` along `next`. -/
def cached (c : BCache) (dev blockno : Nat) : Option Node :=
  scan c.links.next Node.head (Node.test (c.holds dev blockno)) (NBUF + 1) (c.links.next Node.head)

/-- The second loop of `bget`, from `head.prev` along `prev`. -/
def unused (c : BCache) : Option Node :=
  scan c.links.prev Node.head (Node.test c.reusable) (NBUF + 1) (c.links.prev Node.head)

/-- `bget` under `bcache.lock`: take a reference to the cached copy of the block, or recycle
an unused buffer for it. The walks get one iteration more than there are buffers, which on
a well-formed list is the C loop's own bound. -/
def bget (c : BCache) (dev blockno : Nat) : Except String (Fin NBUF × BCache) :=
  match c.cached dev blockno with
  | some (.buf i) => .ok (i, c.setBuf i { c.buf i with refcnt := (c.buf i).refcnt + 1 })
  | _ =>
    match c.unused with
    | some (.buf i) =>
      .ok (i, c.setBuf i ((c.buf i).recycle dev blockno))
    | _ => .error "bget: no buffers"

/-- The part of `brelse` under `bcache.lock`: drop the reference and, when it was the last,
unlink the buffer and put it back right after `head`. -/
def brelse (c : BCache) (i : Fin NBUF) : BCache :=
  let c₁ := c.setBuf i { c.buf i with refcnt := (c.buf i).refcnt - 1 }
  if (c₁.buf i).refcnt = 0 then
    { c₁ with links := (c₁.links.unlink (.buf i)).pushFront Node.head (.buf i) }
  else c₁

end BCache

/-! ### Processes holding buffers -/

/-- How many processes hold a reference to one buffer, by what they are doing with it. -/
structure Holders where
  /-- `bget` returned the buffer and `acquiresleep` waits for its lock -/
  waiting : Nat
  /-- hold the buffer's sleep-lock -/
  held : Nat
  /-- hold the lock and sleep in `iderw` until the disk is done -/
  io : Nat
  /-- `brelse` released the lock and waits for `bcache.lock` -/
  releasing : Nat

/-- The references a buffer's `refcnt` counts. -/
def Holders.total (h : Holders) : Nat := h.waiting + h.held + h.io + h.releasing

/-- The holders that own the buffer's sleep-lock. -/
def Holders.owners (h : Holders) : Nat := h.held + h.io

/-- The buffer cache with the holders of each buffer, the disk queue of `ide.c`, and the
disk itself (by device and block number). -/
structure Sys where
  cache : BCache
  refs : Fin NBUF → Holders
  idequeue : List (Fin NBUF)
  disk : Nat → Nat → Block

def Sys.init (disk : Nat → Nat → Block) : Sys :=
  { cache := binit, refs := fun _ => ⟨0, 0, 0, 0⟩, idequeue := [], disk := disk }

namespace Sys

/-- Change the holders of buffer `i`. -/
def setRefs (s : Sys) (i : Fin NBUF) (f : Holders → Holders) : Sys :=
  { s with refs := Function.update s.refs i (f (s.refs i)) }

/-- Update buffer `i`. -/
def modify (s : Sys) (i : Fin NBUF) (f : Buf → Buf) : Sys :=
  { s with cache := s.cache.setBuf i (f (s.cache.buf i)) }

@[simp] theorem setRefs_cache (s : Sys) (i : Fin NBUF) (f : Holders → Holders) :
    (s.setRefs i f).cache = s.cache := rfl

@[simp] theorem setRefs_idequeue (s : Sys) (i : Fin NBUF) (f : Holders → Holders) :
    (s.setRefs i f).idequeue = s.idequeue := rfl

@[simp] theorem setRefs_refs_self (s : Sys) (i : Fin NBUF) (f : Holders → Holders) :
    (s.setRefs i f).refs i = f (s.refs i) := by
  simp [setRefs]

@[simp] theorem setRefs_refs_of_ne (s : Sys) {i j : Fin NBUF} (f : Holders → Holders)
    (h : j ≠ i) : (s.setRefs i f).refs j = s.refs j := by
  simp [setRefs, h]

@[simp] theorem modify_refs (s : Sys) (i : Fin NBUF) (f : Buf → Buf) :
    (s.modify i f).refs = s.refs := rfl

@[simp] theorem modify_idequeue (s : Sys) (i : Fin NBUF) (f : Buf → Buf) :
    (s.modify i f).idequeue = s.idequeue := rfl

@[simp] theorem modify_cache (s : Sys) (i : Fin NBUF) (f : Buf → Buf) :
    (s.modify i f).cache = s.cache.setBuf i (f (s.cache.buf i)) := rfl

/-- `iderw(b)` up to its sleep: its checks, and `b` appended to `idequeue`; the caller now
sleeps in `iderw`. -/
def iderw (s : Sys) (i : Fin NBUF) : Except String Sys :=
  let b := s.cache.buf i
  if !b.locked then .error "iderw: buf not locked"
  else if b.valid && !b.dirty then .error "iderw: nothing to do"
  else .ok { s.setRefs i (fun r => { r with held := r.held - 1, io := r.io + 1 }) with
             idequeue := s.idequeue ++ [i] }

/-- `bwrite(b)`: mark the buffer dirty and hand it to `iderw`. -/
def bwrite (s : Sys) (i : Fin NBUF) : Except String Sys :=
  if !(s.cache.buf i).locked then .error "bwrite"
  else (s.modify i fun b => { b with dirty := true }).iderw i

/-- The first half of `brelse`: its check, and `releasesleep`. -/
def releasesleep (s : Sys) (i : Fin NBUF) : Except String Sys :=
  if !(s.cache.buf i).locked then .error "brelse"
  else .ok ((s.modify i fun b => { b with locked := false }).setRefs i
    fun r => { r with held := r.held - 1, releasing := r.releasing + 1 })

/-- `ideintr`: the request at the head of `idequeue` completes. A read copies the block in;
either way `B_VALID` is set and `B_DIRTY` cleared. A write took the buffer's data to disk
when `idestart` began it, and the data cannot have changed since: its holder sleeps in
`iderw`. -/
def ideintr (s : Sys) : Sys :=
  match s.idequeue with
  | [] => s
  | i :: rest =>
    let b := s.cache.buf i
    { cache := s.cache.setBuf i
        { b with data := if b.dirty then b.data else s.disk b.dev b.blockno, valid := true,
                 dirty := false },
      refs := s.refs,
      idequeue := rest,
      disk := if b.dirty then Function.update s.disk b.dev
        (Function.update (s.disk b.dev) b.blockno b.data) else s.disk }

variable {s s' : Sys} {i : Fin NBUF}

theorem iderw_eq_ok (h : s.iderw i = .ok s') :
    (s.cache.buf i).locked = true ∧
      ((s.cache.buf i).valid = false ∨ (s.cache.buf i).dirty = true) ∧
      s' = { s.setRefs i (fun r => { r with held := r.held - 1, io := r.io + 1 }) with
             idequeue := s.idequeue ++ [i] } := by
  simp only [iderw] at h
  split_ifs at h with hl hv
  cases h
  simp only [Bool.not_eq_true', Bool.not_eq_false] at hl
  simp only [Bool.and_eq_true, Bool.not_eq_true', not_and, Bool.not_eq_false] at hv
  refine ⟨hl, ?_, rfl⟩
  cases hvalid : (s.cache.buf i).valid
  · exact .inl rfl
  · exact .inr (hv hvalid)

theorem bwrite_eq_ok (h : s.bwrite i = .ok s') :
    (s.cache.buf i).locked = true ∧ (s.modify i fun b => { b with dirty := true }).iderw i = .ok s' := by
  simp only [bwrite] at h
  split_ifs at h with hl
  simp only [Bool.not_eq_true', Bool.not_eq_false] at hl
  exact ⟨hl, h⟩

theorem releasesleep_eq_ok (h : s.releasesleep i = .ok s') :
    (s.cache.buf i).locked = true ∧
      s' = (s.modify i fun b => { b with locked := false }).setRefs i
        fun r => { r with held := r.held - 1, releasing := r.releasing + 1 } := by
  simp only [releasesleep] at h
  split_ifs at h with hl
  cases h
  simp only [Bool.not_eq_true', Bool.not_eq_false] at hl
  exact ⟨hl, rfl⟩

theorem ideintr_nil (h : s.idequeue = []) : s.ideintr = s := by
  rw [ideintr, h]

theorem ideintr_cons {rest : List (Fin NBUF)} (h : s.idequeue = i :: rest) :
    s.ideintr =
      { cache := s.cache.setBuf i
          { s.cache.buf i with
            data := if (s.cache.buf i).dirty then (s.cache.buf i).data
              else s.disk (s.cache.buf i).dev (s.cache.buf i).blockno,
            valid := true, dirty := false },
        refs := s.refs,
        idequeue := rest,
        disk := if (s.cache.buf i).dirty then Function.update s.disk (s.cache.buf i).dev
          (Function.update (s.disk (s.cache.buf i).dev) (s.cache.buf i).blockno
            (s.cache.buf i).data) else s.disk } := by
  rw [ideintr, h]

end Sys

/-- One critical section of the buffer-cache code, run by some process or by the disk
interrupt. -/
inductive Step : Sys → Sys → Prop where
  /-- `bget` under `bcache.lock` -/
  | bget (s : Sys) {dev blockno : Nat} {i : Fin NBUF} {c : BCache}
      (h : s.cache.bget dev blockno = .ok (i, c)) :
      Step s ({ s with cache := c }.setRefs i fun r => { r with waiting := r.waiting + 1 })
  /-- `acquiresleep` finds the lock free -/
  | acquiresleep (s : Sys) {i : Fin NBUF} (hw : 0 < (s.refs i).waiting)
      (hfree : (s.cache.buf i).locked = false) :
      Step s ((s.modify i fun b => { b with locked := true }).setRefs i
        fun r => { r with waiting := r.waiting - 1, held := r.held + 1 })
  /-- `bread` finds the buffer not valid and calls `iderw` -/
  | bread (s : Sys) {i : Fin NBUF} {s' : Sys} (hh : 0 < (s.refs i).held)
      (hinvalid : (s.cache.buf i).valid = false) (h : s.iderw i = .ok s') : Step s s'
  /-- `bwrite` -/
  | bwrite (s : Sys) {i : Fin NBUF} {s' : Sys} (hh : 0 < (s.refs i).held)
      (h : s.bwrite i = .ok s') : Step s s'
  /-- `log_write` pins the buffer: `b->flags |= B_DIRTY` -/
  | logWrite (s : Sys) {i : Fin NBUF} (hh : 0 < (s.refs i).held) :
      Step s (s.modify i fun b => { b with dirty := true })
  /-- the lock holder changes the buffer's data -/
  | write (s : Sys) {i : Fin NBUF} (d : Block) (hh : 0 < (s.refs i).held) :
      Step s (s.modify i fun b => { b with data := d })
  /-- the disk interrupt -/
  | ideintr (s : Sys) : Step s s.ideintr
  /-- `iderw` wakes up to find its request done -/
  | iderwDone (s : Sys) {i : Fin NBUF} (hio : 0 < (s.refs i).io)
      (hdone : (s.cache.buf i).valid = true ∧ (s.cache.buf i).dirty = false) :
      Step s (s.setRefs i fun r => { r with io := r.io - 1, held := r.held + 1 })
  /-- `brelse` releases the sleep-lock -/
  | releasesleep (s : Sys) {i : Fin NBUF} {s' : Sys} (hh : 0 < (s.refs i).held)
      (h : s.releasesleep i = .ok s') : Step s s'
  /-- `brelse` under `bcache.lock` -/
  | brelse (s : Sys) {i : Fin NBUF} (hr : 0 < (s.refs i).releasing) :
      Step s ({ s with cache := s.cache.brelse i }.setRefs i
        fun r => { r with releasing := r.releasing - 1 })

end Xv6.Bio
