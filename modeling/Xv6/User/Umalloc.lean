import Mathlib.Logic.Function.Basic
import Mathlib.Algebra.Group.Nat.Defs

/-!
The user allocator of `umalloc.c`, Kernighan and Ritchie's: a circular free list through the
static `base`, sorted by address, searched first-fit by `malloc` and joined to its neighbours
by `free`, grown by `morecore` through `sbrk`.

Memory is a store of headers addressed in units of `sizeof(Header)`, 8 bytes on i386; a
pointer is the unit it points at, and 0 is the null pointer. The loops run on `fuel`, `none`
being a run that has not finished.

`malloc` rounds the request up to `nunits = (nbytes + sizeof(Header) - 1)/sizeof(Header) + 1`
in 32-bit unsigned arithmetic. For the seven largest requests the sum wraps and `nunits` is 1,
a block with no room after its header (`malloc_wrapped_block`); below them the block has room
for the request (`malloc_usable`).
-/

namespace Xv6.Umalloc

/-- `sizeof(Header)`: a pointer and a `uint`, as large as the `long` it is aligned to. -/
def HDR : Nat := 8

/-- `union header`'s `s`: the next free block and the block's size in units. -/
structure Header where
  ptr : Nat
  size : UInt32

/-- The process's memory as the allocator sees it, with `base` where the static `base` is,
`freep`, and the program break in units. -/
structure Heap where
  mem : Nat → Header
  base : Nat
  freep : Nat
  brk : Nat

def Heap.setPtr (h : Heap) (a v : Nat) : Heap :=
  { h with mem := Function.update h.mem a { h.mem a with ptr := v } }

def Heap.setSize (h : Heap) (a : Nat) (v : UInt32) : Heap :=
  { h with mem := Function.update h.mem a { h.mem a with size := v } }

/-- The bytes after the header of the block `p` points into (`p` is the pointer `malloc`
returned, one unit past the header). -/
def usable (h : Heap) (p : Nat) : Nat := ((h.mem (p - 1)).size.toNat - 1) * HDR

/-- `(nbytes + sizeof(Header) - 1)/sizeof(Header) + 1`, in `uint`. -/
def nunits (nbytes : UInt32) : UInt32 := (nbytes + 8 - 1) / 8 + 1

/-! ### `free` -/

/-- `free`'s search from `p` for the free block after which `bp` goes: between `p` and its
successor, or at the wrap point of the list when `bp` is past either end. -/
def freeSearch (h : Heap) (bp : Nat) : Nat → Nat → Option Nat
  | 0, _ => none
  | fuel + 1, p =>
    if bp > p ∧ bp < (h.mem p).ptr then some p
    else if p ≥ (h.mem p).ptr ∧ (bp > p ∨ bp < (h.mem p).ptr) then some p
    else freeSearch h bp fuel (h.mem p).ptr

/-- `bp` takes `p`'s successor as its own, absorbing it when the two touch. -/
def joinNext (h : Heap) (bp p : Nat) : Heap :=
  if bp + (h.mem bp).size.toNat = (h.mem p).ptr then
    (h.setSize bp ((h.mem bp).size + (h.mem (h.mem p).ptr).size)).setPtr bp
      (h.mem (h.mem p).ptr).ptr
  else h.setPtr bp (h.mem p).ptr

/-- `p` takes `bp` as its successor, absorbing it when the two touch. -/
def joinPrev (h : Heap) (bp p : Nat) : Heap :=
  if p + (h.mem p).size.toNat = bp then
    (h.setSize p ((h.mem p).size + (h.mem bp).size)).setPtr p (h.mem bp).ptr
  else h.setPtr p bp

/-- `free(ap)`. -/
def free (fuel : Nat) (h : Heap) (ap : Nat) : Option Heap :=
  (freeSearch h (ap - 1) fuel h.freep).map fun p =>
    { joinPrev (joinNext h (ap - 1) p) (ap - 1) p with freep := p }

/-! ### `malloc` -/

/-- `sbrk(n)` that succeeds: the break moves by `n` bytes, as `growproc` moves it. A negative
`n` that would take it below zero leaves it where it is, `deallocuvm` refusing a size above
the old one. -/
def Heap.grow (h : Heap) (n : Int) : Heap :=
  { h with brk := if 0 ≤ h.brk * HDR + n then ((h.brk * HDR + n) / HDR).toNat else h.brk }

/-- `morecore(nu)`, with `ok` whether `sbrk` succeeds. `nu * sizeof(Header)` is computed in
`uint` and passed to `sbrk` as an `int`. Returns the heap and the pointer returned, 0 when
`sbrk` fails. -/
def morecore (fuel : Nat) (ok : Bool) (h : Heap) (nu : UInt32) : Option (Heap × Nat) :=
  if ok then
    (free fuel ((h.grow ((if nu < 4096 then 4096 else nu) * 8 : UInt32).toInt32.toInt).setSize
      h.brk (if nu < 4096 then 4096 else nu)) (h.brk + 1)).map fun h' => (h', h'.freep)
  else some (h, 0)

/-- Take `nu` units from the free block `p` that follows `prevp`: all of it when it is exactly
that size, else its tail. Returns the heap and the pointer `malloc` returns. -/
def carve (h : Heap) (nu : UInt32) (prevp p : Nat) : Heap × Nat :=
  if (h.mem p).size = nu then ({ h.setPtr prevp (h.mem p).ptr with freep := prevp }, p + 1)
  else
    ({ (h.setSize p ((h.mem p).size - nu)).setSize (p + ((h.mem p).size - nu).toNat) nu with
        freep := prevp },
      p + ((h.mem p).size - nu).toNat + 1)

/-- `malloc`'s loop from `prevp` and `p = prevp->s.ptr`: first fit, calling `morecore` once
the search is back at `freep`. -/
def mallocLoop (ok : Bool) (nu : UInt32) : Nat → Heap → Nat → Nat → Option (Heap × Nat)
  | 0, _, _, _ => none
  | fuel + 1, h, prevp, p =>
    if (h.mem p).size ≥ nu then some (carve h nu prevp p)
    else if p = h.freep then
      match morecore fuel ok h nu with
      | none => none
      | some (h', 0) => some (h', 0)
      | some (h', q) => mallocLoop ok nu fuel h' q (h'.mem q).ptr
    else mallocLoop ok nu fuel h p (h.mem p).ptr

/-- The first call sets up the empty list: `base.s.ptr = freep = prevp = &base;
base.s.size = 0`. -/
def Heap.start (h : Heap) : Heap :=
  if h.freep = 0 then { (h.setPtr h.base h.base).setSize h.base 0 with freep := h.base } else h

/-- `malloc(nbytes)`: the heap after it and the pointer it returns, 0 when `sbrk` fails. -/
def malloc (fuel : Nat) (ok : Bool) (h : Heap) (nbytes : UInt32) : Option (Heap × Nat) :=
  mallocLoop ok (nunits nbytes) fuel h.start h.start.freep (h.start.mem h.start.freep).ptr

/-! ### The size of the block `malloc` returns -/

@[simp] theorem setPtr_size (h : Heap) (a v x : Nat) : ((h.setPtr a v).mem x).size = (h.mem x).size := by
  by_cases hx : x = a
  · subst hx
    simp [Heap.setPtr]
  · simp [Heap.setPtr, Function.update_of_ne hx]

@[simp] theorem setSize_size_self (h : Heap) (a : Nat) (v : UInt32) :
    ((h.setSize a v).mem a).size = v := by
  simp [Heap.setSize]

/-- Whichever way `carve` takes the block, its header says `nu` units. -/
theorem carve_size (h : Heap) (nu : UInt32) (prevp p : Nat) :
    ((carve h nu prevp p).1.mem ((carve h nu prevp p).2 - 1)).size = nu := by
  unfold carve
  split
  · rename_i hsize
    simpa using hsize
  · simp

/-- Every block `malloc`'s loop returns has the size in units it was asked for. -/
theorem mallocLoop_size {ok : Bool} {nu : UInt32} :
    ∀ {fuel : Nat} {h h' : Heap} {prevp p q : Nat}, mallocLoop ok nu fuel h prevp p = some (h', q) →
      q ≠ 0 → (h'.mem (q - 1)).size = nu
  | 0, _, _, _, _, _, hm, _ => by simp [mallocLoop] at hm
  | fuel + 1, h, h', prevp, p, q, hm, hq => by
    unfold mallocLoop at hm
    split at hm
    · -- the block fits and is carved
      have hsize := carve_size h nu prevp p
      rw [Option.some.inj hm] at hsize
      exact hsize
    split at hm
    · -- back at `freep`: `morecore`, then the search goes on
      split at hm
      · cases hm
      · cases hm
        exact absurd rfl hq
      · exact mallocLoop_size hm hq
    · exact mallocLoop_size hm hq

theorem malloc_size {fuel : Nat} {ok : Bool} {h h' : Heap} {n : UInt32} {p : Nat}
    (hm : malloc fuel ok h n = some (h', p)) (hp : p ≠ 0) : (h'.mem (p - 1)).size = nunits n :=
  mallocLoop_size hm hp

/-- For the seven largest requests `nbytes + sizeof(Header) - 1` wraps past `2^32`, and
`nunits` is 1. -/
theorem nunits_of_wrap {n : UInt32} (hn : 2 ^ 32 - 7 ≤ n.toNat) : nunits n = 1 := by
  apply UInt32.toNat_inj.mp
  have := n.toNat_lt
  simp [nunits, UInt32.toNat_add, UInt32.toNat_div, UInt32.toNat_sub]
  omega

/-- Below them the units after the header hold the request. -/
theorem le_nunits {n : UInt32} (hn : n.toNat ≤ 2 ^ 32 - 8) :
    n.toNat ≤ ((nunits n).toNat - 1) * HDR := by
  have := n.toNat_lt
  simp [nunits, HDR, UInt32.toNat_add, UInt32.toNat_div, UInt32.toNat_sub]
  omega

/-- A block `malloc` grants below the wrap has room for the request after its header. -/
theorem malloc_usable {fuel : Nat} {ok : Bool} {h h' : Heap} {n : UInt32} {p : Nat}
    (hn : n.toNat ≤ 2 ^ 32 - 8) (hm : malloc fuel ok h n = some (h', p)) (hp : p ≠ 0) :
    n.toNat ≤ usable h' p := by
  rw [usable, malloc_size hm hp]
  exact le_nunits hn

/-- On a fresh heap, `malloc(100)` grows the heap and grants a block with room for the 100
bytes. -/
theorem malloc_usable_fresh :
    ∃ h', malloc 4 true ⟨fun _ => ⟨0, 0⟩, 100, 0, 512⟩ 100 = some (h', 4595) ∧ 100 ≤ usable h' 4595 := by
  obtain ⟨h', hm⟩ : ∃ h', malloc 4 true ⟨fun _ => ⟨0, 0⟩, 100, 0, 512⟩ 100 = some (h', 4595) :=
    ⟨_, rfl⟩
  exact ⟨h', hm, malloc_usable (by decide) hm (by decide)⟩

/-- A request within seven bytes of `2^32` that `malloc` grants gets a block of one unit: no
byte after its header, where the request wants nearly `2^32`. -/
theorem malloc_wrapped_block {fuel : Nat} {ok : Bool} {h h' : Heap} {n : UInt32} {p : Nat}
    (hn : 2 ^ 32 - 7 ≤ n.toNat) (hm : malloc fuel ok h n = some (h', p)) (hp : p ≠ 0) :
    usable h' p = 0 ∧ usable h' p < n.toNat := by
  have hzero : usable h' p = 0 := by
    rw [usable, malloc_size hm hp, nunits_of_wrap hn]
    rfl
  exact ⟨hzero, by omega⟩

/-- On a fresh heap with the break at unit 512, `malloc(0xffffffff)` grows the heap and
returns the new break. -/
theorem malloc_wrapped_block_fresh :
    ∃ h', malloc 4 true ⟨fun _ => ⟨0, 0⟩, 100, 0, 512⟩ 0xffffffff = some (h', 4608) ∧
      usable h' 4608 = 0 ∧ usable h' 4608 < (0xffffffff : UInt32).toNat := by
  obtain ⟨h', hm⟩ : ∃ h', malloc 4 true ⟨fun _ => ⟨0, 0⟩, 100, 0, 512⟩ 0xffffffff =
      some (h', 4608) := ⟨_, rfl⟩
  exact ⟨h', hm, malloc_wrapped_block (by decide) hm (by decide)⟩

end Xv6.Umalloc
