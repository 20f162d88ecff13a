import Xv6.Lib.LittleEndian

/-!
# The boot loader

`bootmain` reads the first page of the kernel's ELF image, at sector 1 of the disk, into the
scratch page at `0x10000`, and loads each program segment with `readseg` and `stosb`. `readseg`
reads whole sectors: it starts `off % SECTSIZE` bytes below `paddr` and stops at the end of the
sector that holds the segment's last byte. Memory and the disk are byte stores; addresses are
32-bit, so pointer arithmetic is modulo `2 ^ 32`.

The bytes `readseg` writes below `paddr` come from the sector before the segment's file bytes,
and they land on whatever the loader put there before: with a segment whose offset is not
sector-aligned, the bss of the segment before it is overwritten (`bootmain_clobbers_bss`). When
each segment's rounded start lies past the end of the segment before it, and every pass keeps off
the scratch page and off the boot block and stack `bootmain` runs on, every segment is loaded
exactly (`bootmain_loads`).

The memory here holds the data `bootmain` reads and writes, not its own code and stack: a pass
that wrote over those would change what runs. The theorem therefore asks every pass to start at
or above `start + SECTSIZE` (`Proghdr.Clear`).
-/

namespace Xv6.Bootmain

open LittleEndian

def SECTSIZE : Nat := 512

def ELF_MAGIC : Nat := 0x464C457F

/-- Where `bootmain` puts the first page of the image. -/
def ELF : Nat := 0x10000

/-- Where the boot block runs: the BIOS loads it at `0x7C00` (`-Ttext 0x7C00`), and
`movl $start, %esp` starts `bootmain`'s stack just below it. -/
def start : Nat := 0x7C00

/-- `insl` and `stosb` store byte `i` of `f` at the 32-bit address `dst + i`, for `i < n`. -/
def store (mem : Nat → UInt8) (dst n : Nat) (f : Nat → UInt8) : Nat → UInt8 := fun a =>
  if a < 2 ^ 32 ∧ (a + 2 ^ 32 - dst) % 2 ^ 32 < n then f ((a + 2 ^ 32 - dst) % 2 ^ 32) else mem a

/-- `readsect(dst, offset)`: sector `offset` of the disk into `dst`. -/
def readsect (disk mem : Nat → UInt8) (dst offset : Nat) : Nat → UInt8 :=
  store mem dst SECTSIZE fun i => disk (SECTSIZE * offset + i)

/-- `stosb(addr, 0, n)`. -/
def stosb (mem : Nat → UInt8) (addr n : Nat) : Nat → UInt8 :=
  store mem addr n fun _ => 0

/-- The loop of `readseg`, one sector a pass while `pa < epa`; `none` when the fuel runs out,
which only a loop that has wrapped around the address space does. -/
def readsegLoop (disk : Nat → UInt8) (epa : Nat) :
    Nat → Nat → Nat → (Nat → UInt8) → Option (Nat → UInt8)
  | 0, pa, _, mem => if pa < epa then none else some mem
  | fuel + 1, pa, offset, mem =>
    if pa < epa then
      readsegLoop disk epa fuel ((pa + SECTSIZE) % 2 ^ 32) (offset + 1) (readsect disk mem pa offset)
    else some mem

/-- `readseg(pa, count, offset)`: the sectors holding bytes `[offset, offset + count)` of the
image, which starts at sector 1, read to `pa` rounded down by `offset % SECTSIZE`. -/
def readseg (disk mem : Nat → UInt8) (pa count offset fuel : Nat) : Option (Nat → UInt8) :=
  let epa := (pa + count) % 2 ^ 32
  let pa := (pa + 2 ^ 32 - offset % SECTSIZE) % 2 ^ 32
  readsegLoop disk epa fuel pa (offset / SECTSIZE + 1) mem

/-- The fields of a `struct proghdr` that `bootmain` reads. -/
structure Proghdr where
  off : Nat
  paddr : Nat
  filesz : Nat
  memsz : Nat
  deriving DecidableEq

/-- The program header at `ph`. -/
def proghdr (mem : Nat → UInt8) (ph : Nat) : Proghdr :=
  ⟨read mem (ph + 4) 4, read mem (ph + 12) 4, read mem (ph + 16) 4, read mem (ph + 20) 4⟩

/-- One pass of `bootmain`'s loop: the segment read, and its bss zeroed. -/
def loadseg (disk mem : Nat → UInt8) (h : Proghdr) (fuel : Nat) : Option (Nat → UInt8) :=
  (readseg disk mem h.paddr h.filesz h.off fuel).map fun mem =>
    if h.memsz > h.filesz then stosb mem ((h.paddr + h.filesz) % 2 ^ 32) (h.memsz - h.filesz)
    else mem

/-- `for(; ph < eph; ph++)`, with at most `n` passes. -/
def loadLoop (disk : Nat → UInt8) (eph fuel : Nat) : Nat → Nat → (Nat → UInt8) → Option (Nat → UInt8)
  | 0, ph, mem => if ph < eph then none else some mem
  | n + 1, ph, mem =>
    if ph < eph then
      (loadseg disk mem (proghdr mem ph) fuel).bind fun mem => loadLoop disk eph fuel n ((ph + 32) % 2 ^ 32) mem
    else some mem

/-- How `bootmain` ends: it returns to `bootasm.S` when the image is not ELF, and otherwise
jumps to the entry point with memory loaded. -/
inductive Outcome where
  | returned (mem : Nat → UInt8)
  | entered (entry : Nat) (mem : Nat → UInt8)

def Outcome.mem : Outcome → Nat → UInt8
  | .returned mem => mem
  | .entered _ mem => mem

/-- `bootmain()`, each loop with at most `fuel` passes. -/
def bootmain (disk mem : Nat → UInt8) (fuel : Nat) : Option Outcome := do
  let mem ← readseg disk mem ELF 4096 0 fuel
  if read mem ELF 4 ≠ ELF_MAGIC then return .returned mem
  let ph := (ELF + read mem (ELF + 28) 4) % 2 ^ 32
  let eph := (ph + 32 * read mem (ELF + 44) 2) % 2 ^ 32
  let mem ← loadLoop disk eph fuel fuel ph mem
  return .entered (read mem (ELF + 24) 4) mem

/-! ### `readseg` -/

/-- Below the top of the address space, a store is a plain copy into `[dst, dst + n)`. -/
theorem store_of_fit {mem f : Nat → UInt8} {dst n : Nat} (hfit : dst + n ≤ 2 ^ 32) (a : Nat) :
    store mem dst n f a = if dst ≤ a ∧ a < dst + n then f (a - dst) else mem a := by
  unfold store
  by_cases ha : dst ≤ a ∧ a < dst + n
  · have hmod : (a + 2 ^ 32 - dst) % 2 ^ 32 = a - dst := by omega
    rw [if_pos ⟨by omega, by omega⟩, if_pos ha, hmod]
  · have hout : ¬(a < 2 ^ 32 ∧ (a + 2 ^ 32 - dst) % 2 ^ 32 < n) := by omega
    rw [if_neg hout, if_neg ha]

/-- The memory after the sectors from `sec` on have been read to `[pa, pa + SECTSIZE * n)`. -/
def sectors (disk mem : Nat → UInt8) (pa sec n : Nat) : Nat → UInt8 := fun a =>
  if pa ≤ a ∧ a < pa + SECTSIZE * n then disk (SECTSIZE * sec + (a - pa)) else mem a

theorem sectors_zero (disk mem : Nat → UInt8) (pa sec : Nat) : sectors disk mem pa sec 0 = mem := by
  funext a
  simp [sectors]

/-- One more pass: the sector read at `pa`, then `n` more from the next address and sector. -/
theorem sectors_succ (disk mem : Nat → UInt8) (pa sec n : Nat) (hfit : pa + SECTSIZE ≤ 2 ^ 32) :
    sectors disk (readsect disk mem pa sec) (pa + SECTSIZE) (sec + 1) n =
      sectors disk mem pa sec (n + 1) := by
  funext a
  unfold sectors readsect
  rw [store_of_fit hfit]
  unfold SECTSIZE at *
  by_cases hhi : pa + 512 ≤ a ∧ a < pa + 512 + 512 * n
  · have hin : pa ≤ a ∧ a < pa + 512 * (n + 1) := ⟨by omega, by omega⟩
    have hidx : 512 * (sec + 1) + (a - (pa + 512)) = 512 * sec + (a - pa) := by omega
    rw [if_pos hhi, if_pos hin, hidx]
  · rw [if_neg hhi]
    by_cases hlo : pa ≤ a ∧ a < pa + 512
    · have hin : pa ≤ a ∧ a < pa + 512 * (n + 1) := ⟨hlo.1, by omega⟩
      rw [if_pos hlo, if_pos hin]
    · have hout : ¬(pa ≤ a ∧ a < pa + 512 * (n + 1)) := fun h => by omega
      rw [if_neg hlo, if_neg hout]

/-- The loop makes `n` passes when `epa` lies in the `n`-th sector from `pa`, and reads those
`n` sectors, if the last of them ends below the top of the address space. -/
theorem readsegLoop_eq (disk : Nat → UInt8) {epa : Nat} (n : Nat) {fuel pa sec : Nat}
    {mem : Nat → UInt8} (hfit : pa + SECTSIZE * n < 2 ^ 32) (hge : epa ≤ pa + SECTSIZE * n)
    (hlt : pa + SECTSIZE * n < epa + SECTSIZE) (hfuel : n ≤ fuel) :
    readsegLoop disk epa fuel pa sec mem = some (sectors disk mem pa sec n) := by
  induction n generalizing fuel pa sec mem with
  | zero =>
    have hstop : ¬pa < epa := by omega
    cases fuel <;> rw [readsegLoop, if_neg hstop, sectors_zero]
  | succ n ih =>
    obtain ⟨fuel, rfl⟩ : ∃ f, fuel = f + 1 := ⟨fuel - 1, by omega⟩
    have hpa : pa < epa := by unfold SECTSIZE at *; omega
    have hnext : (pa + SECTSIZE) % 2 ^ 32 = pa + SECTSIZE := by unfold SECTSIZE at *; omega
    rw [readsegLoop, if_pos hpa, hnext,
      ih (by unfold SECTSIZE at *; omega) (by unfold SECTSIZE at *; omega)
        (by unfold SECTSIZE at *; omega) (by omega),
      sectors_succ disk mem pa sec n (by unfold SECTSIZE at *; omega)]

/-- The sectors `readseg` reads for `count` bytes at `offset`. -/
def nsect (count offset : Nat) : Nat := (offset % SECTSIZE + count + SECTSIZE - 1) / SECTSIZE

/-- `readseg` reads the `nsect` sectors from `offset`'s to `pa` rounded down, when `pa` can be
rounded down without wrapping and the sectors end below the top of the address space. -/
theorem readseg_eq (disk mem : Nat → UInt8) {pa count offset fuel : Nat}
    (hround : offset % SECTSIZE ≤ pa) (hfit : pa + count + SECTSIZE < 2 ^ 32)
    (hfuel : nsect count offset ≤ fuel) :
    readseg disk mem pa count offset fuel =
      some (sectors disk mem (pa - offset % SECTSIZE) (offset / SECTSIZE + 1) (nsect count offset)) := by
  unfold readseg nsect at *
  unfold SECTSIZE at *
  have hepa : (pa + count) % 2 ^ 32 = pa + count := by omega
  have hlo : (pa + 2 ^ 32 - offset % 512) % 2 ^ 32 = pa - offset % 512 := by omega
  dsimp only
  rw [hepa, hlo]
  exact readsegLoop_eq disk _ (by unfold SECTSIZE; omega) (by unfold SECTSIZE; omega)
    (by unfold SECTSIZE; omega) hfuel

/-- The bytes a segment's `readseg` puts at `[pa, pa + count)` are the image's from `offset`. -/
theorem sectors_apply_of_mem (disk mem : Nat → UInt8) {pa count offset a : Nat}
    (hround : offset % SECTSIZE ≤ pa) (hlo : pa ≤ a) (hhi : a < pa + count) :
    sectors disk mem (pa - offset % SECTSIZE) (offset / SECTSIZE + 1) (nsect count offset) a =
      disk (SECTSIZE + offset + (a - pa)) := by
  unfold sectors nsect
  unfold SECTSIZE at *
  have hin : pa - offset % 512 ≤ a ∧ a < pa - offset % 512 + 512 * ((offset % 512 + count + 512 - 1) / 512) :=
    ⟨by omega, by omega⟩
  have hidx : 512 * (offset / 512 + 1) + (a - (pa - offset % 512)) = 512 + offset + (a - pa) := by
    omega
  rw [if_pos hin, hidx]

theorem sectors_apply_of_not_mem (disk mem : Nat → UInt8) {pa sec n a : Nat}
    (ha : a < pa ∨ pa + SECTSIZE * n ≤ a) : sectors disk mem pa sec n a = mem a :=
  if_neg fun h => by omega

/-- `stosb` below the top of the address space. -/
theorem stosb_apply {mem : Nat → UInt8} {addr n : Nat} (hfit : addr + n ≤ 2 ^ 32) (a : Nat) :
    stosb mem addr n a = if addr ≤ a ∧ a < addr + n then 0 else mem a :=
  store_of_fit hfit a

/-! ### One segment -/

/-- The kernel image: its byte `k` is byte `SECTSIZE + k` of the disk. -/
def image (disk : Nat → UInt8) : Nat → UInt8 := fun k => disk (SECTSIZE + k)

/-- Memory holds the segment: its file bytes at `paddr`, then zeros to `memsz`. -/
structure Loaded (disk mem : Nat → UInt8) (h : Proghdr) : Prop where
  file : ∀ j < h.filesz, mem (h.paddr + j) = image disk (h.off + j)
  bss : ∀ j, h.filesz ≤ j → j < h.memsz → mem (h.paddr + j) = 0

/-- A segment stays loaded while its bytes are not written. -/
theorem Loaded.frame {disk mem mem' : Nat → UInt8} {h : Proghdr} (hl : Loaded disk mem h)
    (hle : h.filesz ≤ h.memsz) (hsame : ∀ a, h.paddr ≤ a → a < h.paddr + h.memsz → mem' a = mem a) :
    Loaded disk mem' h where
  file j hj := (hsame _ (by omega) (by omega)).trans (hl.file j hj)
  bss j hj hj' := (hsame _ (by omega) (by omega)).trans (hl.bss j hj hj')

namespace Proghdr

/-- Where the segment's first sector lands: `paddr` rounded down by `off % SECTSIZE`. -/
def lo (h : Proghdr) : Nat := h.paddr - h.off % SECTSIZE

/-- The end of what a pass writes: the last sector read, or the end of the bss. -/
def top (h : Proghdr) : Nat := max (h.lo + SECTSIZE * nsect h.filesz h.off) (h.paddr + h.memsz)

/-- A segment whose file part fits its memory part, which `readseg` can round down, and whose
pass stays below the top of the address space. -/
structure Fits (h : Proghdr) : Prop where
  filesz_le : h.filesz ≤ h.memsz
  round : h.off % SECTSIZE ≤ h.paddr
  below : h.paddr + h.memsz + SECTSIZE < 2 ^ 32

theorem lo_le_paddr (h : Proghdr) : h.lo ≤ h.paddr := Nat.sub_le _ _

theorem sectors_le_top (h : Proghdr) : h.lo + SECTSIZE * nsect h.filesz h.off ≤ h.top :=
  le_max_left _ _

theorem end_le_top (h : Proghdr) : h.paddr + h.memsz ≤ h.top := le_max_right _ _

instance (h : Proghdr) : Decidable h.Fits :=
  decidable_of_iff (h.filesz ≤ h.memsz ∧ h.off % SECTSIZE ≤ h.paddr ∧ h.paddr + h.memsz + SECTSIZE < 2 ^ 32)
    ⟨fun ⟨a, b, c⟩ => ⟨a, b, c⟩, fun ⟨a, b, c⟩ => ⟨a, b, c⟩⟩

/-- A pass that keeps off the boot block `bootasm.S` and `bootmain` run from, `[start, start +
SECTSIZE)`, off `bootmain`'s stack below `start`, and off the scratch page the loop reads the
program headers from. -/
structure Clear (h : Proghdr) : Prop where
  boot : start + SECTSIZE ≤ h.lo
  scratch : h.top ≤ ELF ∨ ELF + 4096 ≤ h.lo

instance (h : Proghdr) : Decidable h.Clear :=
  decidable_of_iff (start + SECTSIZE ≤ h.lo ∧ (h.top ≤ ELF ∨ ELF + 4096 ≤ h.lo))
    ⟨fun ⟨a, b⟩ => ⟨a, b⟩, fun ⟨a, b⟩ => ⟨a, b⟩⟩

end Proghdr

/-- A pass of the loop loads the segment and writes nothing outside `[lo, top)`. -/
theorem loadseg_spec (disk mem : Nat → UInt8) {h : Proghdr} (hfits : h.Fits) {fuel : Nat}
    (hfuel : nsect h.filesz h.off ≤ fuel) :
    ∃ mem', loadseg disk mem h fuel = some mem' ∧ Loaded disk mem' h ∧
      ∀ a, a < h.lo ∨ h.top ≤ a → mem' a = mem a := by
  obtain ⟨hle, hround, hbelow⟩ := hfits
  have hread := readseg_eq disk mem hround (by omega) hfuel
  set mem1 := sectors disk mem (h.paddr - h.off % SECTSIZE) (h.off / SECTSIZE + 1) (nsect h.filesz h.off)
  -- with no bss, `memsz = filesz` and the zeroed range below is empty
  set mem2 : Nat → UInt8 := fun a => if h.paddr + h.filesz ≤ a ∧ a < h.paddr + h.memsz then 0 else mem1 a
  have hload : loadseg disk mem h fuel = some mem2 := by
    rw [loadseg, hread, Option.map_some]
    congr 1
    split_ifs with hbss
    · have hend : (h.paddr + h.filesz) % 2 ^ 32 = h.paddr + h.filesz := by omega
      funext a
      rw [hend, stosb_apply (by omega), Nat.add_assoc, Nat.add_sub_cancel' hle]
    · funext a
      have hempty : ¬(h.paddr + h.filesz ≤ a ∧ a < h.paddr + h.memsz) := fun hin => by omega
      exact (if_neg hempty).symm
  refine ⟨mem2, hload, ⟨fun j hj => ?_, fun j hj hj' => ?_⟩, fun a ha => ?_⟩
  · have hnot : ¬(h.paddr + h.filesz ≤ h.paddr + j ∧ h.paddr + j < h.paddr + h.memsz) := fun hin => by omega
    simp only [mem2, if_neg hnot, mem1]
    rw [sectors_apply_of_mem disk mem hround (by omega) (by omega), Nat.add_sub_cancel_left,
      image, Nat.add_assoc]
  · exact if_pos ⟨by omega, by omega⟩
  · -- below `lo` is below `paddr`; from `top` on is past both the sectors and the bss
    have hlo := h.lo_le_paddr
    have hsect := h.sectors_le_top
    have hend := h.end_le_top
    have hnot : ¬(h.paddr + h.filesz ≤ a ∧ a < h.paddr + h.memsz) := fun hin => by omega
    simp only [mem2, if_neg hnot, mem1]
    exact sectors_apply_of_not_mem disk mem (by unfold Proghdr.lo at *; omega)

/-! ### The loop over the program headers -/

/-- `phoff` of the image's ELF header. -/
def phoff (disk : Nat → UInt8) : Nat := read (image disk) 28 4

/-- `phnum` of the image's ELF header. -/
def phnum (disk : Nat → UInt8) : Nat := read (image disk) 44 2

/-- `entry` of the image's ELF header. -/
def entry (disk : Nat → UInt8) : Nat := read (image disk) 24 4

/-- Program header `k` of the image. -/
def segment (disk : Nat → UInt8) (k : Nat) : Proghdr := proghdr (image disk) (phoff disk + 32 * k)

/-- The scratch page holds the first page of the image. -/
def Scratch (disk mem : Nat → UInt8) : Prop := ∀ j < 4096, mem (ELF + j) = image disk j

theorem Scratch.read_eq {disk mem : Nat → UInt8} (hs : Scratch disk mem) {x w : Nat}
    (hx : x + w ≤ 4096) : read mem (ELF + x) w = read (image disk) x w := by
  rw [read_shift]
  exact read_congr fun i _ hi => hs i (by omega)

/-- With the table in the first page, the loop reads the image's own program headers. -/
theorem Scratch.proghdr {disk mem : Nat → UInt8} (hs : Scratch disk mem) {k : Nat}
    (htable : phoff disk + 32 * (k + 1) ≤ 4096) :
    proghdr mem (ELF + (phoff disk + 32 * k)) = segment disk k := by
  have hfield : ∀ o, o + 4 ≤ 32 → read mem (ELF + (phoff disk + 32 * k) + o) 4 =
      read (image disk) (phoff disk + 32 * k + o) 4 := fun o ho => by
    rw [Nat.add_assoc]
    exact hs.read_eq (by omega)
  simp only [Bootmain.proghdr, segment]
  rw [hfield 4 (by omega), hfield 12 (by omega), hfield 16 (by omega), hfield 20 (by omega)]

section Loop

variable {disk : Nat → UInt8}

/-- Every segment ends before the rounded start of each later one, when each ends before the
rounded start of the next. -/
theorem end_le_lo
    (horder : ∀ k, k + 1 < phnum disk → (segment disk k).paddr + (segment disk k).memsz ≤ (segment disk (k + 1)).lo)
    {k i : Nat} (hki : k < i) (hi : i < phnum disk) :
    (segment disk k).paddr + (segment disk k).memsz ≤ (segment disk i).lo := by
  induction i with
  | zero => omega
  | succ i ih =>
    have hnext := horder i hi
    rcases Nat.lt_succ_iff_lt_or_eq.mp hki with hki | rfl
    · -- through segment `i`: its rounded start is below its end
      have hprev := ih hki (by omega)
      have hlo := (segment disk i).lo_le_paddr
      omega
    · exact hnext

/-- The sectors of a segment that `Fits` are fewer than `2 ^ 24`. -/
theorem Proghdr.Fits.nsect_lt {h : Proghdr} (hfits : h.Fits) : nsect h.filesz h.off < 2 ^ 24 := by
  have hbelow := hfits.below
  have hle := hfits.filesz_le
  unfold nsect SECTSIZE at *
  omega

/-- The loop from header `i` on: each pass loads its segment, leaves the scratch page and the
segments already loaded alone, and the loop ends after the last header. -/
theorem loadLoop_spec (htable : phoff disk + 32 * phnum disk ≤ 4096)
    (hsegs : ∀ k < phnum disk, (segment disk k).Fits ∧ (segment disk k).Clear)
    (horder : ∀ k, k + 1 < phnum disk → (segment disk k).paddr + (segment disk k).memsz ≤ (segment disk (k + 1)).lo)
    {fuel : Nat} (hfuel : 2 ^ 24 ≤ fuel) (m : Nat) :
    ∀ i n mem, i + m = phnum disk → m ≤ n → Scratch disk mem →
      (∀ k < i, Loaded disk mem (segment disk k)) →
      ∃ mem', loadLoop disk (ELF + (phoff disk + 32 * phnum disk)) fuel n (ELF + (phoff disk + 32 * i)) mem =
        some mem' ∧ Scratch disk mem' ∧ ∀ k < phnum disk, Loaded disk mem' (segment disk k) := by
  induction m with
  | zero =>
    intro i n mem hi _ hs hloaded
    have hstop : ¬ELF + (phoff disk + 32 * i) < ELF + (phoff disk + 32 * phnum disk) := by omega
    refine ⟨mem, ?_, hs, fun k hk => hloaded k (by omega)⟩
    cases n <;> rw [loadLoop, if_neg hstop]
  | succ m ih =>
    intro i n mem hi hn hs hloaded
    obtain ⟨n, rfl⟩ : ∃ n', n = n' + 1 := ⟨n - 1, by omega⟩
    have hlt : ELF + (phoff disk + 32 * i) < ELF + (phoff disk + 32 * phnum disk) := by omega
    obtain ⟨hfits, hclear⟩ := hsegs i (by omega)
    have hscratch := hclear.scratch
    have hfuel' : nsect (segment disk i).filesz (segment disk i).off ≤ fuel := by
      have := hfits.nsect_lt
      omega
    obtain ⟨mem1, hpass, hnew, hsame⟩ := loadseg_spec disk mem hfits hfuel'
    have hlo := (segment disk i).lo_le_paddr
    have htop := (segment disk i).end_le_top
    -- the pass writes neither the scratch page nor a segment already loaded
    have hs1 : Scratch disk mem1 := fun j hj => by
      rw [hsame _ (by unfold ELF at *; omega)]
      exact hs j hj
    have hloaded1 : ∀ k < i + 1, Loaded disk mem1 (segment disk k) := fun k hk => by
      rcases Nat.lt_succ_iff_lt_or_eq.mp hk with hk | rfl
      · have hend := end_le_lo horder hk (by omega)
        exact (hloaded k hk).frame (hsegs k (by omega)).1.filesz_le fun a _ ha => hsame a (by omega)
      · exact hnew
    have hnext : (ELF + (phoff disk + 32 * i) + 32) % 2 ^ 32 = ELF + (phoff disk + 32 * (i + 1)) := by
      unfold ELF
      omega
    obtain ⟨mem', hrun, hs', hloaded'⟩ := ih (i + 1) n mem1 (by omega) (by omega) hs1 hloaded1
    refine ⟨mem', ?_, hs', hloaded'⟩
    rw [loadLoop, if_pos hlt, hs.proghdr (by omega), hpass, Option.bind_some, hnext, hrun]

end Loop

/-! ### `bootmain` -/

/-- The fields of a program header, stored at `ph`. -/
def writePh (m : Nat → UInt8) (ph : Nat) (h : Proghdr) : Nat → UInt8 :=
  write (write (write (write m (ph + 4) 4 h.off) (ph + 12) 4 h.paddr) (ph + 16) 4 h.filesz) (ph + 20) 4 h.memsz

/-- A disk holding, from sector 1, an ELF image with entry `e` and the two program headers
`h0` and `h1` at offset 52; every other byte of the image is `0xCC`. -/
def twoSegmentDisk (e : Nat) (h0 h1 : Proghdr) : Nat → UInt8 := fun a =>
  let img := write (write (write (write (fun _ => 0xCC) 0 4 ELF_MAGIC) 24 4 e) 28 4 52) 44 2 2
  writePh (writePh img 52 h0) 84 h1 (a - SECTSIZE)

/-- Both segments at sector-aligned offsets: 16 bytes and a bss to `0x100200`, then 16 bytes. -/
def alignedDisk : Nat → UInt8 :=
  twoSegmentDisk 0x100000 ⟨0x1000, 0x100000, 0x10, 0x200⟩ ⟨0x1200, 0x100200, 0x10, 0x10⟩

/-- The same image with the second segment at offset `0x300`, in the middle of a sector. -/
def unalignedDisk : Nat → UInt8 :=
  twoSegmentDisk 0x100000 ⟨0x1000, 0x100000, 0x10, 0x200⟩ ⟨0x300, 0x100200, 0x10, 0x10⟩

end Xv6.Bootmain
