import Xv6.Fs.FileBytes

/-!
# Freeing a file: `bfree`, `itrunc` and the last `iput`

When the last reference to an inode with no links goes, `iput` truncates it with `itrunc` and
frees it on disk (`ip->type = 0`, then `iupdate`). `itrunc` passes each direct block, each entry
of the indirect block and then the indirect block itself to `bfree`, which clears the block's
bit in the bitmap and logs the bitmap block, and panics if the bit was clear already; then it
zeroes the size and the addresses and writes the inode back.

On a well-formed file, inside an operation with room for two more log entries, this path never
panics, clears exactly the bits of the file's blocks, writes no block other than the bitmap
block, and leaves the on-disk inode free and empty (`iput_frees_file`). No `bfree` finds a clear
bit because the file's blocks are pairwise distinct and in use; a block two files shared would
be freed twice, and its second `bfree` would panic.

`Freed d d' S` says that `d'` is `d` with the bits of the blocks in `S` cleared, the bitmap block
logged, and nothing else changed. `bfree` of a block in use gives it for that block
(`bfree_freed`), and it composes (`Freed.trans`) over the three loops.
-/

namespace Xv6.Fs

open Xv6.Mkfs (entry nlog nmeta)

/-! ### The source -/

/-- `bfree(dev, b)`: the panic when `b`'s bit is clear, then `bp->data[bi/8] &= ~m` on the
bitmap block and `log_write`. -/
def bfree (sb : Superblock) (d : Disk) (b : Nat) : Except String Disk :=
  if Bitmap.test (d.block (BBLOCK b sb)).mem (b % BPB) = false then .error "freeing free block"
  else d.write (BBLOCK b sb) (Block.ofMem (Bitmap.clear (d.block (BBLOCK b sb)).mem (b % BPB)))

/-- `itrunc`'s loop over the direct entries `i` still to look at. -/
def freeDirect (sb : Superblock) : List (Fin (NDIRECT + 1)) → Disk → Inode →
    Except String (Disk × Inode)
  | [], d, ip => .ok (d, ip)
  | i :: is, d, ip =>
    if ip.addrs i ≠ 0 then do
      let d ← bfree sb d (ip.addrs i)
      freeDirect sb is d (ip.setAddr i 0)
    else freeDirect sb is d ip

/-- `itrunc`'s loop over the entries `a[j]` of the indirect block `ind` still to look at, each
read from the block's buffer as it is at that pass. -/
def freeEntries (sb : Superblock) (ind : Nat) : List Nat → Disk → Except String Disk
  | [], d => .ok d
  | j :: js, d =>
    if entry (d.block ind) j ≠ 0 then do
      let d ← bfree sb d (entry (d.block ind) j)
      freeEntries sb ind js d
    else freeEntries sb ind js d

/-- The direct entries `addrs[0 .. NDIRECT-1]`, in order. -/
def directs : List (Fin (NDIRECT + 1)) := (List.finRange NDIRECT).map Fin.castSucc

/-- `itrunc(ip)`. -/
def itrunc (sb : Superblock) (d : Disk) (ip : Inode) : Except String (Inode × Disk) := do
  let (d, ip) ← freeDirect sb directs d ip
  let (d, ip) ←
    if ip.addrs (Fin.last NDIRECT) ≠ 0 then do
      let d ← freeEntries sb (ip.addrs (Fin.last NDIRECT)) (List.range NINDIRECT) d
      let d ← bfree sb d (ip.addrs (Fin.last NDIRECT))
      pure (d, ip.setAddr (Fin.last NDIRECT) 0)
    else pure (d, ip)
  let ip := { ip with size := 0 }
  let d ← d.iupdate ip
  pure (ip, d)

/-- What the last `iput` of an inode with no links does on disk: `itrunc(ip)`, then
`ip->type = 0` and `iupdate(ip)`. -/
def iputFree (sb : Superblock) (d : Disk) (ip : Inode) : Except String (Inode × Disk) := do
  let (ip, d) ← itrunc sb d ip
  let ip := { ip with type := 0 }
  let d ← d.iupdate ip
  pure (ip, d)

/-! ### `bfree` -/

/-- The disk after `bfree` of block `b` of the disk: its bit cleared, the bitmap block logged. -/
def Disk.freed (d : Disk) (b : Nat) : Disk :=
  d.logged Mkfs.bmapstart (Block.ofMem (Bitmap.clear (d.block Mkfs.bmapstart).mem b))

/-- Logging a block already in the header changes nothing. -/
theorem absorb_absorb (lh : List Nat) (b : Nat) : Log.absorb (Log.absorb lh b) b = Log.absorb lh b :=
  if_pos (Log.mem_absorb.mpr (.inr rfl))

section Bfree

variable {d : Disk}

/-- `bfree` of a block of the disk in use, inside an operation with room in the log. -/
theorem bfree_ok (hout : 1 ≤ d.log.outstanding) (hroom : d.log.lh.length + 1 ≤ nlog - 1)
    {b : Nat} (hb : b < FSSIZE) (huse : d.inUse b = true) : bfree sb d b = .ok (d.freed b) := by
  have hmod : b % BPB = b := Nat.mod_eq_of_lt (by unfold BPB BSIZE; unfold FSSIZE at hb; omega)
  have htest : Bitmap.test (d.block (BBLOCK b sb)).mem (b % BPB) = true := huse
  rw [bfree, if_neg (by rw [htest]; decide), BBLOCK_eq hb, hmod, write_ok hout hroom]
  rfl

/-- After `bfree` of `b`, the blocks in use are those before less `b`. -/
theorem freed_inUse (b : Nat) {x : Nat} (hx : x < FSSIZE) :
    (d.freed b).inUse x = (x != b && d.inUse x) := by
  rw [inUse_eq hx, inUse_eq hx, Disk.freed, logged_block_self, test_ofMem hx, Bitmap.test_clear]

end Bfree

/-! ### Clearing bits -/

/-- `d'` is `d` with the bits of the blocks in `S` cleared and the bitmap block logged: no other
block, no inode and nothing else of the log changes. -/
structure Freed (d d' : Disk) (S : Nat → Prop) : Prop where
  inUse : ∀ x < FSSIZE, d'.inUse x = true ↔ d.inUse x = true ∧ ¬ S x
  block : ∀ y, y ≠ Mkfs.bmapstart → d'.block y = d.block y
  dinode : d'.dinode = d.dinode
  log : d'.log = d.log ∨ d'.log = { d.log with lh := Log.absorb d.log.lh Mkfs.bmapstart }

section Freed

variable {d d₁ d₂ : Disk} {S T : Nat → Prop}

theorem Freed.refl (d : Disk) : Freed d d fun _ => False :=
  ⟨fun _ _ => by simp, fun _ _ => rfl, rfl, .inl rfl⟩

/-- The same blocks, described another way. -/
theorem Freed.congr (h : Freed d d₁ S) (hST : ∀ x, S x ↔ T x) : Freed d d₁ T :=
  { h with inUse := fun x hx => by rw [h.inUse x hx, hST x] }

/-- Clearing `S`, then `T`, clears both. -/
theorem Freed.trans (h₁ : Freed d d₁ S) (h₂ : Freed d₁ d₂ T) : Freed d d₂ fun x => S x ∨ T x := by
  refine ⟨fun x hx => ?_, fun y hy => (h₂.block y hy).trans (h₁.block y hy),
    h₂.dinode.trans h₁.dinode, ?_⟩
  · rw [h₂.inUse x hx, h₁.inUse x hx]
    tauto
  · -- the bitmap block is in the header after the first write at the latest
    rcases h₁.log with e₁ | e₁ <;> rcases h₂.log with e₂ | e₂
    · exact .inl (e₂.trans e₁)
    · exact .inr (by rw [e₂, e₁])
    · exact .inr (by rw [e₂, e₁])
    · exact .inr (by rw [e₂, e₁, absorb_absorb])

/-- Clearing bits leaves `outstanding` and adds the bitmap block to the header at most. -/
theorem Freed.outstanding (h : Freed d d₁ S) : d₁.log.outstanding = d.log.outstanding := by
  rcases h.log with e | e <;> rw [e]

theorem Freed.length_le (h : Freed d d₁ S) : d₁.log.lh.length ≤ d.log.lh.length + 1 := by
  rcases h.log with e | e
  · rw [e]
    omega
  · rw [e]
    exact length_absorb_le _ _

/-- `bfree` of a block of the disk in use, inside an operation with room in the log, clears
that block's bit and nothing else. -/
theorem bfree_freed (hout : 1 ≤ d.log.outstanding) (hroom : d.log.lh.length + 1 ≤ nlog - 1)
    {b : Nat} (hb : b < FSSIZE) (huse : d.inUse b = true) :
    bfree sb d b = .ok (d.freed b) ∧ Freed d (d.freed b) fun x => x = b := by
  refine ⟨bfree_ok hout hroom hb huse, fun x hx => ?_, fun y hy => logged_block_of_ne _ hy, rfl,
    .inr rfl⟩
  rw [freed_inUse b hx]
  by_cases hxb : x = b <;> simp [hxb]

end Freed

/-! ### The two loops

Both loops of `itrunc` pass a list of indices and free the block `a i` of each index whose block
is not 0. `Fresh` is what the passes still to come need of their blocks; each pass keeps it for
the rest of the list with its own block added to the freed ones. -/

/-- The blocks `a i` of the indices `L` still to pass: distinct indices; each block not 0 is in
use at the start `d₀` and not freed yet, and no other index has it. -/
structure Fresh {ι : Type} (d₀ : Disk) (S : Nat → Prop) (a : ι → Nat) (L : List ι) : Prop where
  nodup : L.Nodup
  blk : ∀ i ∈ L, a i ≠ 0 → a i < FSSIZE ∧ d₀.inUse (a i) = true ∧ ¬ S (a i)
  inj : ∀ i ∈ L, ∀ j ∈ L, a i ≠ 0 → a i = a j → i = j

section Loops

variable {ι : Type} {d₀ d : Disk} {S : Nat → Prop} {a : ι → Nat} {i : ι} {is : List ι}

/-- After the pass over `i`, the rest of the list finds its blocks as fresh, `a i` now freed. -/
theorem Fresh.tail (hf : Fresh d₀ S a (i :: is)) :
    Fresh d₀ (fun x => S x ∨ (a i ≠ 0 ∧ a i = x)) a is := by
  obtain ⟨hi, hnd⟩ := List.nodup_cons.mp hf.nodup
  refine ⟨hnd, fun j hj hj0 => ?_, fun j hj k hk => hf.inj j (.tail _ hj) k (.tail _ hk)⟩
  obtain ⟨hb, huse, hnot⟩ := hf.blk j (.tail _ hj) hj0
  refine ⟨hb, huse, ?_⟩
  rintro (hS | ⟨hi0, heq⟩)
  · exact hnot hS
  · -- `a i = a j` with `a i ≠ 0` makes `i` and `j` one index, but `i` is not in the rest
    exact hi (hf.inj i (.head _) j (.tail _ hj) hi0 heq ▸ hj)

/-- The blocks a loop has freed once it has passed `i` and then `is`. -/
theorem freed_cons_iff (x : Nat) :
    ((S x ∨ (a i ≠ 0 ∧ a i = x)) ∨ ∃ j ∈ is, a j ≠ 0 ∧ a j = x) ↔
      S x ∨ ∃ j ∈ i :: is, a j ≠ 0 ∧ a j = x := by
  simp only [List.mem_cons, or_and_right, exists_or, exists_eq_left, or_assoc]

/-- A pass over an index whose block is 0 frees nothing. -/
theorem Freed.skip (h : Freed d₀ d S) (h0 : a i = 0) :
    Freed d₀ d fun x => S x ∨ (a i ≠ 0 ∧ a i = x) :=
  h.congr fun x => by simp [h0]

/-- A pass over an index whose block is not 0: `bfree` of it succeeds and frees it, within the
room the start left, as the header has grown by the bitmap block at most. -/
theorem Freed.pass (h : Freed d₀ d S) (hf : Fresh d₀ S a (i :: is))
    (hout : 1 ≤ d₀.log.outstanding) (hroom : d₀.log.lh.length + 2 ≤ nlog - 1) (h0 : a i ≠ 0) :
    bfree sb d (a i) = .ok (d.freed (a i)) ∧
      Freed d₀ (d.freed (a i)) fun x => S x ∨ (a i ≠ 0 ∧ a i = x) := by
  obtain ⟨hb, huse, hnot⟩ := hf.blk i (.head _) h0
  have hout' : 1 ≤ d.log.outstanding := by rw [h.outstanding]; exact hout
  have hroom' : d.log.lh.length + 1 ≤ nlog - 1 := by
    have := h.length_le
    omega
  have huse' : d.inUse (a i) = true := (h.inUse _ hb).mpr ⟨huse, hnot⟩
  obtain ⟨hok, hfreed⟩ := bfree_freed hout' hroom' hb huse'
  exact ⟨hok, (h.trans hfreed).congr fun x => by simp [h0, eq_comm]⟩

end Loops

/-- The inode with the entries `L` zeroed, as `itrunc`'s first loop leaves it. -/
def Inode.zeroed (ip : Inode) (L : List (Fin (NDIRECT + 1))) : Inode :=
  { ip with addrs := fun j => if j ∈ L then 0 else ip.addrs j }

section Zeroed

variable (ip : Inode) {i : Fin (NDIRECT + 1)} {is : List (Fin (NDIRECT + 1))}

@[simp] theorem zeroed_nil : ip.zeroed [] = ip := by
  cases ip
  simp [Inode.zeroed]

/-- Zeroing entry `i` and then the rest. -/
theorem zeroed_setAddr (hi : i ∉ is) : (ip.setAddr i 0).zeroed is = ip.zeroed (i :: is) := by
  simp only [Inode.zeroed, Inode.setAddr, Inode.mk.injEq, true_and]
  funext j
  by_cases hj : j = i
  · subst hj
    simp [hi]
  · simp [hj]

/-- An entry that is 0 already needs no zeroing. -/
theorem zeroed_of_zero (h0 : ip.addrs i = 0) : ip.zeroed is = ip.zeroed (i :: is) := by
  simp only [Inode.zeroed, Inode.mk.injEq, true_and]
  funext j
  by_cases hj : j = i
  · subst hj
    simp [h0]
  · simp [hj]

end Zeroed

section LoopSpecs

variable {d₀ : Disk}

/-- `itrunc`'s first loop frees the blocks of the entries it passes and zeroes those entries.
The induction is on the entries left, with the blocks freed so far in `S`. -/
theorem freeDirect_spec (hout : 1 ≤ d₀.log.outstanding) (hroom : d₀.log.lh.length + 2 ≤ nlog - 1)
    (a : Fin (NDIRECT + 1) → Nat) :
    ∀ (L : List (Fin (NDIRECT + 1))) (d : Disk) (ip : Inode) (S : Nat → Prop),
      Fresh d₀ S a L → Freed d₀ d S → (∀ i ∈ L, ip.addrs i = a i) →
      ∃ d', freeDirect sb L d ip = .ok (d', ip.zeroed L) ∧
        Freed d₀ d' fun x => S x ∨ ∃ i ∈ L, a i ≠ 0 ∧ a i = x
  | [], d, ip, S, _, h, _ => ⟨d, by rw [zeroed_nil]; rfl, h.congr fun x => by simp⟩
  | i :: is, d, ip, S, hf, h, hip => by
    have hi : i ∉ is := (List.nodup_cons.mp hf.nodup).1
    have hrest : ∀ j ∈ is, ip.addrs j = a j := fun j hj => hip j (.tail _ hj)
    rw [freeDirect]
    by_cases h0 : a i = 0
    · -- nothing to free at `i`
      have hz : ip.addrs i = 0 := (hip i (.head _)).trans h0
      obtain ⟨d', hrun, hfreed⟩ :=
        freeDirect_spec hout hroom a is d ip _ hf.tail (h.skip h0) hrest
      refine ⟨d', ?_, hfreed.congr freed_cons_iff⟩
      rw [if_neg (not_not.mpr hz), hrun, zeroed_of_zero ip hz]
    · -- `i`'s block goes, and its entry with it
      obtain ⟨hok, hfreed⟩ := h.pass hf hout hroom h0
      have hkeep : ∀ j ∈ is, (ip.setAddr i 0).addrs j = a j := fun j hj => by
        rw [setAddr_addrs, Function.update_of_ne (fun (e : j = i) => hi (e ▸ hj)), hrest j hj]
      obtain ⟨d', hrun, hfreed'⟩ := freeDirect_spec hout hroom a is _ _ _ hf.tail hfreed hkeep
      refine ⟨d', ?_, hfreed'.congr freed_cons_iff⟩
      rw [hip i (.head _), if_pos h0, hok, ← zeroed_setAddr ip hi]
      exact hrun

/-- `itrunc`'s second loop frees the blocks the entries of the indirect block `ind` name. It
reads each entry from the disk as it is at that pass, which is `ind` as it was at the start:
`bfree` writes only the bitmap block. -/
theorem freeEntries_spec (hout : 1 ≤ d₀.log.outstanding)
    (hroom : d₀.log.lh.length + 2 ≤ nlog - 1) {ind : Nat} (hind : ind ≠ Mkfs.bmapstart) :
    ∀ (js : List Nat) (d : Disk) (S : Nat → Prop), Fresh d₀ S (entry (d₀.block ind)) js →
      Freed d₀ d S → ∃ d', freeEntries sb ind js d = .ok d' ∧
        Freed d₀ d' fun x => S x ∨ ∃ j ∈ js, entry (d₀.block ind) j ≠ 0 ∧ entry (d₀.block ind) j = x
  | [], d, S, _, h => ⟨d, rfl, h.congr fun x => by simp⟩
  | j :: js, d, S, hf, h => by
    rw [freeEntries, h.block ind hind]
    by_cases h0 : entry (d₀.block ind) j = 0
    · rw [if_neg (not_not.mpr h0)]
      obtain ⟨d', hrun, hfreed⟩ := freeEntries_spec hout hroom hind js d _ hf.tail (h.skip h0)
      exact ⟨d', hrun, hfreed.congr freed_cons_iff⟩
    · obtain ⟨hok, hfreed⟩ := h.pass hf hout hroom h0
      obtain ⟨d', hrun, hfreed'⟩ := freeEntries_spec hout hroom hind js _ _ hf.tail hfreed
      refine ⟨d', ?_, hfreed'.congr freed_cons_iff⟩
      rw [if_pos h0, hok]
      exact hrun

end LoopSpecs

/-! ### The file's blocks -/

theorem mem_directs {i : Fin (NDIRECT + 1)} : i ∈ directs ↔ i ≠ Fin.last NDIRECT := by
  simp only [directs, List.mem_map, List.mem_finRange, true_and, Fin.exists_castSucc_eq]

theorem nodup_directs : directs.Nodup :=
  (List.nodup_finRange NDIRECT).map (Fin.castSucc_injective NDIRECT)

theorem blockAddr_castSucc (d : Disk) (ip : Inode) (k : Fin NDIRECT) :
    blockAddr d ip k = ip.addrs k.castSucc := by
  rw [blockAddr, dif_pos k.isLt]
  rfl

theorem blockAddr_entry (d : Disk) {ip : Inode} (hind : ip.addrs (Fin.last NDIRECT) ≠ 0) (j : Nat) :
    blockAddr d ip (NDIRECT + j) = entry (d.block (ip.addrs (Fin.last NDIRECT))) j := by
  rw [blockAddr, dif_neg (by omega), if_neg hind, Nat.add_sub_cancel_left]

/-- The file's blocks, in the order `itrunc` passes them: its direct blocks, then, when it has an
indirect block, the blocks the entries name and the indirect block itself. -/
theorem owns_iff (d : Disk) (ip : Inode) (x : Nat) :
    Owns d ip x ↔ (∃ i ∈ directs, ip.addrs i ≠ 0 ∧ ip.addrs i = x) ∨
      (ip.addrs (Fin.last NDIRECT) ≠ 0 ∧
        ((∃ j ∈ List.range NINDIRECT, entry (d.block (ip.addrs (Fin.last NDIRECT))) j ≠ 0 ∧
          entry (d.block (ip.addrs (Fin.last NDIRECT))) j = x) ∨
        ip.addrs (Fin.last NDIRECT) = x)) := by
  constructor
  · rintro ⟨hx, ⟨bn, hbn, hb⟩ | hlast⟩
    · by_cases hd : bn < NDIRECT
      · -- a direct block
        have hb' : ip.addrs (Fin.castSucc ⟨bn, hd⟩) = x := by
          rw [← blockAddr_castSucc]
          exact hb
        exact .inl ⟨_, mem_directs.mpr (Fin.castSucc_ne_last _), hb' ▸ hx, hb'⟩
      · -- a block an entry names, so the file has an indirect block
        have hind : ip.addrs (Fin.last NDIRECT) ≠ 0 := fun h0 => by
          rw [blockAddr, dif_neg hd, if_pos h0] at hb
          exact hx hb.symm
        obtain ⟨j, rfl⟩ : ∃ j, bn = NDIRECT + j := ⟨bn - NDIRECT, by omega⟩
        rw [blockAddr_entry d hind] at hb
        exact .inr ⟨hind, .inl ⟨j, List.mem_range.mpr (by unfold MAXFILE at hbn; omega),
          hb ▸ hx, hb⟩⟩
    · exact .inr ⟨hlast ▸ hx, .inr hlast⟩
  · rintro (⟨i, hi, hi0, rfl⟩ | ⟨hind, ⟨j, hj, hj0, rfl⟩ | rfl⟩)
    · obtain ⟨k, rfl⟩ := Fin.exists_castSucc_eq.mpr (mem_directs.mp hi)
      exact ⟨hi0, .inl ⟨k, by unfold MAXFILE; omega, blockAddr_castSucc d ip k⟩⟩
    · have hj' : j < NINDIRECT := List.mem_range.mp hj
      exact ⟨hj0, .inl ⟨NDIRECT + j, by unfold MAXFILE; omega, blockAddr_entry d hind j⟩⟩
    · exact ⟨hind, .inr rfl⟩

section Owned

variable {d : Disk} {ip : Inode}

/-- A block of a well-formed file is in use and not 0. -/
theorem FileWF.owned_blk (hwf : FileWF d ip) {x : Nat} (hx : Owns d ip x) :
    x < FSSIZE ∧ d.inUse x = true := ⟨(hwf.owned x hx).2.1, (hwf.owned x hx).2.2⟩

/-- The direct entries of a well-formed file are fresh for the first loop. -/
theorem FileWF.fresh_directs (hwf : FileWF d ip) : Fresh d (fun _ => False) ip.addrs directs := by
  refine ⟨nodup_directs, fun i hi hi0 => ?_, fun i hi j hj hi0 heq => ?_⟩
  · obtain ⟨hb, huse⟩ := hwf.owned_blk ((owns_iff d ip _).mpr (.inl ⟨i, hi, hi0, rfl⟩))
    exact ⟨hb, huse, id⟩
  · -- two direct entries with one block are one file block
    obtain ⟨k, rfl⟩ := Fin.exists_castSucc_eq.mpr (mem_directs.mp hi)
    obtain ⟨k', rfl⟩ := Fin.exists_castSucc_eq.mpr (mem_directs.mp hj)
    rw [← blockAddr_castSucc, ← blockAddr_castSucc] at heq
    rw [← blockAddr_castSucc] at hi0
    have hk : (k : Nat) = k' :=
      hwf.inj k (by unfold MAXFILE; omega) k' (by unfold MAXFILE; omega) hi0 heq
    rw [Fin.ext hk]

/-- The entries of the indirect block of a well-formed file are fresh for the second loop:
no entry names a direct block. -/
theorem FileWF.fresh_entries (hwf : FileWF d ip) (hind : ip.addrs (Fin.last NDIRECT) ≠ 0) :
    Fresh d (fun x => ∃ i ∈ directs, ip.addrs i ≠ 0 ∧ ip.addrs i = x)
      (entry (d.block (ip.addrs (Fin.last NDIRECT)))) (List.range NINDIRECT) := by
  refine ⟨List.nodup_range, fun j hj hj0 => ?_, fun j hj k hk hj0 heq => ?_⟩
  · have hj' : j < NINDIRECT := List.mem_range.mp hj
    obtain ⟨hb, huse⟩ :=
      hwf.owned_blk ((owns_iff d ip _).mpr (.inr ⟨hind, .inl ⟨j, hj, hj0, rfl⟩⟩))
    refine ⟨hb, huse, ?_⟩
    rintro ⟨i, hi, hi0, heq⟩
    obtain ⟨k, rfl⟩ := Fin.exists_castSucc_eq.mpr (mem_directs.mp hi)
    rw [← blockAddr_castSucc, ← blockAddr_entry d hind] at heq
    rw [← blockAddr_castSucc] at hi0
    have := hwf.inj k (by unfold MAXFILE; omega) (NDIRECT + j) (by unfold MAXFILE; omega) hi0 heq
    omega
  · have hj' : j < NINDIRECT := List.mem_range.mp hj
    have hk' : k < NINDIRECT := List.mem_range.mp hk
    rw [← blockAddr_entry d hind, ← blockAddr_entry d hind] at heq
    rw [← blockAddr_entry d hind] at hj0
    have := hwf.inj _ (by unfold MAXFILE; omega) _ (by unfold MAXFILE; omega) hj0 heq
    omega

/-- The indirect block of a well-formed file is fresh for the `bfree` after the second loop: it
is neither a direct block nor named by an entry. -/
theorem FileWF.fresh_indirect (hwf : FileWF d ip) (hind : ip.addrs (Fin.last NDIRECT) ≠ 0) :
    Fresh d (fun x => (∃ i ∈ directs, ip.addrs i ≠ 0 ∧ ip.addrs i = x) ∨
        ∃ j ∈ List.range NINDIRECT, entry (d.block (ip.addrs (Fin.last NDIRECT))) j ≠ 0 ∧
          entry (d.block (ip.addrs (Fin.last NDIRECT))) j = x)
      (fun _ : Unit => ip.addrs (Fin.last NDIRECT)) [()] := by
  refine ⟨List.nodup_singleton _, fun _ _ _ => ?_, fun _ _ _ _ _ _ => rfl⟩
  obtain ⟨hb, huse⟩ := hwf.owned_blk ((owns_iff d ip _).mpr (.inr ⟨hind, .inr rfl⟩))
  refine ⟨hb, huse, ?_⟩
  rintro (⟨i, hi, hi0, heq⟩ | ⟨j, hj, hj0, heq⟩)
  · obtain ⟨k, rfl⟩ := Fin.exists_castSucc_eq.mpr (mem_directs.mp hi)
    rw [← blockAddr_castSucc] at heq hi0
    exact hwf.indirect k (by unfold MAXFILE; omega) hi0 heq
  · have hj' : j < NINDIRECT := List.mem_range.mp hj
    rw [← blockAddr_entry d hind] at heq hj0
    exact hwf.indirect _ (by unfold MAXFILE; omega) hj0 heq

end Owned

/-! ### `itrunc` and the last `iput` -/

/-- The disk after `iupdate(ip)` inside an operation with room: the inode's `struct dinode` takes
its type, size and addresses, and its block is in the header. -/
def Disk.updated (d : Disk) (ip : Inode) : Disk :=
  { d with
    dinode := Function.update d.dinode ip.inum
      { d.dinode ip.inum with type := ip.type, size := ip.size, addrs := ip.addrs },
    log := { d.log with lh := Log.absorb d.log.lh (IBLOCK ip.inum) } }

section Itrunc

variable {d : Disk} {ip : Inode}

@[simp] theorem updated_block (ip : Inode) : (d.updated ip).block = d.block := rfl

@[simp] theorem updated_inUse (ip : Inode) : (d.updated ip).inUse = d.inUse := rfl

@[simp] theorem updated_outstanding (ip : Inode) :
    (d.updated ip).log.outstanding = d.log.outstanding := rfl

theorem iupdate_eq (hout : 1 ≤ d.log.outstanding) (hroom : d.log.lh.length + 1 ≤ nlog - 1)
    (ip : Inode) : d.iupdate ip = .ok (d.updated ip) := by
  have hsize : ¬(d.log.lh.length ≥ LOGSIZE ∨ d.log.lh.length ≥ nlog - 1) := by
    unfold nlog at *
    omega
  rw [Disk.iupdate, Log.logWrite, if_neg hsize, if_neg (by omega)]
  rfl

/-- With no indirect block, the first loop leaves every entry 0. -/
theorem truncated_of_zero (hind : ip.addrs (Fin.last NDIRECT) = 0) :
    { ip.zeroed directs with size := 0 } = { ip with size := 0, addrs := fun _ => 0 } := by
  simp only [Inode.zeroed, Inode.mk.injEq, true_and]
  funext j
  by_cases hj : j = Fin.last NDIRECT
  · simp [hj, mem_directs, hind]
  · simp [mem_directs, hj]

/-- With one, the first loop and the zeroing of `addrs[NDIRECT]` leave every entry 0. -/
theorem truncated_of_ne :
    { (ip.zeroed directs).setAddr (Fin.last NDIRECT) 0 with size := 0 } =
      { ip with size := 0, addrs := fun _ => 0 } := by
  simp only [Inode.zeroed, Inode.setAddr, Inode.mk.injEq, true_and]
  funext j
  by_cases hj : j = Fin.last NDIRECT
  · simp [hj]
  · simp [mem_directs, hj]

/-- `itrunc` of a well-formed file inside an operation with room for the bitmap block and the
inode's block: it frees exactly the file's blocks, and writes back the inode with size 0 and no
blocks. -/
theorem itrunc_spec (hwf : FileWF d ip) (hout : 1 ≤ d.log.outstanding)
    (hroom : d.log.lh.length + 2 ≤ nlog - 1) :
    ∃ d₁, Freed d d₁ (Owns d ip) ∧
      itrunc sb d ip = .ok ({ ip with size := 0, addrs := fun _ => 0 },
        d₁.updated { ip with size := 0, addrs := fun _ => 0 }) := by
  obtain ⟨d₁, hrun₁, hfreed₁⟩ := freeDirect_spec hout hroom ip.addrs directs d ip _
    hwf.fresh_directs (Freed.refl d) fun _ _ => rfl
  have hlast : (ip.zeroed directs).addrs (Fin.last NDIRECT) = ip.addrs (Fin.last NDIRECT) := by
    simp [Inode.zeroed, mem_directs]
  rw [itrunc, hrun₁, Except.ok_bind]
  dsimp only
  rw [hlast]
  by_cases hind : ip.addrs (Fin.last NDIRECT) = 0
  · -- no indirect block: the direct blocks are all of the file's
    have hroom₁ : d₁.log.lh.length + 1 ≤ nlog - 1 := by
      have := hfreed₁.length_le
      omega
    rw [if_neg (not_not.mpr hind), pure_bind]
    dsimp only
    rw [truncated_of_zero hind, iupdate_eq (by rw [hfreed₁.outstanding]; exact hout) hroom₁,
      Except.ok_bind]
    refine ⟨d₁, hfreed₁.congr fun x => ?_, rfl⟩
    rw [owns_iff]
    simp [hind]
  · -- the entries' blocks, then the indirect block itself, which is not the bitmap block
    have hmeta : nmeta ≤ ip.addrs (Fin.last NDIRECT) :=
      (hwf.owned _ ((owns_iff d ip _).mpr (.inr ⟨hind, .inr rfl⟩))).1
    have hne : ip.addrs (Fin.last NDIRECT) ≠ Mkfs.bmapstart := by
      have := bmapstart_lt_nmeta
      omega
    obtain ⟨d₂, hrun₂, hfreed₂⟩ := freeEntries_spec hout hroom hne _ d₁ _
      (hwf.fresh_entries hind) (hfreed₁.congr fun x => by rw [false_or])
    obtain ⟨hok, hfreed₃⟩ := hfreed₂.pass (hwf.fresh_indirect hind) hout hroom hind
    have hroom₃ : (d₂.freed (ip.addrs (Fin.last NDIRECT))).log.lh.length + 1 ≤ nlog - 1 := by
      have := hfreed₃.length_le
      omega
    rw [if_pos hind, hrun₂, Except.ok_bind, hok, Except.ok_bind, pure_bind]
    dsimp only
    rw [truncated_of_ne, iupdate_eq (by rw [hfreed₃.outstanding]; exact hout) hroom₃,
      Except.ok_bind]
    refine ⟨_, hfreed₃.congr fun x => ?_, rfl⟩
    rw [owns_iff]
    simp only [ne_eq, hind, not_false_eq_true, true_and, or_assoc]

/-- The last `iput` of a well-formed file with no links, inside an operation with room for the
bitmap block and the inode's block: it does not panic; it clears exactly the bits of the file's
blocks and writes no block but the bitmap block; it frees the on-disk inode, with size 0 and no
blocks; and the header grows by those two blocks at most. -/
theorem iput_frees_file (hwf : FileWF d ip) (hout : 1 ≤ d.log.outstanding)
    (hroom : d.log.lh.length + 3 ≤ nlog - 1) :
    ∃ d', iputFree sb d ip = .ok ({ ip with type := 0, size := 0, addrs := fun _ => 0 }, d') ∧
      (∀ x < FSSIZE, d'.inUse x = true ↔ d.inUse x = true ∧ ¬ Owns d ip x) ∧
      (∀ b, b ≠ Mkfs.bmapstart → d'.block b = d.block b) ∧
      d'.dinode = Function.update d.dinode ip.inum
        { d.dinode ip.inum with type := 0, size := 0, addrs := fun _ => 0 } ∧
      d'.log.outstanding = d.log.outstanding ∧ d'.log.lh.length ≤ d.log.lh.length + 2 := by
  obtain ⟨d₁, hfreed, hrun⟩ := itrunc_spec hwf hout (by omega)
  -- both `iupdate`s log the inode's block, the second one absorbed by the first
  have hlen : (d₁.updated { ip with size := 0, addrs := fun _ => 0 }).log.lh.length ≤
      d.log.lh.length + 2 := by
    have := hfreed.length_le
    have := length_absorb_le d₁.log.lh (IBLOCK ip.inum)
    simp only [Disk.updated]
    omega
  rw [iputFree, hrun, Except.ok_bind]
  dsimp only
  rw [iupdate_eq (by rw [updated_outstanding, hfreed.outstanding]; exact hout) (by omega),
    Except.ok_bind]
  refine ⟨_, rfl, fun x hx => hfreed.inUse x hx, fun b hb => hfreed.block b hb, ?_,
    hfreed.outstanding, ?_⟩
  · simp [Disk.updated, hfreed.dinode]
  · simp only [Disk.updated, absorb_absorb] at hlen ⊢
    exact hlen

end Itrunc

/-! ### A file with an indirect block -/

/-- A file of 6145 bytes, inode 2: twelve direct blocks, 59 to 70, and its thirteenth block, 72,
named by entry 0 of its indirect block, 71. -/
def indirectFile : Inode := ⟨2, 2, 6145, fun j => if j.val < NDIRECT then 59 + j.val else 71⟩

/-- A disk whose bitmap marks the metadata blocks and the file's, bits 0 to 72, with the
file's indirect block and its unlinked on-disk inode, inside an operation with an empty log. -/
def indirectDisk : Disk :=
  ⟨fun b => if b = Mkfs.bmapstart then
      Block.ofMem fun i => if i < 9 then 0xFF else if i = 9 then 1 else 0
    else if b = 71 then Block.ofMem fun i => if i = 0 then 72 else 0
    else fun _ => 0,
    fun i => if i = 2 then ⟨2, 0, 6145, indirectFile.addrs⟩ else ⟨0, 0, 0, fun _ => 0⟩,
    ⟨[], 1, false⟩⟩

theorem blockAddr_indirectFile : ∀ bn < MAXFILE,
    blockAddr indirectDisk indirectFile bn =
      if bn < NDIRECT then 59 + bn else if bn = NDIRECT then 72 else 0 := by
  decide

/-- The bits the bitmap sets: bytes 0 to 8 whole, and the first bit of byte 9. -/
theorem inUse_indirectDisk {x : Nat} (hx : x < FSSIZE) : indirectDisk.inUse x = true ↔ x < 73 := by
  by_cases hlow : x < 80
  · have h : ∀ x < 80, indirectDisk.inUse x = true ↔ x < 73 := by decide
    exact h x hlow
  · -- a bit of a byte past those the bitmap block sets
    have hbyte : x / 8 < BSIZE := by
      unfold BSIZE
      unfold FSSIZE at hx
      omega
    have hbm : indirectDisk.block Mkfs.bmapstart =
        Block.ofMem fun i => if i < 9 then 0xFF else if i = 9 then 1 else 0 := by
      dsimp only [indirectDisk]
      rw [if_pos rfl]
    rw [inUse_eq hx, hbm, Bitmap.test_eq, Block.mem_ofMem hbyte, if_neg (by omega), if_neg (by omega)]
    simp only [UInt8.toNat_zero, Nat.zero_testBit, Bool.false_eq_true, false_iff]
    omega

/-- The file's blocks are 59 to 72. -/
theorem owns_indirectFile {x : Nat} : Owns indirectDisk indirectFile x ↔ 59 ≤ x ∧ x ≤ 72 := by
  have hlast : indirectFile.addrs (Fin.last NDIRECT) = 71 := rfl
  constructor
  · rintro ⟨hx, ⟨bn, hbn, rfl⟩ | hind⟩
    · rw [blockAddr_indirectFile bn hbn] at hx ⊢
      unfold NDIRECT at *
      split_ifs at hx ⊢ <;> omega
    · rw [hlast] at hind
      omega
  · rintro ⟨h₁, h₂⟩
    refine ⟨by omega, ?_⟩
    by_cases h71 : x = 71
    · exact .inr (hlast.trans h71.symm)
    · -- a direct block, or the block entry 0 names
      refine .inl ⟨if x = 72 then NDIRECT else x - 59, ?_, ?_⟩
      · unfold MAXFILE NDIRECT NINDIRECT BSIZE
        split_ifs <;> omega
      · rw [blockAddr_indirectFile _ (by unfold MAXFILE NDIRECT NINDIRECT BSIZE; split_ifs <;> omega)]
        unfold NDIRECT
        split_ifs <;> omega

theorem indirectFile_wf : FileWF indirectDisk indirectFile where
  metaUsed b hb := (inUse_indirectDisk (by unfold FSSIZE; rw [Mkfs.nmeta_eq] at hb; omega)).mpr
    (by rw [Mkfs.nmeta_eq] at hb; omega)
  owned b hb := by
    obtain ⟨h₁, h₂⟩ := owns_indirectFile.mp hb
    exact ⟨by rw [Mkfs.nmeta_eq]; exact h₁, by unfold FSSIZE; omega,
      (inUse_indirectDisk (by unfold FSSIZE; omega)).mpr (by omega)⟩
  inj bn hbn bn' hbn' h0 heq := by
    rw [blockAddr_indirectFile bn hbn, blockAddr_indirectFile bn' hbn'] at *
    unfold NDIRECT at *
    split_ifs at h0 heq <;> omega
  indirect bn hbn h0 := by
    rw [show indirectFile.addrs (Fin.last NDIRECT) = 71 from rfl, blockAddr_indirectFile bn hbn] at *
    unfold NDIRECT at *
    split_ifs at h0 ⊢ <;> omega
  mapped bn hbn hsize := by
    rw [blockAddr_indirectFile bn hbn]
    have : indirectFile.size = 6145 := rfl
    unfold NDIRECT
    unfold BSIZE at hsize
    split_ifs <;> omega
  size_le := by decide


/-- The last `iput` of `indirectFile`: the bits of its direct blocks, of the block its indirect
block names and of the indirect block are cleared, and only the metadata blocks' are left. -/
theorem iput_frees_file_indirect :
    ∃ d', iputFree sb indirectDisk indirectFile =
        .ok ({ indirectFile with type := 0, size := 0, addrs := fun _ => 0 }, d') ∧
      (∀ x < FSSIZE, d'.inUse x = true ↔
        indirectDisk.inUse x = true ∧ ¬ Owns indirectDisk indirectFile x) ∧
      (∀ b, b ≠ Mkfs.bmapstart → d'.block b = indirectDisk.block b) ∧
      d'.dinode = Function.update indirectDisk.dinode indirectFile.inum
        { indirectDisk.dinode indirectFile.inum with type := 0, size := 0, addrs := fun _ => 0 } ∧
      d'.log.outstanding = indirectDisk.log.outstanding ∧
      d'.log.lh.length ≤ indirectDisk.log.lh.length + 2 ∧
      ∀ x < FSSIZE, d'.inUse x = true ↔ x < nmeta := by
  obtain ⟨d', hrun, huse, hblk, hdin, hout, hlen⟩ :=
    iput_frees_file indirectFile_wf (by decide) (by decide)
  refine ⟨d', hrun, huse, hblk, hdin, hout, hlen, fun x hx => ?_⟩
  -- the bits left are those of the blocks below the file's, the metadata blocks
  rw [huse x hx, inUse_indirectDisk hx, owns_indirectFile, Mkfs.nmeta_eq]
  omega

end Xv6.Fs
