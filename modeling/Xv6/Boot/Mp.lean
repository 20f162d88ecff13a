import Xv6.Param
import Xv6.Lib.LittleEndian

/-!
# The MP configuration table

`mpinit` walks the entries of the MP configuration table that `mpconfig` accepted, from the end
of the 44-byte header to `conf + conf->length`. It records a processor for each `MPPROC` entry
while there is room in `cpus`, the I/O APIC's id for an `MPIOAPIC` entry, and steps over the
three 8-byte entry types it ignores. For any other type byte it clears `ismp` and leaves the
`switch` with `break`, which does not leave the `for` loop: `p` does not move, and the walk
never ends (`mpLoop_spins`). A walk that meets only known types ends (`mpLoop_ends`), with at
most `NCPU` processors recorded (`mpLoop_ncpu_le`).

The table is a byte store at its virtual address; the floating pointer `mpsearch` finds and
the IMCR are not modelled.
-/

namespace Xv6.Mp

/-! ### Entry types and sizes of `mp.h` -/

def MPPROC : UInt8 := 0x00
def MPBUS : UInt8 := 0x01
def MPIOAPIC : UInt8 := 0x02
def MPIOINTR : UInt8 := 0x03
def MPLINTR : UInt8 := 0x04

/-- `sizeof(struct mpconf)`, `sizeof(struct mpproc)` and `sizeof(struct mpioapic)`. -/
def sizeofMpconf : Nat := 44
def sizeofMpproc : Nat := 20
def sizeofMpioapic : Nat := 8

/-- The state of `mpinit`'s loop: `p`, `ncpu` with the APIC ids of `cpus[0 .. ncpu)`,
`ioapicid` and `ismp`. -/
structure MpState where
  p : Nat
  ncpu : Nat
  apicids : List UInt8
  ioapicid : UInt8
  ismp : Bool

/-- One pass of the loop: the `switch(*p)`. The `default` case's `break` leaves the `switch`
only. -/
def mpStep (mem : Nat → UInt8) (s : MpState) : MpState :=
  let t := mem s.p
  if t = MPPROC then
    -- `cpus[ncpu].apicid = proc->apicid` while `ncpu < NCPU`
    let s := if s.ncpu < NCPU then { s with ncpu := s.ncpu + 1, apicids := s.apicids ++ [mem (s.p + 1)] }
      else s
    { s with p := s.p + sizeofMpproc }
  else if t = MPIOAPIC then { s with ioapicid := mem (s.p + 1), p := s.p + sizeofMpioapic }
  else if t = MPBUS ∨ t = MPIOINTR ∨ t = MPLINTR then { s with p := s.p + 8 }
  else { s with ismp := false }

/-- `for(; p < e; )` with `fuel` passes: `none` when they run out with `p < e`. -/
def mpLoop (mem : Nat → UInt8) (e : Nat) : Nat → MpState → Option MpState
  | 0, s => if s.p < e then none else some s
  | fuel + 1, s => if s.p < e then mpLoop mem e fuel (mpStep mem s) else some s

/-- `sum(addr, len)`: the bytes added up as a `uchar`. -/
def sum (mem : Nat → UInt8) (addr len : Nat) : UInt8 :=
  ((List.range len).map fun i => mem (addr + i)).foldl (· + ·) 0

/-- `mpconfig`'s tests of the table at `conf`: the signature `"PCMP"`, version 1 or 4, and the
bytes of `conf->length` summing to 0. -/
def mpconfigOk (mem : Nat → UInt8) (conf : Nat) : Bool :=
  (List.range 4).map (fun i => mem (conf + i)) == cstr "PCMP" &&
    (mem (conf + 6) == 1 || mem (conf + 6) == 4) &&
    sum mem conf (LittleEndian.read mem (conf + 4) 2) == 0

/-- `mpinit()` for the table at `conf`, with `fuel` passes for its loop: `none` when they run
out, the panics as errors, and otherwise the processors and I/O APIC found. -/
def mpinit (mem : Nat → UInt8) (conf fuel : Nat) : Option (Except String MpState) :=
  if !mpconfigOk mem conf then some (.error "Expect to run on an SMP")
  else (mpLoop mem (conf + LittleEndian.read mem (conf + 4) 2) fuel
      ⟨conf + sizeofMpconf, 0, [], 0, true⟩).map fun s =>
    if s.ismp then .ok s else .error "Didn't find a suitable machine"

/-! ### The walk -/

/-- How far one pass moves `p` for an entry of type `t`: 0 for the types the `switch` does
not know. -/
def entrySize (t : UInt8) : Nat :=
  if t = MPPROC then sizeofMpproc
  else if t = MPIOAPIC then sizeofMpioapic
  else if t = MPBUS ∨ t = MPIOINTR ∨ t = MPLINTR then 8
  else 0

section Walk

variable {mem : Nat → UInt8} {e : Nat}

theorem mpStep_p (s : MpState) : (mpStep mem s).p = s.p + entrySize (mem s.p) := by
  unfold mpStep entrySize
  dsimp only
  split_ifs <;> rfl

/-- One pass keeps `ncpu` within `cpus` and the ids recorded one per processor. -/
theorem mpStep_ncpu (s : MpState) (h : s.ncpu ≤ NCPU ∧ s.apicids.length = s.ncpu) :
    (mpStep mem s).ncpu ≤ NCPU ∧ (mpStep mem s).apicids.length = (mpStep mem s).ncpu := by
  unfold mpStep
  dsimp only
  split_ifs <;> simp only [List.length_append, List.length_singleton] <;> omega

theorem mpLoop_ncpu_le {fuel : Nat} {s s' : MpState} (h : s.ncpu ≤ NCPU ∧ s.apicids.length = s.ncpu)
    (hrun : mpLoop mem e fuel s = some s') : s'.ncpu ≤ NCPU ∧ s'.apicids.length = s'.ncpu := by
  -- induction on the passes, the bound carried by `mpStep_ncpu`
  induction fuel generalizing s with
  | zero =>
    rw [mpLoop] at hrun
    split_ifs at hrun
    cases hrun
    exact h
  | succ fuel ih =>
    rw [mpLoop] at hrun
    split_ifs at hrun
    · exact ih (mpStep_ncpu s h) hrun
    · cases hrun
      exact h

/-- At an entry of a type the `switch` does not know, the walk stays where it is for good. -/
theorem mpLoop_stuck {s : MpState} (hlt : s.p < e) (ht : entrySize (mem s.p) = 0) :
    ∀ fuel, mpLoop mem e fuel s = none := by
  intro fuel
  induction fuel generalizing s with
  | zero => rw [mpLoop, if_pos hlt]
  | succ fuel ih =>
    have hp : (mpStep mem s).p = s.p := by rw [mpStep_p, ht, Nat.add_zero]
    rw [mpLoop, if_pos hlt]
    exact ih (hp ▸ hlt) (hp ▸ ht)

/-- A walk that reaches, before the end of the table, an entry of a type the `switch` does not
know never ends. -/
theorem mpLoop_spins {s : MpState} (k : Nat) (hlt : ∀ j ≤ k, ((mpStep mem)^[j] s).p < e)
    (ht : entrySize (mem ((mpStep mem)^[k] s).p) = 0) : ∀ fuel, mpLoop mem e fuel s = none := by
  -- induction on the passes before the unknown entry
  induction k generalizing s with
  | zero => exact mpLoop_stuck (hlt 0 (Nat.le_refl _)) ht
  | succ k ih =>
    intro fuel
    have hs : s.p < e := hlt 0 (Nat.zero_le _)
    cases fuel with
    | zero => rw [mpLoop, if_pos hs]
    | succ fuel =>
      rw [mpLoop, if_pos hs]
      exact ih (fun j hj => by simpa only [Function.iterate_succ_apply] using hlt (j + 1) (by omega))
        (by simpa only [Function.iterate_succ_apply] using ht) fuel

/-- A walk that meets only entry types the `switch` knows ends within `e - p` passes. -/
theorem mpLoop_ends {s : MpState} (hknown : ∀ j, ((mpStep mem)^[j] s).p < e →
    entrySize (mem ((mpStep mem)^[j] s).p) ≠ 0) : ∃ s', mpLoop mem e (e - s.p) s = some s' := by
  -- strong induction on `e - p`, which each pass lowers
  suffices h : ∀ n s, e - s.p ≤ n → (∀ j, ((mpStep mem)^[j] s).p < e →
      entrySize (mem ((mpStep mem)^[j] s).p) ≠ 0) → ∃ s', mpLoop mem e n s = some s' from
    h _ s (Nat.le_refl _) hknown
  intro n
  induction n with
  | zero =>
    intro s hn _
    exact ⟨s, by rw [mpLoop, if_neg (by omega)]⟩
  | succ n ih =>
    intro s hn hk
    by_cases hs : s.p < e
    · have hsize := hk 0 hs
      rw [Function.iterate_zero_apply] at hsize
      have hp : (mpStep mem s).p = s.p + entrySize (mem s.p) := mpStep_p s
      rw [mpLoop, if_pos hs]
      exact ih (mpStep mem s) (by omega) fun j hj => by
        simpa only [Function.iterate_succ_apply] using hk (j + 1) (by simpa only
          [Function.iterate_succ_apply] using hj)
    · exact ⟨s, by rw [mpLoop, if_neg hs]⟩

end Walk

/-- `mpinit` on a table `mpconfig` accepts whose walk reaches, before `conf + conf->length`, an
entry of a type other than the five of `mp.h`: for every number of passes the loop is still
running. -/
theorem mpinit_spins {mem : Nat → UInt8} {conf : Nat} (hok : mpconfigOk mem conf = true) (k : Nat)
    (hlt : ∀ j ≤ k, ((mpStep mem)^[j] ⟨conf + sizeofMpconf, 0, [], 0, true⟩).p <
      conf + LittleEndian.read mem (conf + 4) 2)
    (ht : entrySize (mem ((mpStep mem)^[k] ⟨conf + sizeofMpconf, 0, [], 0, true⟩).p) = 0) :
    ∀ fuel, mpinit mem conf fuel = none := by
  intro fuel
  rw [mpinit, if_neg (by rw [hok]; decide), mpLoop_spins k hlt ht fuel, Option.map_none]

/-- A 45-byte table at `0x800F0000` that `mpconfig` accepts: `"PCMP"`, length 45, version 4,
checksum byte `0x9A`, and one entry, of type 5. -/
def spinTable (a : Nat) : UInt8 :=
  if 0x800F0000 ≤ a then
    ([0x50, 0x43, 0x4D, 0x50, 45, 0, 4, 0x9A] ++ List.replicate 36 0 ++ [5] : List UInt8).getD
      (a - 0x800F0000) 0
  else 0

/-- `mpinit` on `spinTable` never leaves its loop. -/
theorem mpinit_spins_type5 :
    mpconfigOk spinTable 0x800F0000 = true ∧ ∀ fuel, mpinit spinTable 0x800F0000 fuel = none :=
  ⟨by decide, mpinit_spins (by decide) 0
    (fun j hj => by
      obtain rfl := Nat.le_zero.mp hj
      decide)
    (by decide)⟩

end Xv6.Mp
