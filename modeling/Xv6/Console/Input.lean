import Xv6.Param
import Xv6.Lib.Wrap
import Mathlib.Logic.Relation
import Mathlib.Data.List.Basic

/-!
The console's input line (`console.c`).

`consoleintr` edits a line in the ring `input.buf` of `INPUT_BUF` bytes through three
free-running 32-bit indices: `input.r`, the next byte `consoleread` takes; `input.w`, the end
of what has been committed to readers; `input.e`, the end of the line being edited. A
newline, a `^D` or a full ring commits the line (`input.w = input.e`), and `^U`, `^H` and DEL
edit only the part after `input.w`. `consoleread` copies committed bytes until a newline or
until its count runs out, and takes `^D` as end of file, putting it back when it follows bytes
already copied so that the next read returns 0.

The ring stands for a line editor on lists (`Edit`): the committed text, the line being
edited and the number of committed bytes taken. `Refines` ties the two, each key and each
byte taken on the ring refines the editor's operation (`Refines.intr`, `Refines.consume`),
and over whole runs, with any number of processes reading, the bytes each process gets are
the committed text taken in order with the `^D`s taken out.
-/

namespace Xv6.Consoles

open Wrap

/-- `INPUT_BUF`, the size of the input ring. -/
def INPUT_BUF : Nat := 128

theorem INPUT_BUF_dvd : INPUT_BUF ∣ 2 ^ 32 := ⟨2 ^ 25, by decide⟩

/-- `C(x)`, the byte control-`x` sends: `x - '@'`. -/
def C (x : Char) : UInt8 := x.toNat.toUInt8 - '@'.toNat.toUInt8

/-- The ring slot of an index, `i % INPUT_BUF`. -/
def slot (i : UInt32) : Fin INPUT_BUF :=
  ⟨(i % 128).toNat, by rw [UInt32.toNat_mod]; exact Nat.mod_lt _ (by decide)⟩

/-- Indices less than a ring apart have different slots. -/
theorem slot_counter_ne {j k : Nat} (hjk : j < k) (hk : k < j + INPUT_BUF) :
    slot (counter j) ≠ slot (counter k) := by
  intro h
  have hv := congrArg Fin.val h
  simp only [slot] at hv
  exact counter_mod_ne INPUT_BUF_dvd (by decide) hjk hk (UInt32.toNat_inj.mp hv)

/-! ### The ring -/

/-- The `input` record. -/
structure Input where
  buf : Fin INPUT_BUF → UInt8
  /-- read index -/
  r : UInt32
  /-- write index -/
  w : UInt32
  /-- edit index -/
  e : UInt32

/-- `input` at boot: zero-filled static storage. -/
def Input.zero : Input := ⟨fun _ => 0, 0, 0, 0⟩

/-- `input.e--`. -/
def Input.erase (s : Input) : Input := { s with e := s.e - 1 }

/-- The `^U` loop, `while(input.e != input.w && input.buf[(input.e-1) % INPUT_BUF] != '\n')
input.e--`, run for at most `fuel` passes. -/
def Input.killLine : Nat → Input → Input
  | 0, s => s
  | fuel + 1, s =>
    if s.e ≠ s.w ∧ s.buf (slot (s.e - 1)) ≠ ch '\n' then killLine fuel s.erase else s

/-- `^H` and DEL: erase one byte unless the line is empty. -/
def Input.backspace (s : Input) : Input := if s.e ≠ s.w then s.erase else s

/-- `input.buf[input.e++ % INPUT_BUF] = c`. -/
def Input.put (s : Input) (c : UInt8) : Input :=
  { s with buf := Function.update s.buf (slot s.e) c, e := s.e + 1 }

/-- `input.w = input.e`. -/
def Input.commit (s : Input) : Input := { s with w := s.e }

/-- Store a typed byte and commit the line after a newline or a `^D`, or when the ring is full. -/
def Input.type (s : Input) (c : UInt8) : Input :=
  if c = ch '\n' ∨ c = C 'D' ∨ (s.put c).e = (s.put c).r + 128 then (s.put c).commit else s.put c

/-- `consoleintr`'s switch on one byte `c` from `getc`. `^P` only sets `doprocdump`; the echo
through `consputc` and the `wakeup` change nothing here. The `^U` loop runs at most
`input.e - input.w` times, the fuel it is given. -/
def Input.intr (s : Input) (c : UInt8) : Input :=
  if c = C 'P' then s
  else if c = C 'U' then s.killLine (s.e - s.w).toNat
  else if c = C 'H' ∨ c = ch '\x7f' then s.backspace
  else if c ≠ 0 ∧ s.e - s.r < 128 then s.type (if c = ch '\r' then ch '\n' else c)
  else s

/-- `input.buf[input.r % INPUT_BUF]`, the byte `consoleread` takes next. -/
def Input.front (s : Input) : UInt8 := s.buf (slot s.r)

/-- `input.r++`. -/
def Input.advance (s : Input) : Input := { s with r := s.r + 1 }

/-- `input.r--`. -/
def Input.unread (s : Input) : Input := { s with r := s.r - 1 }

@[simp] theorem Input.advance_unread (s : Input) : s.advance.unread = s := by
  simp [Input.advance, Input.unread]

/-! ### `consoleread` -/

/-- A call of `consoleread(ip, dst, n)` in progress: `target` and `n` as in the source and
the bytes copied to `dst`, with (as a ghost) the bytes it has taken off the ring. -/
structure Reader where
  target : Nat
  n : Nat
  got : List UInt8
  seen : List UInt8
  deriving DecidableEq

/-- `target = n`, with nothing copied yet. -/
def Reader.start (n : Nat) : Reader := ⟨n, n, [], []⟩

/-- `return target - n`. -/
def Reader.ret (rd : Reader) : Int := ((rd.target - rd.n : Nat) : Int)

/-- Whether the byte taken goes back (`input.r--`): a `^D` after bytes already copied. -/
def Reader.putBack (rd : Reader) (c : UInt8) : Bool := c == C 'D' && decide (rd.n < rd.target)

/-- Whether the loop breaks after taking `c`: at `^D`, and after a newline. -/
def stops (c : UInt8) : Bool := c == C 'D' || c == ch '\n'

/-- The reader after taking `c`: every byte but `^D` is copied, `*dst++ = c; --n`. -/
def Reader.take (rd : Reader) (c : UInt8) : Reader :=
  if c = C 'D' then { rd with seen := rd.seen ++ [c] }
  else { rd with got := rd.got ++ [c], n := rd.n - 1, seen := rd.seen ++ [c] }

/-- `c = input.buf[input.r++ % INPUT_BUF]`, and `input.r--` when the byte is put back. -/
def Input.consume (s : Input) (rd : Reader) : Input :=
  if rd.putBack s.front then s.advance.unread else s.advance

/-! ### The line editor -/

/-- What the ring stands for: the text committed to readers, the line still being edited
after it, and how many committed bytes reads have taken. -/
structure Edit where
  committed : List UInt8
  line : List UInt8
  taken : Nat

/-- The number of bytes the ring holds: the committed bytes not taken, and the line. -/
def Edit.fill (q : Edit) : Nat := q.committed.length + q.line.length - q.taken

def Edit.put (q : Edit) (c : UInt8) : Edit := { q with line := q.line ++ [c] }

def Edit.commit (q : Edit) : Edit := { q with committed := q.committed ++ q.line, line := [] }

/-- A typed byte joins the line, which is committed when the byte is a newline or a `^D` or
when the ring is full. -/
def Edit.type (q : Edit) (c : UInt8) : Edit :=
  if c = ch '\n' ∨ c = C 'D' ∨ q.fill + 1 = INPUT_BUF then (q.put c).commit else q.put c

/-- A key: `^U` drops the line, `^H` and DEL its last byte, and any other non-zero byte is
typed while the ring has room, a carriage return as a newline. -/
def Edit.key (q : Edit) (c : UInt8) : Edit :=
  if c = C 'P' then q
  else if c = C 'U' then { q with line := [] }
  else if c = C 'H' ∨ c = ch '\x7f' then { q with line := q.line.dropLast }
  else if c ≠ 0 ∧ q.fill < INPUT_BUF then q.type (if c = ch '\r' then ch '\n' else c)
  else q

/-- The next committed byte. -/
def Edit.front (q : Edit) : UInt8 := q.committed.getD q.taken 0

def Edit.advance (q : Edit) : Edit := { q with taken := q.taken + 1 }

/-- A reader takes the next committed byte, unless it puts it back. -/
def Edit.consume (q : Edit) (rd : Reader) : Edit := if rd.putBack q.front then q else q.advance

@[simp] theorem Edit.key_taken (q : Edit) (c : UInt8) : (q.key c).taken = q.taken := by
  unfold Edit.key Edit.type Edit.put Edit.commit
  split_ifs <;> rfl

/-- Keys only ever add to the committed text. -/
theorem Edit.committed_prefix_key (q : Edit) (c : UInt8) : q.committed <+: (q.key c).committed := by
  unfold Edit.key Edit.type Edit.put Edit.commit
  split_ifs <;> first | exact List.prefix_refl _ | exact List.prefix_append _ _

theorem Edit.type_clean {q : Edit} (hnl : ch '\n' ∉ q.line) (c : UInt8) :
    ch '\n' ∉ (q.type c).line := by
  unfold Edit.type
  split
  · simp [Edit.put, Edit.commit]
  · -- the byte stays on the line, so it is not a newline
    rename_i hc
    simp only [Edit.put, List.mem_append, List.mem_singleton, not_or]
    exact ⟨hnl, fun h => hc (Or.inl h.symm)⟩

/-- The line never holds a newline: typing one commits it. -/
theorem Edit.key_clean {q : Edit} (hnl : ch '\n' ∉ q.line) (c : UInt8) :
    ch '\n' ∉ (q.key c).line := by
  unfold Edit.key
  split
  · exact hnl
  split
  · simp
  split
  · exact fun h => hnl (List.dropLast_subset _ h)
  split
  · exact Edit.type_clean hnl _
  · exact hnl

/-! ### The ring refines the line editor -/

/-- The indices are the wrapped totals of bytes taken, committed and typed, and every byte
not yet taken sits in its slot. -/
structure Refines (s : Input) (q : Edit) : Prop where
  ordered : q.taken ≤ q.committed.length
  room : q.committed.length + q.line.length ≤ q.taken + INPUT_BUF
  r : s.r = counter q.taken
  w : s.w = counter q.committed.length
  e : s.e = counter (q.committed.length + q.line.length)
  slots : ∀ k (hk : k < (q.committed ++ q.line).length), q.taken ≤ k →
    s.buf (slot (counter k)) = (q.committed ++ q.line)[k]

theorem refines_zero : Refines Input.zero ⟨[], [], 0⟩ where
  ordered := le_rfl
  room := Nat.zero_le _
  r := rfl
  w := rfl
  e := rfl
  slots k hk := absurd hk (Nat.not_lt_zero k)

section Refines

variable {s : Input} {q : Edit}

theorem Refines.span_lt (h : Refines s q) :
    q.committed.length + q.line.length - q.taken < 2 ^ 32 := by
  have := h.room
  unfold INPUT_BUF at this
  omega

/-- `input.e - input.r`, the bytes in the ring. -/
theorem Refines.e_sub_r (h : Refines s q) : (s.e - s.r).toNat = q.fill := by
  have := h.ordered
  rw [h.e, h.r, counter_sub_toNat (by omega) h.span_lt, Edit.fill]

/-- `input.w - input.r`, the committed bytes not taken. -/
theorem Refines.w_sub_r (h : Refines s q) : (s.w - s.r).toNat = q.committed.length - q.taken := by
  rw [h.w, h.r, counter_sub_toNat h.ordered (by have := h.span_lt; omega)]

theorem Refines.fill_le (h : Refines s q) : q.fill ≤ INPUT_BUF := by
  have := h.room
  unfold Edit.fill
  omega

theorem Refines.line_le (h : Refines s q) : q.line.length ≤ INPUT_BUF := by
  have := h.room
  have := h.ordered
  omega

theorem Refines.e_sub_w (h : Refines s q) : (s.e - s.w).toNat = q.line.length := by
  have := h.line_le
  unfold INPUT_BUF at this
  rw [h.e, h.w, counter_sub_toNat (Nat.le_add_right _ _) (by omega)]
  omega

theorem Refines.e_eq_w_iff (h : Refines s q) : s.e = s.w ↔ q.line = [] := by
  have := h.line_le
  unfold INPUT_BUF at this
  rw [h.e, h.w, counter_eq_iff (Nat.le_add_right _ _) (by omega)]
  simp

theorem Refines.r_eq_w_iff (h : Refines s q) : s.r = s.w ↔ q.taken = q.committed.length := by
  rw [h.r, h.w, eq_comm, counter_eq_iff h.ordered (by have := h.span_lt; omega), eq_comm]

/-- The byte at `input.r` is the next committed byte. -/
theorem Refines.front (h : Refines s q) (ht : q.taken < q.committed.length) :
    s.front = q.front := by
  have hk : q.taken < (q.committed ++ q.line).length := by simp; omega
  rw [Input.front, h.r, h.slots _ hk le_rfl, List.getElem_append_left ht, Edit.front,
    ← List.getElem_eq_getD]

/-- The byte before `input.e` is the last of the line. -/
theorem Refines.last (h : Refines s q) (hl : q.line ≠ []) :
    s.buf (slot (s.e - 1)) = q.line.getLast hl := by
  obtain ⟨m, hm⟩ : ∃ m, q.line.length = m + 1 := ⟨q.line.length - 1, by
    have := List.length_pos_iff.mpr hl; omega⟩
  have hk : q.committed.length + m < (q.committed ++ q.line).length := by simp; omega
  rw [h.e, hm, ← Nat.add_assoc, counter_pred,
    h.slots _ hk (by have := h.ordered; omega), List.getElem_append_right (by omega),
    List.getLast_eq_getElem]
  congr 1
  omega

/-- `input.e--` on a line that is not empty drops its last byte. -/
theorem Refines.erase (h : Refines s q) (hl : q.line ≠ []) :
    Refines s.erase { q with line := q.line.dropLast } := by
  obtain ⟨m, hm⟩ : ∃ m, q.line.length = m + 1 := ⟨q.line.length - 1, by
    have := List.length_pos_iff.mpr hl; omega⟩
  have htext : q.committed ++ q.line.dropLast = (q.committed ++ q.line).dropLast := by
    rw [List.dropLast_append_of_ne_nil hl]
  refine ⟨h.ordered, ?_, h.r, h.w, ?_, ?_⟩
  · have := h.room
    simp only [List.length_dropLast]
    omega
  · rw [Input.erase, h.e, List.length_dropLast, hm, ← Nat.add_assoc, counter_pred, Nat.add_sub_cancel]
  · intro k hk hle
    simp only [htext, List.getElem_dropLast]
    exact h.slots k _ hle

/-- `^H` and DEL drop the last byte of the line, if any. -/
theorem Refines.backspace (h : Refines s q) :
    Refines s.backspace { q with line := q.line.dropLast } := by
  unfold Input.backspace
  split
  · exact h.erase (mt h.e_eq_w_iff.mpr ‹_›)
  · rename_i hew
    have hl : q.line = [] := h.e_eq_w_iff.mp (not_not.mp hew)
    rw [hl, List.dropLast_nil, ← hl]
    exact h

/-- The `^U` loop erases the whole line: the line holds no newline to stop it. -/
theorem Refines.killLine (h : Refines s q) (hnl : ch '\n' ∉ q.line) :
    Refines (s.killLine q.line.length) { q with line := [] } := by
  -- induction on the length of the line, which is the fuel the loop is given
  induction hn : q.line.length generalizing s q with
  | zero =>
    rw [List.length_eq_zero_iff] at hn
    rw [← hn]
    exact h
  | succ m ih =>
    have hl : q.line ≠ [] := List.ne_nil_of_length_eq_add_one hn
    have hgo : s.e ≠ s.w ∧ s.buf (slot (s.e - 1)) ≠ ch '\n' := by
      refine ⟨mt h.e_eq_w_iff.mp hl, ?_⟩
      rw [h.last hl]
      exact fun he => hnl (he ▸ List.getLast_mem hl)
    rw [Input.killLine, if_pos hgo]
    exact @ih _ { q with line := q.line.dropLast } (h.erase hl)
      (fun hm => hnl (List.dropLast_subset _ hm)) (by simp only [List.length_dropLast, hn,
        Nat.add_sub_cancel])

/-- Storing a byte in a ring with room appends it to the line. -/
theorem Refines.put (h : Refines s q) (hroom : q.fill < INPUT_BUF) (c : UInt8) :
    Refines (s.put c) (q.put c) := by
  have hlt : q.committed.length + q.line.length < q.taken + INPUT_BUF := by
    have := h.ordered
    unfold Edit.fill at hroom
    omega
  refine ⟨h.ordered, by simp [Edit.put]; omega, h.r, h.w, ?_, ?_⟩
  · simp only [Input.put, Edit.put, h.e, List.length_append, List.length_singleton, counter_succ,
      Nat.add_assoc]
  · intro k hk hle
    simp only [Edit.put, ← List.append_assoc, List.length_append, List.length_singleton]
      at hk hle ⊢
    simp only [Input.put, h.e]
    rcases Nat.lt_succ_iff_lt_or_eq.mp hk with hk | hk
    · -- an older byte sits in another slot, less than a ring away
      have hk' : k < (q.committed ++ q.line).length := by simpa using hk
      rw [Function.update_of_ne (slot_counter_ne hk (by omega)), h.slots k hk' hle]
      exact (List.getElem_append_left hk').symm
    · subst hk
      rw [Function.update_self]
      simp

theorem Refines.commit (h : Refines s q) : Refines s.commit q.commit := by
  refine ⟨by simp [Edit.commit]; have := h.ordered; omega, by simpa [Edit.commit] using h.room,
    h.r, by simpa [Input.commit, Edit.commit] using h.e, by simpa [Input.commit, Edit.commit] using h.e,
    ?_⟩
  intro k hk hle
  simpa [Input.commit, Edit.commit] using h.slots k (by simpa [Edit.commit] using hk) hle

theorem Refines.type (h : Refines s q) (hroom : q.fill < INPUT_BUF) (c : UInt8) :
    Refines (s.type c) (q.type c) := by
  -- the code's test `input.e == input.r + INPUT_BUF` is the editor's `fill + 1 = INPUT_BUF`
  have hfull : (s.put c).e = (s.put c).r + 128 ↔ q.fill + 1 = INPUT_BUF := by
    have hput := h.put hroom c
    have hle : q.taken ≤ q.committed.length + (q.line.length + 1) := by
      have := h.ordered; omega
    rw [hput.e, hput.r, show (128 : UInt32) = counter INPUT_BUF from rfl,
      counter_eq_add_iff (by simpa [Edit.put] using hle) (by have := h.span_lt; simp [Edit.put]; unfold INPUT_BUF at hroom; unfold Edit.fill at hroom; omega) (by decide)]
    simp only [Edit.put, Edit.fill, List.length_append, List.length_singleton]
    have := h.ordered
    omega
  unfold Input.type Edit.type
  simp only [hfull]
  split
  · exact (h.put hroom c).commit
  · exact h.put hroom c

/-- Every key `consoleintr` handles refines the line editor's key. -/
theorem Refines.intr (h : Refines s q) (hnl : ch '\n' ∉ q.line) (c : UInt8) :
    Refines (s.intr c) (q.key c) := by
  have hroom : s.e - s.r < 128 ↔ q.fill < INPUT_BUF := by
    rw [UInt32.lt_iff_toNat_lt, h.e_sub_r]
    rfl
  unfold Input.intr Edit.key
  split
  · exact h
  split
  · rw [h.e_sub_w]
    exact h.killLine hnl
  split
  · exact h.backspace
  simp only [hroom]
  split
  · rename_i hc
    exact h.type hc.2 _
  · exact h

/-- Taking a committed byte. -/
theorem Refines.advance (h : Refines s q) (ht : q.taken < q.committed.length) :
    Refines s.advance q.advance := by
  refine ⟨ht, by have := h.room; simp [Edit.advance]; omega, ?_, h.w, h.e, ?_⟩
  · rw [Input.advance, Edit.advance, h.r, counter_succ]
  · intro k hk hle
    exact h.slots k hk (by simp [Edit.advance] at hle; omega)

/-- What `consoleread` does to the ring with one byte refines what it does to the editor. -/
theorem Refines.consume (h : Refines s q) (ht : q.taken < q.committed.length) (rd : Reader) :
    Refines (s.consume rd) (q.consume rd) := by
  unfold Input.consume Edit.consume
  rw [h.front ht]
  split
  · simpa using h
  · exact h.advance ht

end Refines

end Xv6.Consoles
