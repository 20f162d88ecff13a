import Xv6.Console.Printint
import Xv6.Lib.Format

/-!
# The format loops: `cprintf` and `printf`

The kernel's `cprintf` (`console.c`) and the user library's `printf` (`printf.c`) each walk
their format string, with a pointer to the argument words after it on the stack. `cprintf` looks
ahead: on a `%` it reads the next character at once, and stops at a `%` that ends the string.
`printf` is a machine of two states: `state` becomes `'%'` on a `%`, and the next pass reads its
character as a conversion. Both read a word for each `%d`, `%x`, `%p` and `%s`, and `printf` one
for each `%c` too: `cprintf` knows no `%c` and prints it as an unknown sequence, reading nothing.

Both split a format into the directives of `Format.parse`, and print each as `meaning` says:
with lowercase hexadecimal digits and no `%c` in the kernel (`cprintf_prints_directives`), with
uppercase ones and `%c` in the user library (`printf_prints_directives`). On a format with none
of `%x`, `%p` and `%c`, the two print the same characters from the same words
(`printf_agrees_with_cprintf`).

The words after the format are a function `args` of their index: a call passes some of them,
and past those the loops read whatever the stack holds, as the source does. `strs a` is the
string at address `a`, up to its NUL.
-/

namespace Xv6.Consoles

/-- `cprintf`'s loop from `fmt[i]` on, with `argp` at word `k`: the characters it passes to
`consputc`, or `none` where a `printint` would store past its buffer. -/
def cprintfLoop (args : Nat → UInt32) (strs : UInt32 → List Char) :
    List Char → Nat → Option (List Char)
  | [], _ => some []
  | c :: fmt, k =>
    if c ≠ '%' then (c :: ·) <$> cprintfLoop args strs fmt k
    else
      match fmt with
      -- `c = fmt[++i]` is the NUL: `break`
      | [] => some []
      | c :: fmt =>
        match c with
        | 'd' => do
          let out ← printint (args k).toInt32 10 1
          (out ++ ·) <$> cprintfLoop args strs fmt (k + 1)
        | 'x' | 'p' => do
          let out ← printint (args k).toInt32 16 0
          (out ++ ·) <$> cprintfLoop args strs fmt (k + 1)
        | 's' =>
          let s := if args k = 0 then "(null)".toList else strs (args k)
          (s ++ ·) <$> cprintfLoop args strs fmt (k + 1)
        | '%' => ('%' :: ·) <$> cprintfLoop args strs fmt k
        -- an unknown `%` sequence, printed to draw attention
        | c => (['%', c] ++ ·) <$> cprintfLoop args strs fmt k

/-- `cprintf(fmt, ...)`: the panic for a null `fmt`, then the loop from the first word after
`fmt`. `cons.lock` orders whole calls and changes no character; it is left out. -/
def cprintf (fmt : Option (List Char)) (args : Nat → UInt32) (strs : UInt32 → List Char) :
    Except String (Option (List Char)) :=
  match fmt with
  | none => .error "null fmt"
  | some fmt => .ok (cprintfLoop args strs fmt 0)

end Xv6.Consoles

namespace Xv6.Printf

/-- `printf`'s `state`: 0, or `'%'` once it has read a `%`. -/
inductive State
  | zero
  | percent
  deriving DecidableEq, Repr

/-- `printf`'s loop from `fmt[i]` on, in `state`, with `ap` at word `k`: its `putc(fd, c)`
calls, or `none` where a `printint` would store past its buffer. -/
def printfLoop (fd : Int32) (args : Nat → UInt32) (strs : UInt32 → List Char) :
    State → List Char → Nat → Option (List (Int32 × Char))
  | _, [], _ => some []
  | .zero, c :: fmt, k =>
    if c = '%' then printfLoop fd args strs .percent fmt k
    else ((fd, c) :: ·) <$> printfLoop fd args strs .zero fmt k
  | .percent, c :: fmt, k =>
    if c = 'd' then do
      let out ← printint fd (args k).toInt32 10 1
      (out ++ ·) <$> printfLoop fd args strs .zero fmt (k + 1)
    else if c = 'x' ∨ c = 'p' then do
      let out ← printint fd (args k).toInt32 16 0
      (out ++ ·) <$> printfLoop fd args strs .zero fmt (k + 1)
    else if c = 's' then
      let s := if args k = 0 then "(null)".toList else strs (args k)
      (s.map (fun c => (fd, c)) ++ ·) <$> printfLoop fd args strs .zero fmt (k + 1)
    else if c = 'c' then
      -- `putc(fd, *ap)` passes the word as a `char`: its low byte
      ((fd, Char.ofNat ((args k).toNat % 256)) :: ·) <$> printfLoop fd args strs .zero fmt (k + 1)
    else if c = '%' then ((fd, c) :: ·) <$> printfLoop fd args strs .zero fmt k
    else ([(fd, '%'), (fd, c)] ++ ·) <$> printfLoop fd args strs .zero fmt k

/-- `printf(fd, fmt, ...)`, from the first word after `fmt`. -/
def printf (fd : Int32) (fmt : List Char) (args : Nat → UInt32) (strs : UInt32 → List Char) :
    Option (List (Int32 × Char)) :=
  printfLoop fd args strs .zero fmt 0

end Xv6.Printf

namespace Xv6.Printint

open Format

/-- What the character after a `%` means to `cprintf` and `printf`: a word printed as a signed
decimal, as unsigned hexadecimal with digits of case `up`, or as the address of a string
(`(null)` for 0); with `withChar`, `%c` reads a word and prints its low byte; `%%` prints `%`,
and any other sequence prints itself. -/
def meaning (strs : UInt32 → List Char) (up : Char → Char) (withChar : Bool) : Char → Conv Char
  | 'd' => .word fun w => w.toInt32.toInt.repr.toList
  | 'x' => .word fun w => (Nat.toDigits 16 w.toNat).map up
  | 'p' => .word fun w => (Nat.toDigits 16 w.toNat).map up
  | 's' => .word fun w => if w = 0 then "(null)".toList else strs w
  | 'c' => if withChar then .word fun w => [Char.ofNat (w.toNat % 256)] else .text ['%', 'c']
  | '%' => .text ['%']
  | c => .text ['%', c]

section Meaning

variable {strs : UInt32 → List Char} {up : Char → Char} {withChar : Bool} {c : Char}

/-- Any sequence but the conversions prints itself. -/
theorem meaning_other (hd : c ≠ 'd') (hx : c ≠ 'x') (hp : c ≠ 'p') (hs : c ≠ 's')
    (hpct : c ≠ '%') (hc : withChar = true → c ≠ 'c') : meaning strs up withChar c = .text ['%', c] := by
  unfold meaning
  split <;> simp_all

/-- The two meanings differ only at `%x`, `%p` and `%c`. -/
theorem meaning_agree (hx : c ≠ 'x') (hp : c ≠ 'p') (hc : c ≠ 'c') :
    meaning strs up true c = meaning strs id false c := by
  unfold meaning
  split <;> simp_all

end Meaning

end Xv6.Printint

namespace Xv6.Consoles

open Format Printint

/-- The kernel's `printint` of a word read as an `int`, in the two bases `cprintf` uses. -/
theorem printint_word (w : UInt32) :
    printint w.toInt32 10 1 = some w.toInt32.toInt.repr.toList ∧
      printint w.toInt32 16 0 = some (Nat.toDigits 16 w.toNat) := by
  have htab : ∀ k < 16, digits.getD k '\x00' = Nat.digitChar k := by decide
  refine ⟨printDigits_decimal (fun k hk => htab k (by omega)) _, ?_⟩
  have h := printDigits_hex (f := id) htab w.toInt32
  rw [List.map_id, UInt32.toUInt32_toInt32] at h
  exact h

variable {args : Nat → UInt32} {strs : UInt32 → List Char}

/-- `cprintf`'s loop prints the directives of the rest of the format, with the kernel's
meaning. One case per branch of the loop. -/
theorem cprintfLoop_eq (fmt : List Char) (k : Nat) :
    cprintfLoop args strs fmt k = some (render id (meaning strs id false) args (parse fmt) k) := by
  fun_induction cprintfLoop args strs fmt k with
  | case1 => rfl
  | case2 c fmt k hc ih =>
    rw [ih, parse_lit hc]
    rfl
  | case3 c k hc =>
    obtain rfl : c = '%' := not_not.mp hc
    rfl
  | case4 c k hc fmt ih =>
    obtain rfl : c = '%' := not_not.mp hc
    rw [ih, (printint_word _).1, parse_conv, render_word rfl]
    rfl
  | case5 c k hc fmt ih =>
    obtain rfl : c = '%' := not_not.mp hc
    rw [ih, (printint_word _).2, parse_conv, render_word rfl, List.map_id]
    rfl
  | case6 c k hc fmt ih =>
    obtain rfl : c = '%' := not_not.mp hc
    rw [ih, (printint_word _).2, parse_conv, render_word rfl, List.map_id]
    rfl
  | case7 c k hc fmt s ih =>
    obtain rfl : c = '%' := not_not.mp hc
    rw [ih, parse_conv, render_word rfl]
    rfl
  | case8 c k hc fmt ih =>
    obtain rfl : c = '%' := not_not.mp hc
    rw [ih, parse_conv, render_text rfl]
    rfl
  | case9 c k hc fmt c' hd hx hp hs hpct ih =>
    obtain rfl : c = '%' := not_not.mp hc
    rw [ih, parse_conv, render_text (meaning_other hd hx hp hs hpct Bool.noConfusion)]
    rfl

/-- `cprintf` panics on a null format. On any other it never overflows `printint`'s buffer, and
prints the format's directives in order as the kernel's `meaning` says, the `i`-th of its `%d`,
`%x`, `%p` and `%s` reading the `i`-th word after the format; it reads no word past those. -/
theorem cprintf_prints_directives (fmt : List Char) (args : Nat → UInt32)
    (strs : UInt32 → List Char) :
    cprintf none args strs = .error "null fmt" ∧
      cprintf (some fmt) args strs =
        .ok (some (render id (meaning strs id false) args (parse fmt) 0)) ∧
      ∀ args' : Nat → UInt32, (∀ i < reads (meaning strs id false) (parse fmt), args' i = args i) →
        cprintf (some fmt) args' strs = cprintf (some fmt) args strs := by
  refine ⟨rfl, by rw [cprintf, cprintfLoop_eq], fun args' h => ?_⟩
  have hwin : ∀ i, 0 ≤ i → i < 0 + reads (meaning strs id false) (parse fmt) → args' i = args i :=
    fun i _ hi => h i (by omega)
  rw [cprintf, cprintf, cprintfLoop_eq, cprintfLoop_eq, render_congr_args _ 0 hwin]

end Xv6.Consoles

namespace Xv6.Printf

open Format Printint

/-- The user library's `printint` of a word read as an `int`, in the two bases `printf` uses. -/
theorem printint_word (fd : Int32) (w : UInt32) :
    printint fd w.toInt32 10 1 = some (w.toInt32.toInt.repr.toList.map fun c => (fd, c)) ∧
      printint fd w.toInt32 16 0 =
        some ((Nat.toDigits 16 w.toNat).map fun c => (fd, c.toUpper)) := by
  have hu : ∀ k < 16, digits.getD k '\x00' = (Nat.digitChar k).toUpper := by decide
  have h10 : ∀ k < 10, digits.getD k '\x00' = Nat.digitChar k := by decide
  have hd : printDigits digits w.toInt32 10 ((1 : Int32) != 0) = some w.toInt32.toInt.repr.toList :=
    printDigits_decimal h10 w.toInt32
  have hx : printDigits digits w.toInt32 16 ((0 : Int32) != 0) =
      some ((Nat.toDigits 16 w.toNat).map Char.toUpper) := printDigits_hex hu w.toInt32
  refine ⟨?_, ?_⟩
  · rw [printint, hd]
    rfl
  · rw [printint, hx, Option.map_some, List.map_map]
    rfl

/-- What `printf` holds back of the format: the `%` it has read in state `'%'`. -/
def State.pending : State → List Char
  | .zero => []
  | .percent => ['%']

@[simp] theorem pending_zero_append (l : List Char) : State.zero.pending ++ l = l := rfl

@[simp] theorem pending_percent_append (c : Char) (l : List Char) :
    State.percent.pending ++ c :: l = '%' :: c :: l := rfl

variable {fd : Int32} {args : Nat → UInt32} {strs : UInt32 → List Char}

/-- `printf`'s loop prints the directives of what it holds back and the rest of the format,
with the user library's meaning. One case per branch of the loop. -/
theorem printfLoop_eq (s : State) (fmt : List Char) (k : Nat) :
    printfLoop fd args strs s fmt k =
      some ((render id (meaning strs Char.toUpper true) args (parse (s.pending ++ fmt)) k).map
        fun c => (fd, c)) := by
  fun_induction printfLoop fd args strs s fmt k with
  | case1 s k => cases s <;> rfl
  | case2 fmt k ih => rw [ih]; rfl
  | case3 c fmt k hc ih =>
    rw [ih, pending_zero_append, pending_zero_append, parse_lit hc, render_lit]
    rfl
  | case4 fmt k ih =>
    rw [ih, (printint_word fd _).1, pending_percent_append, parse_conv, render_word rfl,
      List.map_append]
    rfl
  | case5 c fmt k hd hxp ih =>
    obtain rfl | rfl := hxp
    all_goals
      rw [ih, (printint_word fd _).2, pending_percent_append, parse_conv, render_word rfl,
        List.map_append, List.map_map]
      rfl
  | case6 fmt k hd hxp str ih =>
    rw [ih, pending_percent_append, parse_conv, render_word rfl, List.map_append]
    rfl
  | case7 fmt k hd hxp hs ih =>
    rw [ih, pending_percent_append, parse_conv, render_word rfl, List.map_append]
    rfl
  | case8 fmt k hd hxp hs hc ih =>
    rw [ih, pending_percent_append, parse_conv, render_text rfl, List.map_append]
    rfl
  | case9 c fmt k hd hxp hs hc hpct ih =>
    obtain ⟨hx, hp⟩ := not_or.mp hxp
    rw [ih, pending_percent_append, parse_conv,
      render_text (meaning_other hd hx hp hs hpct fun _ => hc), List.map_append]
    rfl

/-- `printf` never overflows `printint`'s buffer, and writes to `fd` the format's directives in
order as the user library's `meaning` says, the `i`-th of its `%d`, `%x`, `%p`, `%s` and `%c`
reading the `i`-th word after the format. -/
theorem printf_prints_directives (fd : Int32) (fmt : List Char) (args : Nat → UInt32)
    (strs : UInt32 → List Char) :
    printf fd fmt args strs =
      some ((render id (meaning strs Char.toUpper true) args (parse fmt) 0).map fun c => (fd, c)) :=
  printfLoop_eq .zero fmt 0

example : printf 1 ['%', 'c'] (fun _ => 65) (fun _ => []) = some [(1, 'A')] := by decide

/-- On a format with no `%x`, `%p` or `%c`, `printf`'s machine of two states and `cprintf`'s
look-ahead split it alike and read the same words: `printf` writes to `fd` exactly the characters
`cprintf` prints. -/
theorem printf_agrees_with_cprintf (fd : Int32) (fmt : List Char) (args : Nat → UInt32)
    (strs : UInt32 → List Char) (h : ∀ c ∈ ['x', 'p', 'c'], Directive.conv c ∉ parse fmt) :
    ∃ out, Consoles.cprintf (some fmt) args strs = .ok (some out) ∧
      printf fd fmt args strs = some (out.map fun c => (fd, c)) := by
  have hconv : ∀ c, Directive.conv c ∈ parse fmt →
      meaning strs Char.toUpper true c = meaning strs id false c := by
    intro c hc
    have hx : c ≠ 'x' := fun e => h 'x' (by simp) (e ▸ hc)
    have hp : c ≠ 'p' := fun e => h 'p' (by simp) (e ▸ hc)
    have hcc : c ≠ 'c' := fun e => h 'c' (by simp) (e ▸ hc)
    exact meaning_agree hx hp hcc
  refine ⟨_, by rw [Consoles.cprintf, Consoles.cprintfLoop_eq], ?_⟩
  rw [printf, printfLoop_eq, pending_zero_append, render_congr_conv _ 0 hconv]

/-- `printf(1, "pid %d: %s\n", ...)`, as `cprintf` prints it. -/
theorem printf_agrees_with_cprintf_pid :
    ∃ out, Consoles.cprintf (some ['p', 'i', 'd', ' ', '%', 'd', ':', ' ', '%', 's', '\n'])
        (fun _ => 3) (fun _ => ['i', 'n', 'i', 't']) = .ok (some out) ∧
      printf 1 ['p', 'i', 'd', ' ', '%', 'd', ':', ' ', '%', 's', '\n'] (fun _ => 3)
        (fun _ => ['i', 'n', 'i', 't']) = some (out.map fun c => (1, c)) :=
  printf_agrees_with_cprintf 1 _ _ _ (by simp [parse])

end Xv6.Printf
