import Mathlib.Logic.Basic

/-!
# Format strings

A `printf`-style routine reads its format string as directives: a character it prints as it is,
or a `%` and the character after it. The character after a `%` either prints a fixed text or
reads the next argument word and prints what that word gives (`Conv`). A `%` that ends the
string is dropped.

`render lit conv args ds k` is the output of the directives `ds`, with the argument words read
in order from word `k` of `args`; `reads conv ds` is the number of words they read. The output
depends on no word past those (`render_congr_args`), and a routine whose conversions agree with
another's on the directives of a format prints what it prints (`render_congr_conv`).
-/

namespace Format

/-- A piece of a format string. -/
inductive Directive
  | lit (c : Char)
  | conv (c : Char)
  deriving DecidableEq, Repr

/-- The directives of a format string, in order. -/
def parse : List Char → List Directive
  | [] => []
  | c :: cs =>
    if c = '%' then
      match cs with
      | [] => []
      | c :: cs => .conv c :: parse cs
    else .lit c :: parse cs

@[simp] theorem parse_nil : parse [] = [] := rfl

@[simp] theorem parse_percent : parse ['%'] = [] := rfl

@[simp] theorem parse_conv (c : Char) (cs : List Char) : parse ('%' :: c :: cs) = .conv c :: parse cs :=
  rfl

theorem parse_lit {c : Char} (h : c ≠ '%') (cs : List Char) : parse (c :: cs) = .lit c :: parse cs := by
  rw [parse.eq_def]
  exact if_neg h

/-- What a routine does with the character after a `%`: print `out` and read no word, or read
the next word `w` and print `f w`. -/
inductive Conv (α : Type)
  | text (out : List α)
  | word (f : UInt32 → List α)

variable {α : Type}

/-- The words a conversion reads. -/
def Conv.reads : Conv α → Nat
  | .text _ => 0
  | .word _ => 1

/-- The output of the directives, word `k` of `args` the next to read. -/
def render (lit : Char → α) (conv : Char → Conv α) (args : Nat → UInt32) :
    List Directive → Nat → List α
  | [], _ => []
  | .lit c :: ds, k => lit c :: render lit conv args ds k
  | .conv c :: ds, k =>
    match conv c with
    | .text out => out ++ render lit conv args ds k
    | .word f => f (args k) ++ render lit conv args ds (k + 1)

/-- The words the directives read. -/
def reads (conv : Char → Conv α) : List Directive → Nat
  | [] => 0
  | .lit _ :: ds => reads conv ds
  | .conv c :: ds => (conv c).reads + reads conv ds

section Render

variable {lit : Char → α} {conv : Char → Conv α} {args : Nat → UInt32}

@[simp] theorem render_nil (k : Nat) : render lit conv args [] k = [] := rfl

@[simp] theorem render_lit (c : Char) (ds : List Directive) (k : Nat) :
    render lit conv args (.lit c :: ds) k = lit c :: render lit conv args ds k := rfl

theorem render_text {c : Char} {out : List α} (h : conv c = .text out) (ds : List Directive)
    (k : Nat) : render lit conv args (.conv c :: ds) k = out ++ render lit conv args ds k := by
  rw [render, h]

theorem render_word {c : Char} {f : UInt32 → List α} (h : conv c = .word f) (ds : List Directive)
    (k : Nat) : render lit conv args (.conv c :: ds) k = f (args k) ++ render lit conv args ds (k + 1) := by
  rw [render, h]

/-- The output depends on the words from `k` that the directives read and on no other. The
induction is on the directives, the window `[k, k + reads)` moving up with each word read. -/
theorem render_congr_args {args' : Nat → UInt32} :
    ∀ (ds : List Directive) (k : Nat), (∀ i, k ≤ i → i < k + reads conv ds → args' i = args i) →
      render lit conv args' ds k = render lit conv args ds k
  | [], _, _ => rfl
  | .lit c :: ds, k, h => by
    rw [render_lit, render_lit, render_congr_args ds k h]
  | .conv c :: ds, k, h => by
    cases hc : conv c with
    | text out =>
      have h' : ∀ i, k ≤ i → i < k + reads conv ds → args' i = args i := fun i hk hi =>
        h i hk (by rw [reads, hc, Conv.reads]; omega)
      rw [render_text hc, render_text hc, render_congr_args ds k h']
    | word f =>
      -- the conversion reads word `k`, the rest of the directives from `k + 1`
      have hk : args' k = args k := h k (Nat.le_refl k) (by rw [reads, hc, Conv.reads]; omega)
      have h' : ∀ i, k + 1 ≤ i → i < k + 1 + reads conv ds → args' i = args i := fun i hk hi =>
        h i (by omega) (by rw [reads, hc, Conv.reads]; omega)
      rw [render_word hc, render_word hc, hk, render_congr_args ds (k + 1) h']

/-- Two routines whose conversions agree on the conversions of the directives print the same. -/
theorem render_congr_conv {conv' : Char → Conv α} :
    ∀ (ds : List Directive) (k : Nat), (∀ c, .conv c ∈ ds → conv' c = conv c) →
      render lit conv' args ds k = render lit conv args ds k
  | [], _, _ => rfl
  | .lit c :: ds, k, h => by
    rw [render_lit, render_lit, render_congr_conv ds k fun c hc => h c (.tail _ hc)]
  | .conv c :: ds, k, h => by
    have hrest : ∀ c, .conv c ∈ ds → conv' c = conv c := fun c hc => h c (.tail _ hc)
    rw [render, render, h c (.head _)]
    cases conv c with
    | text out => rw [render_congr_conv ds k hrest]
    | word f => rw [render_congr_conv ds (k + 1) hrest]

end Render

end Format
