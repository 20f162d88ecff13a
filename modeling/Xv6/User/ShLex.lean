import Xv6.User.Sh
import Mathlib.Data.List.TakeWhile
import Mathlib.Data.List.DropRight

/-!
The tokens of a command line, and `gettoken` and `peek` against them.

`tokenize` is what the tokens of a line are, stated on its characters: whitespace separates
them, each symbol is one on its own except `>>`, and a word is a longest run of the other
characters. `toks buf p` are the tokens left at position `p`, and each lemma of the last
section says what one call of the scanner does to them, so that the proofs about the parser
never unfold the scanner.
-/

namespace Xv6.Sh

/-! ### Tokens -/

/-- A token of a command line. -/
inductive Tok
  | word (w : List Char)
  | bar | lparen | rparen | semi | amp | lt | gt | gtgt
  deriving DecidableEq, Repr

/-- What `gettoken` returns for a token. -/
def Tok.code : Tok → Char
  | .word _ => 'a'
  | .bar => '|'
  | .lparen => '('
  | .rparen => ')'
  | .semi => ';'
  | .amp => '&'
  | .lt => '<'
  | .gt => '>'
  | .gtgt => '+'

/-- The character `peek` sees at the start of a token that is not a word. -/
def Tok.lead : Tok → Option Char
  | .word _ => none
  | .bar => some '|'
  | .lparen => some '('
  | .rparen => some ')'
  | .semi => some ';'
  | .amp => some '&'
  | .lt => some '<'
  | .gt => some '>'
  | .gtgt => some '>'

def isWs (c : Char) : Bool := decide (c ∈ whitespace)

def isWordChar (c : Char) : Bool := decide (c ∉ whitespace ∧ c ∉ symbols)

/-- The token a symbol is on its own. -/
def symTok : Char → Option Tok
  | '|' => some .bar
  | '(' => some .lparen
  | ')' => some .rparen
  | ';' => some .semi
  | '&' => some .amp
  | '<' => some .lt
  | '>' => some .gt
  | _ => none

/-- The first token of `s`, past the whitespace before it, and what follows the token; `none`
when only whitespace is left. `>>` is one token, and a word is a longest run of characters
that are neither whitespace nor symbols. -/
def nextTok (s : List Char) : Option (Tok × List Char) :=
  match s.dropWhile isWs with
  | [] => none
  | '>' :: '>' :: r => some (.gtgt, r)
  | c :: r =>
    match symTok c with
    | some t => some (t, r)
    | none => some (.word (c :: r.takeWhile isWordChar), r.dropWhile isWordChar)

theorem length_lt_of_nextTok {s r : List Char} {t : Tok} (h : nextTok s = some (t, r)) :
    r.length < s.length := by
  have hle := List.length_dropWhile_le isWs s
  unfold nextTok at h
  split at h
  · cases h
  · rename_i r' hd
    cases h
    rw [hd] at hle
    simp at hle
    omega
  · rename_i c r' _ hd
    rw [hd] at hle
    split at h <;> cases h
    · simp at hle
      omega
    · have := List.length_dropWhile_le isWordChar r'
      simp at hle
      omega

/-- The tokens of a line. -/
def tokenize (s : List Char) : List Tok :=
  match h : nextTok s with
  | none => []
  | some (t, r) =>
    have : r.length < s.length := length_lt_of_nextTok h
    t :: tokenize r
termination_by s.length

theorem tokenize_eq_nil {s : List Char} (h : nextTok s = none) : tokenize s = [] := by
  rw [tokenize]
  split
  · rfl
  · rename_i heq
    rw [h] at heq
    cases heq

theorem tokenize_eq_cons {s r : List Char} {t : Tok} (h : nextTok s = some (t, r)) :
    tokenize s = t :: tokenize r := by
  rw [tokenize]
  split
  · rename_i heq
    rw [h] at heq
    cases heq
  · rename_i heq
    rw [h] at heq
    cases heq
    rfl

theorem nextTok_dropWhile (s : List Char) : nextTok (s.dropWhile isWs) = nextTok s := by
  rw [nextTok, nextTok, List.dropWhile_idempotent]

theorem tokenize_dropWhile (s : List Char) : tokenize (s.dropWhile isWs) = tokenize s := by
  cases h : nextTok s with
  | none => rw [tokenize_eq_nil h, tokenize_eq_nil ((nextTok_dropWhile s).trans h)]
  | some tr => rw [tokenize_eq_cons h, tokenize_eq_cons ((nextTok_dropWhile s).trans h)]

/-- Every token takes a character. -/
theorem length_tokenize_le (s : List Char) : (tokenize s).length ≤ s.length := by
  induction hn : s.length using Nat.strong_induction_on generalizing s with
  | _ n ih =>
    cases h : nextTok s with
    | none => rw [tokenize_eq_nil h]; exact Nat.zero_le _
    | some tr =>
      obtain ⟨t, r⟩ := tr
      have hlt := length_lt_of_nextTok h
      rw [tokenize_eq_cons h, List.length_cons]
      have := ih r.length (hn ▸ hlt) r rfl
      omega

theorem symTok_code {c : Char} {t : Tok} (h : symTok c = some t) : t.code = c ∧ t.lead = some c := by
  unfold symTok at h
  split at h <;> cases h <;> exact ⟨rfl, rfl⟩

theorem symTok_eq_none {c : Char} : symTok c = none ↔ c ∉ symbols := by
  unfold symTok
  split <;> simp_all [symbols]

/-- What `nextTok` found past the whitespace: `>>`, a symbol on its own, or a word. -/
theorem nextTok_inv {s r : List Char} {t : Tok} (h : nextTok s = some (t, r)) :
    ∃ c r₀, s.dropWhile isWs = c :: r₀ ∧
      ((c = '>' ∧ r₀ = '>' :: r ∧ t = .gtgt) ∨
        (symTok c = some t ∧ (c = '>' → r₀.head? ≠ some '>') ∧ r = r₀) ∨
        (symTok c = none ∧ t = .word (c :: r₀.takeWhile isWordChar) ∧
          r = r₀.dropWhile isWordChar)) := by
  unfold nextTok at h
  split at h
  · cases h
  · next r₁ hd =>
    obtain ⟨rfl, rfl⟩ := Prod.mk.inj (Option.some.inj h)
    exact ⟨'>', '>' :: r₁, hd, .inl ⟨rfl, rfl, rfl⟩⟩
  · next c r₀ hgt hd =>
    refine ⟨c, r₀, hd, .inr ?_⟩
    -- the branch for a single character: it is not the start of `>>`
    have hgt' : c = '>' → r₀.head? ≠ some '>' := by
      rintro rfl
      cases r₀ with
      | nil => nofun
      | cons d r₁ =>
        intro hd'
        cases Option.some.inj hd'
        exact hgt r₁ rfl rfl
    split at h
    · next t' ht =>
      obtain ⟨rfl, rfl⟩ := Prod.mk.inj (Option.some.inj h)
      exact .inl ⟨ht, hgt', rfl⟩
    · next ht =>
      obtain ⟨rfl, rfl⟩ := Prod.mk.inj (Option.some.inj h)
      exact .inr ⟨ht, rfl, rfl⟩

theorem nextTok_eq_none {s : List Char} : nextTok s = none ↔ s.dropWhile isWs = [] := by
  unfold nextTok
  split <;> simp_all
  split <;> simp

/-! ### The scanner against the tokens -/

/-- The tokens left at position `p` of the line. -/
def toks (buf : List Char) (p : Nat) : List Tok := tokenize (buf.drop p)

/-- Positions `[q, eq)` of the line around a word: a run of word characters that is not empty
and ends at the end of the line or at a character that is not one. -/
structure Span (buf : List Char) (w : Nat × Nat) : Prop where
  lt : w.1 < w.2
  le : w.2 ≤ buf.length
  word : ∀ i, w.1 ≤ i → i < w.2 → isWordChar (charAt buf i) = true
  stop : w.2 < buf.length → isWordChar (charAt buf w.2) = false

/-- The characters of the line in `[q, eq)`. -/
def slice (buf : List Char) (w : Nat × Nat) : List Char := (buf.drop w.1).take (w.2 - w.1)

section Scanner

variable {buf : List Char}

theorem drop_eq_cons_charAt {p : Nat} (h : p < buf.length) :
    buf.drop p = charAt buf p :: buf.drop (p + 1) := by
  rw [charAt, List.getD_eq_getElem?_getD, List.getElem?_eq_getElem h, Option.getD_some]
  exact List.drop_eq_getElem_cons h

theorem charAt_of_le {p : Nat} (h : buf.length ≤ p) : charAt buf p = '\x00' := by
  rw [charAt, List.getD_eq_getElem?_getD, List.getElem?_eq_none h, Option.getD_none]

/-- The loop stops where the test fails, having passed the run of characters that pass it. -/
theorem skipWhile_eq (test : Char → Bool) {k p : Nat} (hk : buf.length - p ≤ k) :
    skipWhile test buf k p = p + ((buf.drop p).takeWhile test).length ∧
      buf.drop (skipWhile test buf k p) = (buf.drop p).dropWhile test := by
  induction k generalizing p with
  | zero =>
    have hnil : buf.drop p = [] := List.drop_eq_nil_of_le (by omega)
    rw [skipWhile, hnil]
    exact ⟨rfl, (List.dropWhile_nil).symm⟩
  | succ k ih =>
    rw [skipWhile]
    by_cases hp : p < buf.length
    · rw [drop_eq_cons_charAt hp, List.takeWhile_cons, List.dropWhile_cons]
      by_cases ht : test (charAt buf p) = true
      · obtain ⟨h₁, h₂⟩ := ih (p := p + 1) (by omega)
        rw [if_pos ⟨hp, ht⟩, if_pos ht, if_pos ht, ← h₂, h₁, List.length_cons]
        exact ⟨by omega, by rw [Nat.add_assoc, Nat.add_comm 1]⟩
      · rw [if_neg fun h => ht h.2, if_neg ht, if_neg ht, ← drop_eq_cons_charAt hp]
        exact ⟨rfl, rfl⟩
    · have hnil : buf.drop p = [] := List.drop_eq_nil_of_le (by omega)
      rw [if_neg fun h => hp h.1, hnil]
      exact ⟨rfl, (List.dropWhile_nil).symm⟩

theorem charAt_mem {p : Nat} (h : p < buf.length) : charAt buf p ∈ buf := by
  rw [charAt, List.getD_eq_getElem?_getD, List.getElem?_eq_getElem h, Option.getD_some]
  exact List.getElem_mem h

theorem strchr_of_ne {str : List Char} {c : Char} (hc : c ≠ '\x00') :
    strchr str c = decide (c ∈ str) := by
  simp [strchr, hc]

/-- The loop only tests characters of the line. -/
theorem skipWhile_congr {test test' : Char → Bool} (h : ∀ c ∈ buf, test c = test' c)
    (k p : Nat) : skipWhile test buf k p = skipWhile test' buf k p := by
  induction k generalizing p with
  | zero => rfl
  | succ k ih =>
    rw [skipWhile, skipWhile]
    by_cases hp : p < buf.length
    · rw [h _ (charAt_mem hp), ih]
    · rw [if_neg fun h => hp h.1, if_neg fun h => hp h.1]

theorem skipWs_eq (hs : '\x00' ∉ buf) (p : Nat) :
    skipWs buf p = skipWhile isWs buf buf.length p :=
  skipWhile_congr (fun c hc => by rw [strchr_of_ne (ne_of_mem_of_not_mem hc hs), isWs]) _ _

theorem skipWord_eq (hs : '\x00' ∉ buf) (p : Nat) :
    skipWord buf p = skipWhile isWordChar buf buf.length p := by
  refine skipWhile_congr (fun c hc => ?_) _ _
  have hc0 := ne_of_mem_of_not_mem hc hs
  rw [strchr_of_ne hc0, strchr_of_ne hc0, isWordChar]
  simp

theorem drop_skipWs (hs : '\x00' ∉ buf) (p : Nat) :
    buf.drop (skipWs buf p) = (buf.drop p).dropWhile isWs := by
  rw [skipWs_eq hs]
  exact (skipWhile_eq isWs (Nat.sub_le _ _)).2

theorem skipWs_le (hs : '\x00' ∉ buf) {p : Nat} (hp : p ≤ buf.length) :
    skipWs buf p ≤ buf.length := by
  rw [skipWs_eq hs, (skipWhile_eq isWs (Nat.sub_le _ _)).1]
  have := (List.takeWhile_sublist (l := buf.drop p) isWs).length_le
  rw [List.length_drop] at this
  omega

theorem toks_skipWs (hs : '\x00' ∉ buf) (p : Nat) : toks buf (skipWs buf p) = toks buf p := by
  rw [toks, toks, drop_skipWs hs, tokenize_dropWhile]

theorem charAt_of_drop_eq_cons {s : Nat} {c : Char} {r : List Char} (h : buf.drop s = c :: r) :
    s < buf.length ∧ charAt buf s = c ∧ buf.drop (s + 1) = r := by
  have hlt : s < buf.length := by
    by_contra hle
    rw [List.drop_eq_nil_of_le (Nat.le_of_not_lt hle)] at h
    cases h
  rw [drop_eq_cons_charAt hlt] at h
  obtain ⟨hc, hr⟩ := List.cons_eq_cons.mp h
  exact ⟨hlt, hc, hr⟩

/-! `gettoken` by the class of the character it stops at. -/

theorem gettoken_end {p : Nat} (hc : charAt buf (skipWs buf p) = '\x00') :
    gettoken buf p = ('\x00', skipWs buf p, skipWs buf p, skipWs buf (skipWs buf p)) := by
  simp only [gettoken, hc]

theorem gettoken_symbol {p : Nat} {c : Char} (hc : charAt buf (skipWs buf p) = c)
    (hsym : c ∈ ['|', '(', ')', ';', '&', '<']) :
    gettoken buf p = (c, skipWs buf p, skipWs buf p + 1, skipWs buf (skipWs buf p + 1)) := by
  simp only [List.mem_cons, List.not_mem_nil, or_false] at hsym
  rcases hsym with rfl | rfl | rfl | rfl | rfl | rfl <;> simp only [gettoken, hc]

theorem gettoken_gt {p : Nat} (hc : charAt buf (skipWs buf p) = '>') :
    gettoken buf p =
      if charAt buf (skipWs buf p + 1) = '>' then
        ('+', skipWs buf p, skipWs buf p + 2, skipWs buf (skipWs buf p + 2))
      else ('>', skipWs buf p, skipWs buf p + 1, skipWs buf (skipWs buf p + 1)) := by
  simp only [gettoken, hc]
  split_ifs <;> rfl

theorem gettoken_word {p : Nat} {c : Char} (hc : charAt buf (skipWs buf p) = c)
    (h0 : c ≠ '\x00') (hsym : c ∉ symbols) :
    gettoken buf p = ('a', skipWs buf p, skipWord buf (skipWs buf p),
      skipWs buf (skipWord buf (skipWs buf p))) := by
  simp only [gettoken, hc]
  split <;> simp_all [symbols]

/-! `gettoken` against `nextTok`. -/

theorem charAt_eq_getElem {p : Nat} (h : p < buf.length) : charAt buf p = buf[p] := by
  rw [charAt, List.getD_eq_getElem?_getD, List.getElem?_eq_getElem h, Option.getD_some]

/-- `*s` is the first character of the line from `s`, or the NUL after it. -/
theorem charAt_eq_head? (p : Nat) : charAt buf p = ((buf.drop p).head?).getD '\x00' := by
  rw [charAt, List.getD_eq_getElem?_getD, List.head?_drop]

theorem charAt_mem_slice {w : Nat × Nat} {i : Nat} (h₁ : w.1 ≤ i) (h₂ : i < w.2)
    (hle : w.2 ≤ buf.length) : charAt buf i ∈ slice buf w := by
  rw [List.mem_iff_getElem]
  refine ⟨i - w.1, by simp only [slice, List.length_take, List.length_drop]; omega, ?_⟩
  simp only [slice, List.getElem_take, List.getElem_drop, charAt_eq_getElem (by omega : i < buf.length),
    Nat.add_sub_cancel' h₁]

theorem isWs_head {s r : List Char} {c : Char} (h : s.dropWhile isWs = c :: r) : isWs c = false := by
  have := List.head?_dropWhile_not isWs s
  rw [h] at this
  simpa using this

/-- The word loop of `gettoken` from the start of a word passes exactly the word, which is a
span of the line. -/
theorem skipWord_span (hs : '\x00' ∉ buf) {s : Nat} {c : Char} {r : List Char}
    (h : buf.drop s = c :: r) (hc : isWordChar c = true) :
    Span buf (s, skipWord buf s) ∧ slice buf (s, skipWord buf s) = c :: r.takeWhile isWordChar ∧
      buf.drop (skipWord buf s) = r.dropWhile isWordChar := by
  obtain ⟨he, hdrop⟩ := @skipWhile_eq buf isWordChar buf.length s (Nat.sub_le _ _)
  rw [← skipWord_eq hs] at he hdrop
  have htw : (buf.drop s).takeWhile isWordChar = c :: r.takeWhile isWordChar := by
    rw [h, List.takeWhile_cons_of_pos hc]
  have hslice : slice buf (s, skipWord buf s) = c :: r.takeWhile isWordChar := by
    rw [slice, he, Nat.add_sub_cancel_left, ← htw]
    exact (List.prefix_iff_eq_take.mp (List.takeWhile_prefix isWordChar)).symm
  have hlen : s + (c :: r.takeWhile isWordChar).length ≤ buf.length := by
    have hsub := (List.takeWhile_sublist (l := buf.drop s) isWordChar).length_le
    rw [htw, List.length_drop] at hsub
    have := (charAt_of_drop_eq_cons h).1
    omega
  refine ⟨⟨?_, ?_, ?_, ?_⟩, hslice, ?_⟩
  · show s < skipWord buf s
    rw [he, htw, List.length_cons]
    omega
  · show skipWord buf s ≤ buf.length
    rw [he, htw]
    exact hlen
  · intro i h₁ h₂
    have hmem := charAt_mem_slice h₁ h₂ (by rw [he, htw]; exact hlen)
    rw [hslice, ← htw] at hmem
    exact List.mem_takeWhile_imp hmem
  · -- the word stops at a character that is not a word character
    intro hlt
    have hcons := drop_eq_cons_charAt hlt
    rw [hdrop, h, List.dropWhile_cons_of_pos hc] at hcons
    have := List.head?_dropWhile_not isWordChar r
    rw [hcons] at this
    simpa using this
  · rw [hdrop, h, List.dropWhile_cons_of_pos hc]

/-- `gettoken` reads the token `nextTok` finds: its code, and the line after it; for a word,
its span. -/
theorem gettoken_some (hs : '\x00' ∉ buf) {p : Nat} {t : Tok} {r : List Char}
    (h : nextTok (buf.drop p) = some (t, r)) :
    (gettoken buf p).1 = t.code ∧ buf.drop (gettoken buf p).2.2.1 = r ∧
      (gettoken buf p).2.2.1 ≤ buf.length ∧
      ∀ w, t = .word w → Span buf ((gettoken buf p).2.1, (gettoken buf p).2.2.1) ∧
        slice buf ((gettoken buf p).2.1, (gettoken buf p).2.2.1) = w := by
  obtain ⟨c, r₀, hd, hcase⟩ := nextTok_inv h
  have hcr : buf.drop (skipWs buf p) = c :: r₀ := (drop_skipWs hs p).trans hd
  obtain ⟨hlt, hc, hr₀⟩ := charAt_of_drop_eq_cons hcr
  rcases hcase with ⟨rfl, rfl, rfl⟩ | ⟨ht, hgt, rfl⟩ | ⟨ht, rfl, rfl⟩
  · -- `>>`
    obtain ⟨hlt', hc', hr⟩ := charAt_of_drop_eq_cons hr₀
    rw [gettoken_gt hc, if_pos hc']
    exact ⟨rfl, hr, hlt', nofun⟩
  · obtain ⟨hcode, hlead⟩ := symTok_code ht
    have hnw : ∀ w, t ≠ .word w := by
      rintro w rfl
      cases hlead
    by_cases hgtc : c = '>'
    · -- `>` on its own: the next character is not another `>`
      subst hgtc
      have hnext : charAt buf (skipWs buf p + 1) ≠ '>' := by
        rw [charAt_eq_head?, hr₀]
        cases hh : r.head? with
        | none => decide
        | some d => exact fun hd' => hgt rfl (hh.trans (congrArg some hd'))
      rw [gettoken_gt hc, if_neg hnext]
      exact ⟨hcode.symm, hr₀, hlt, fun w hw => absurd hw (hnw w)⟩
    · have hsym : c ∈ ['|', '(', ')', ';', '&', '<'] := by
        unfold symTok at ht
        split at ht <;> simp_all
      rw [gettoken_symbol hc hsym]
      exact ⟨hcode.symm, hr₀, hlt, fun w hw => absurd hw (hnw w)⟩
  · -- a word
    have hws := isWs_head hd
    have hsym := symTok_eq_none.mp ht
    have hw : isWordChar c = true := by
      simp only [isWs, decide_eq_false_iff_not] at hws
      simp [isWordChar, hws, hsym]
    have h0 : c ≠ '\x00' := ne_of_mem_of_not_mem (hc ▸ charAt_mem hlt) hs
    obtain ⟨hspan, hslice, hdrop⟩ := skipWord_span hs hcr hw
    rw [gettoken_word hc h0 hsym]
    exact ⟨rfl, hdrop, hspan.le, fun w hw' => by cases hw'; exact ⟨hspan, hslice⟩⟩

theorem gettoken_none (hs : '\x00' ∉ buf) {p : Nat} (h : nextTok (buf.drop p) = none) :
    gettoken buf p = ('\x00', skipWs buf p, skipWs buf p, skipWs buf (skipWs buf p)) := by
  have hnil : buf.drop (skipWs buf p) = [] := (drop_skipWs hs p).trans (nextTok_eq_none.mp h)
  apply gettoken_end
  rw [charAt_eq_head?, hnil]
  rfl

theorem tokenize_eq_nil_iff {s : List Char} : tokenize s = [] ↔ nextTok s = none := by
  cases h : nextTok s with
  | none => simp [tokenize_eq_nil h]
  | some tr => simp [tokenize_eq_cons h]

/-! The lexer lemmas the parser proofs use, over the tokens left at a position. -/

theorem gettoken_nil (hs : '\x00' ∉ buf) {p q eq p' : Nat} {ret : Char}
    (hg : gettoken buf p = (ret, q, eq, p')) (h : toks buf p = []) :
    ret = '\x00' ∧ toks buf p' = [] ∧ (p ≤ buf.length → p' ≤ buf.length) := by
  have hn := tokenize_eq_nil_iff.mp h
  rw [gettoken_none hs hn] at hg
  obtain ⟨rfl, -, -, rfl⟩ := hg
  rw [toks_skipWs hs, toks_skipWs hs]
  exact ⟨rfl, h, fun hp => skipWs_le hs (skipWs_le hs hp)⟩

theorem gettoken_cons (hs : '\x00' ∉ buf) {p q eq p' : Nat} {ret : Char} {t : Tok}
    {T : List Tok} (hg : gettoken buf p = (ret, q, eq, p')) (h : toks buf p = t :: T) :
    ret = t.code ∧ toks buf p' = T ∧ p' ≤ buf.length ∧
      ∀ w, t = .word w → Span buf (q, eq) ∧ slice buf (q, eq) = w := by
  obtain ⟨⟨t', r⟩, hn⟩ : ∃ tr, nextTok (buf.drop p) = some tr := by
    cases hn : nextTok (buf.drop p) with
    | none => rw [toks, tokenize_eq_nil hn] at h; cases h
    | some tr => exact ⟨tr, rfl⟩
  rw [toks, tokenize_eq_cons hn] at h
  obtain ⟨rfl, rfl⟩ := List.cons_eq_cons.mp h
  obtain ⟨hcode, hdrop, hle, hword⟩ := gettoken_some hs hn
  -- the position past the token is `skipWs` of its end
  have hp' : p' = skipWs buf eq := by
    have := congrArg (fun g => g.2.2.2) hg
    have he := congrArg (fun g => g.2.2.1) hg
    simp only [gettoken] at this he
    rw [← this, ← he]
  rw [hg] at hcode hdrop hle hword
  refine ⟨hcode, ?_, hp' ▸ skipWs_le hs hle, hword⟩
  rw [hp', toks_skipWs hs, toks, hdrop]

/-- `gettoken(ps, es, 0, 0)`: passing over the next token. -/
theorem toks_gettoken (hs : '\x00' ∉ buf) {p : Nat} {t : Tok} {T : List Tok}
    (h : toks buf p = t :: T) :
    toks buf (gettoken buf p).2.2.2 = T ∧ (gettoken buf p).2.2.2 ≤ buf.length :=
  let ⟨_, hT, hle, _⟩ := gettoken_cons hs rfl h
  ⟨hT, hle⟩

/-- The next token is one of the symbols `tks`, as `peek` tests it. -/
def nextIn (tks : List Char) : List Tok → Bool
  | t :: _ => t.lead.any (fun c => decide (c ∈ tks))
  | [] => false

theorem toks_peek (hs : '\x00' ∉ buf) (p : Nat) (tks : List Char) :
    toks buf (peek buf p tks).2 = toks buf p :=
  toks_skipWs hs p

theorem peek_le (hs : '\x00' ∉ buf) {p : Nat} (tks : List Char) (hp : p ≤ buf.length) :
    (peek buf p tks).2 ≤ buf.length :=
  skipWs_le hs hp

/-- A check, run by evaluation, that every character of `l` is one of `l'`. -/
theorem mem_of_all_contains {l l' : List Char} (h : l.all l'.contains = true) {c : Char}
    (hc : c ∈ l) : c ∈ l' := by
  simpa using List.all_eq_true.mp h c hc

theorem not_mem_of_all_not_contains {l l' : List Char} (h : l.all (fun c => !l'.contains c) = true)
    {c : Char} (hc : c ∈ l) : c ∉ l' := by
  simpa using List.all_eq_true.mp h c hc

theorem peek_fst (hs : '\x00' ∉ buf) {tks : List Char} (htks : tks.all symbols.contains = true)
    (p : Nat) : (peek buf p tks).1 = nextIn tks (toks buf p) := by
  cases hn : nextTok (buf.drop p) with
  | none =>
    have hnil : buf.drop (skipWs buf p) = [] := (drop_skipWs hs p).trans (nextTok_eq_none.mp hn)
    rw [toks, tokenize_eq_nil hn, peek, charAt_eq_head?, hnil]
    rfl
  | some tr =>
    obtain ⟨t, r⟩ := tr
    obtain ⟨c, r₀, hd, hcase⟩ := nextTok_inv hn
    obtain ⟨hlt, hc, -⟩ := charAt_of_drop_eq_cons ((drop_skipWs hs p).trans hd)
    have h0 : c ≠ '\x00' := ne_of_mem_of_not_mem (hc ▸ charAt_mem hlt) hs
    have h0' : (c != '\x00') = true := bne_iff_ne.mpr h0
    rw [toks, tokenize_eq_cons hn, peek, hc, strchr_of_ne h0, h0', Bool.true_and, nextIn]
    rcases hcase with ⟨rfl, -, rfl⟩ | ⟨ht, -, -⟩ | ⟨ht, rfl, -⟩
    · rfl
    · rw [(symTok_code ht).2]
      rfl
    · -- a word: its first character is no symbol, so none of `tks`
      have hc' : c ∉ tks := fun hc' => symTok_eq_none.mp ht (mem_of_all_contains htks hc')
      simp [Tok.lead, hc']

theorem peek_spec (hs : '\x00' ∉ buf) {tks : List Char} (htks : tks.all symbols.contains = true)
    {p p' : Nat} {b : Bool} (h : peek buf p tks = (b, p')) :
    b = nextIn tks (toks buf p) ∧ toks buf p' = toks buf p ∧ (p ≤ buf.length → p' ≤ buf.length) := by
  have hb := congrArg Prod.fst h
  have hp := congrArg Prod.snd h
  rw [peek_fst hs htks] at hb
  subst hb hp
  exact ⟨rfl, toks_peek hs p tks, peek_le hs tks⟩

/-- A symbol that starts one token only: `peek` sees that token. -/
theorem nextIn_single {t₀ : Tok} {c : Char} (hc : ∀ t : Tok, t.lead = some c ↔ t = t₀)
    {ts : List Tok} : nextIn [c] ts = true ↔ ∃ T, ts = t₀ :: T := by
  cases ts with
  | nil => simp [nextIn]
  | cons t T =>
    have hT : (∃ T', t :: T = t₀ :: T') ↔ t = t₀ := by simp
    rw [nextIn, hT, ← hc]
    cases t.lead <;> simp

theorem nextIn_amp {ts : List Tok} : nextIn ['&'] ts = true ↔ ∃ T, ts = .amp :: T :=
  nextIn_single fun t => by cases t <;> simp [Tok.lead]

theorem nextIn_semi {ts : List Tok} : nextIn [';'] ts = true ↔ ∃ T, ts = .semi :: T :=
  nextIn_single fun t => by cases t <;> simp [Tok.lead]

theorem nextIn_bar {ts : List Tok} : nextIn ['|'] ts = true ↔ ∃ T, ts = .bar :: T :=
  nextIn_single fun t => by cases t <;> simp [Tok.lead]

theorem nextIn_lparen {ts : List Tok} : nextIn ['('] ts = true ↔ ∃ T, ts = .lparen :: T :=
  nextIn_single fun t => by cases t <;> simp [Tok.lead]

theorem nextIn_rparen {ts : List Tok} : nextIn [')'] ts = true ↔ ∃ T, ts = .rparen :: T :=
  nextIn_single fun t => by cases t <;> simp [Tok.lead]

/-- Past the whitespace, the line is at its end exactly when no token is left. -/
theorem skipWs_eq_length_iff (hs : '\x00' ∉ buf) {p : Nat} (hp : p ≤ buf.length) :
    skipWs buf p = buf.length ↔ toks buf p = [] := by
  rw [toks, tokenize_eq_nil_iff, nextTok_eq_none, ← drop_skipWs hs, List.drop_eq_nil_iff]
  have := skipWs_le hs hp
  omega

end Scanner

end Xv6.Sh
