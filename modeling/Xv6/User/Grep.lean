import Xv6.Lib.Regex

/-!
# grep

`match`, `matchhere` and `matchstar` are the backtracking matcher of `grep.c`; a string is the
list of its characters before the NUL. A pattern, after an optional `^`, is a sequence of atoms:
`c*`, `.`, a final `$`, and characters that stand for themselves (`atoms`). `match` decides
whether some suffix of the text, or with `^` the text itself, has a prefix in the pattern's
language, the whole suffix when the pattern ends in `$` (`match_iff`). The three functions are
structurally recursive, so they terminate on every input.

`grep` reads the input into a buffer and writes each complete line that matches. When a read
leaves the buffer without a newline, `grep` empties the buffer (`if(p == buf) m = 0`): a line
split across two reads loses its first part (`grep_drops_unfinished_line`). When every read
returns whole lines, `grep` writes exactly the lines that match (`grep_whole_lines`).
-/

namespace Xv6.Grep

open AtomRe

/-- `matchstar(c, re, text)`, with `m` for `matchhere(re, ·)`: `re` after no `c`, then after
one more for as long as the text goes on with `c` (any character for `.`). -/
def matchstarWith (m : List Char → Bool) (c : Char) : List Char → Bool
  | [] => m []
  | t :: text => m (t :: text) || ((t == c || c == '.') && matchstarWith m c text)

/-- `matchhere(re, text)`: `re` at the start of `text`. -/
def matchhere : List Char → List Char → Bool
  | [], _ => true
  | c :: '*' :: re, text => matchstarWith (matchhere re) c text
  | ['$'], text => text.isEmpty
  | c :: re, t :: text => (c == '.' || c == t) && matchhere re text
  | _ :: _, [] => false

/-- `matchstar(c, re, text)`. -/
def matchstar (c : Char) (re text : List Char) : Bool := matchstarWith (matchhere re) c text

/-- The do-while of `match`: `re` at the start of the text or of one of its suffixes, down to
the empty one. -/
def matchLoop (re : List Char) : List Char → Bool
  | [] => matchhere re []
  | t :: text => matchhere re (t :: text) || matchLoop re text

/-- `match(re, text)`. -/
def match' : List Char → List Char → Bool
  | '^' :: re, text => matchhere re text
  | re, text => matchLoop re text

/-! ### The language of a pattern -/

/-- The characters `c` stands for: any one for `.`, otherwise `c` itself. -/
def cls (c t : Char) : Bool := c == '.' || c == t

/-- The atoms of a pattern after its `^`, and whether it ends in an unstarred `$`. -/
def atoms : List Char → List (Atom Char) × Bool
  | [] => ([], false)
  | c :: '*' :: re => (.star (cls c) :: (atoms re).1, (atoms re).2)
  | ['$'] => ([], true)
  | c :: re => (.one (cls c) :: (atoms re).1, (atoms re).2)

/-- What `match` decides: with `^`, that a prefix of the text is in the pattern's language;
without, that a prefix of some suffix of the text is. -/
def Matches : List Char → List Char → Prop
  | '^' :: re, text => PrefixIn (atoms re).1 (atoms re).2 text
  | re, text => ∃ s, s <:+ text ∧ PrefixIn (atoms re).1 (atoms re).2 s

/-! ### `matchhere` and `matchstar` -/

/-- `matchstar` takes the star's two choices: stop here, or take one more character. -/
theorem matchstarWith_iff {m : List Char → Bool} {as : List (Atom Char)} {e : Bool}
    (hm : ∀ s, m s = true ↔ PrefixIn as e s) (c : Char) (text : List Char) :
    matchstarWith m c text = true ↔ PrefixIn (.star (cls c) :: as) e text := by
  induction text with
  | nil => rw [matchstarWith, hm, prefixIn_star_nil]
  | cons t text ih =>
    have hcls : (t == c || c == '.') = cls c t := by
      unfold cls
      by_cases htc : t = c
      · subst htc
        rw [Bool.or_comm]
      · rw [beq_false_of_ne htc, beq_false_of_ne (Ne.symm htc), Bool.false_or, Bool.or_false]
    rw [matchstarWith, prefixIn_star_cons, hcls, Bool.or_eq_true, Bool.and_eq_true, hm, ih]

/-- `matchhere` decides whether a prefix of the text is in the pattern's language. -/
theorem matchhere_iff (re text : List Char) :
    matchhere re text = true ↔ PrefixIn (atoms re).1 (atoms re).2 text := by
  -- on the length of the pattern: `matchstar` calls `matchhere` on the pattern after `c*`
  induction hn : re.length using Nat.strong_induction_on generalizing re text with
  | _ n ih =>
    fun_cases matchhere re text with
    | case1 => simp [atoms, prefixIn_nil]
    | case2 c re text =>
      rw [atoms]
      exact matchstarWith_iff (fun s => ih re.length (by simp at hn; omega) re s rfl) c text
    | case3 text =>
      rw [atoms, prefixIn_nil, List.isEmpty_iff]
      simp
    | case4 c re t text hstar hdollar =>
      rw [atoms.eq_4 c re hstar hdollar, prefixIn_one_cons, Bool.and_eq_true,
        ih re.length (by simp at hn; omega) re text rfl]
      rfl
    | case5 c re hstar hdollar =>
      rw [atoms.eq_4 c re hstar hdollar]
      exact iff_of_false Bool.false_ne_true not_prefixIn_one_nil

/-- The do-while of `match` tries every suffix of the text. -/
theorem matchLoop_iff (re text : List Char) :
    matchLoop re text = true ↔ ∃ s, s <:+ text ∧ PrefixIn (atoms re).1 (atoms re).2 s := by
  induction text with
  | nil =>
    rw [matchLoop, matchhere_iff]
    simp
  | cons t text ih =>
    rw [matchLoop, Bool.or_eq_true, matchhere_iff, ih]
    simp only [List.suffix_cons_iff, or_and_right, exists_or, exists_eq_left]

/-- `match(re, text)` returns 1 exactly when the text, or with `^` its start, matches the
pattern's language. -/
theorem match_iff (re text : List Char) : match' re text = true ↔ Matches re text := by
  fun_cases match' re text with
  | case1 re text => exact matchhere_iff re text
  | case2 re text hcaret =>
    rw [matchLoop_iff]
    -- a pattern that does not start with `^` is matched unanchored
    cases re with
    | nil => rfl
    | cons c re =>
      have hc : c ≠ '^' := fun h => hcaret re (h ▸ rfl)
      rw [Matches.eq_2 (c :: re) text fun re' h => hc (List.cons_eq_cons.mp h).1]

/-! ### `grep` -/

/-- `strchr(s, c)`: the index of the first `c` in `s`, which ends at its first NUL. -/
def strchr : List Char → Char → Option Nat
  | [], _ => none
  | x :: s, c => if x = '\x00' then none else if x = c then some 0 else (strchr s c).map (· + 1)

/-- The inner loop of `grep` over the buffer `buf` from `p`, with at most `k` passes: each line
`strchr` finds is matched and, when it matches, written with its newline. The output, and the
`p` the loop stops at. -/
def scanLines (re buf : List Char) : Nat → Nat → List Char × Nat
  | 0, p => ([], p)
  | k + 1, p =>
    match strchr (buf.drop p) '\n' with
    | none => ([], p)
    | some i =>
      let line := (buf.drop p).take i
      let rest := scanLines re buf k (p + i + 1)
      ((if match' re line then line ++ ['\n'] else []) ++ rest.1, rest.2)

/-- `grep(pattern, fd)` with `carry` in the buffer, when the successive `read` calls return
`reads`: the bytes it writes. `none` if a read returns more than the `sizeof(buf)-m-1` bytes it
asks for, which no read does. -/
def grepLoop (re : List Char) : List (List Char) → List Char → Option (List Char)
  | [], _ => some []
  | r :: reads, carry =>
    if r.length > 1024 - carry.length - 1 then none
    else if r = [] then some []
    else
      let buf := carry ++ r
      let scan := scanLines re buf (buf.length + 1) 0
      -- `if(p == buf) m = 0`; otherwise what follows the last line moves to the front
      let carry := if scan.2 = 0 then [] else buf.drop scan.2
      (grepLoop re reads carry).map (scan.1 ++ ·)

/-- `grep(pattern, fd)` on an empty buffer. -/
def grep (re : List Char) (reads : List (List Char)) : Option (List Char) := grepLoop re reads []

theorem strchr_eq_none {s : List Char} {c : Char} (h : c ∉ s) : strchr s c = none := by
  induction s with
  | nil => rfl
  | cons x s ih =>
    have hxc : x ≠ c := fun hx => h (hx ▸ List.mem_cons_self ..)
    rw [strchr]
    split_ifs
    · rfl
    · rw [ih fun hs => h (List.mem_cons_of_mem x hs)]
      rfl

/-- A read that does not finish the line in the buffer empties the buffer: the part of the line
read so far is never matched or written. -/
theorem grep_drops_unfinished_line (re : List Char) {carry r : List Char} (reads : List (List Char))
    (hr : r ≠ []) (hfit : r.length ≤ 1023 - carry.length) (hline : '\n' ∉ carry ++ r) :
    grepLoop re (r :: reads) carry = grepLoop re reads [] := by
  rw [grepLoop, if_neg (by omega), if_neg hr]
  dsimp only
  rw [scanLines, List.drop_zero, strchr_eq_none hline]
  dsimp only
  rw [if_pos rfl]
  cases grepLoop re reads [] <;> rfl

/-- The line `abc` matches the pattern `abc`; read whole it is written, read as `ab` and then
`c` and its newline it is not. -/
theorem grep_abc_split :
    grep ['a', 'b', 'c'] [['a', 'b', 'c', '\n']] = some ['a', 'b', 'c', '\n'] ∧
      grep ['a', 'b', 'c'] [['a', 'b'], ['c', '\n']] = some [] := by
  refine ⟨by decide, ?_⟩
  rw [grep, grep_drops_unfinished_line _ _ (by decide) (by decide) (by decide)]
  decide

/-! ### Reads of whole lines -/

/-- The bytes of lines, each followed by its newline. -/
def linesBytes (ls : List (List Char)) : List Char := (ls.map (· ++ ['\n'])).flatten

/-- What `grep` is to write for the lines: the ones that match, each with its newline. -/
def matching (re : List Char) (ls : List (List Char)) : List Char := linesBytes (ls.filter (match' re))

theorem matching_cons (re l : List Char) (ls : List (List Char)) :
    matching re (l :: ls) = (if match' re l then l ++ ['\n'] else []) ++ matching re ls := by
  unfold matching
  cases h : match' re l <;> simp [linesBytes, h]

theorem length_linesBytes_cons (l : List Char) (ls : List (List Char)) :
    (linesBytes (l :: ls)).length = l.length + 1 + (linesBytes ls).length := by
  simp only [linesBytes, List.map_cons, List.flatten_cons, List.length_append, List.length_singleton]

/-- A line holds neither a newline nor a NUL. -/
def Line (l : List Char) : Prop := '\n' ∉ l ∧ '\x00' ∉ l

theorem strchr_line {l : List Char} (hl : Line l) (rest : List Char) :
    strchr (l ++ '\n' :: rest) '\n' = some l.length := by
  induction l with
  | nil => rfl
  | cons x l ih =>
    have hx : x ≠ '\x00' := fun h => hl.2 (h ▸ List.mem_cons_self ..)
    have hxn : x ≠ '\n' := fun h => hl.1 (h ▸ List.mem_cons_self ..)
    have hl' : Line l := ⟨fun h => hl.1 (List.mem_cons_of_mem x h), fun h => hl.2 (List.mem_cons_of_mem x h)⟩
    rw [List.cons_append, strchr, if_neg hx, if_neg hxn, ih hl']
    rfl

/-- The inner loop from `p` is the loop from 0 over the buffer after `p`. -/
theorem scanLines_drop (re buf : List Char) (k p : Nat) :
    scanLines re buf k p =
      ((scanLines re (buf.drop p) k 0).1, p + (scanLines re (buf.drop p) k 0).2) := by
  induction k generalizing buf p with
  | zero => rfl
  | succ k ih =>
    rw [scanLines, scanLines, List.drop_zero]
    cases strchr (buf.drop p) '\n' with
    | none => rfl
    | some i =>
      dsimp only
      rw [ih buf, ih (buf.drop p), List.drop_drop, show p + (0 + i + 1) = p + i + 1 by omega]
      congr 1
      dsimp only
      omega

theorem length_le_linesBytes (ls : List (List Char)) : ls.length ≤ (linesBytes ls).length := by
  induction ls with
  | nil => exact Nat.zero_le _
  | cons l ls ih =>
    simp only [linesBytes, List.map_cons, List.flatten_cons, List.length_append, List.length_cons] at ih ⊢
    omega

/-- Over whole lines and a tail with no newline, the inner loop writes the matching lines and
stops at the tail. -/
theorem scanLines_lines (re : List Char) {ls : List (List Char)} (hls : ∀ l ∈ ls, Line l)
    {tail : List Char} (htail : '\n' ∉ tail) {k : Nat} (hk : ls.length < k) :
    scanLines re (linesBytes ls ++ tail) k 0 = (matching re ls, (linesBytes ls).length) := by
  induction ls generalizing k with
  | nil =>
    obtain ⟨k, rfl⟩ : ∃ k', k = k' + 1 := ⟨k - 1, by simp at hk; omega⟩
    rw [scanLines, List.drop_zero, linesBytes, List.map_nil, List.flatten_nil, List.nil_append,
      strchr_eq_none htail]
    rfl
  | cons l ls ih =>
    obtain ⟨k, rfl⟩ : ∃ k', k = k' + 1 := ⟨k - 1, by simp at hk; omega⟩
    have hl := hls l (List.mem_cons_self ..)
    have hbuf : linesBytes (l :: ls) ++ tail = l ++ '\n' :: (linesBytes ls ++ tail) := by
      simp [linesBytes]
    have hdrop : (l ++ '\n' :: (linesBytes ls ++ tail)).drop (0 + l.length + 1) = linesBytes ls ++ tail := by
      simp
    rw [scanLines, hbuf, List.drop_zero, strchr_line hl]
    dsimp only
    rw [scanLines_drop, hdrop,
      ih (fun l' hl' => hls l' (List.mem_cons_of_mem l hl')) (by simp at hk; omega)]
    have htake : (l ++ '\n' :: (linesBytes ls ++ tail)).take l.length = l := by simp
    rw [htake, matching_cons, length_linesBytes_cons]
    dsimp only
    congr 1
    omega

theorem matching_append (re : List Char) (ls ls' : List (List Char)) :
    matching re (ls ++ ls') = matching re ls ++ matching re ls' := by
  simp [matching, linesBytes, List.filter_append]

/-- When every read returns whole lines and fits the buffer, `grep` writes the lines that match,
in order. -/
theorem grep_whole_lines (re : List Char) (rss : List (List (List Char)))
    (hreads : ∀ rs ∈ rss, rs ≠ [] ∧ (linesBytes rs).length ≤ 1023 ∧ ∀ l ∈ rs, Line l) :
    grep re (rss.map linesBytes) = some (matching re rss.flatten) := by
  unfold grep
  induction rss with
  | nil => rfl
  | cons rs rss ih =>
    obtain ⟨hne, hfit, hlines⟩ := hreads rs (List.mem_cons_self ..)
    have hpos : (linesBytes rs).length ≠ 0 := by
      obtain ⟨l, ls, rfl⟩ := List.exists_cons_of_ne_nil hne
      rw [length_linesBytes_cons]
      omega
    -- the read is all whole lines: the inner loop writes the matching ones and stops at its end
    have hscan : scanLines re ([] ++ linesBytes rs) (([] ++ linesBytes rs).length + 1) 0 =
        (matching re rs, (linesBytes rs).length) := by
      rw [List.nil_append, ← List.append_nil (linesBytes rs), scanLines_lines re hlines (by simp)
        (by have := length_le_linesBytes rs; simp; omega), List.append_nil]
    rw [List.map_cons, grepLoop, if_neg (by simp; omega), if_neg (fun h => hpos (by rw [h]; rfl))]
    dsimp only
    rw [hscan]
    dsimp only
    rw [if_neg hpos, List.nil_append, List.drop_length, ih fun rs' h => hreads rs' (List.mem_cons_of_mem _ h),
      Option.map_some, List.flatten_cons, matching_append]

/-- Two reads of whole lines, `ab` and `c`: the one that matches `a` is written. -/
theorem grep_whole_lines_two :
    grep ['a'] [linesBytes [['a', 'b'], ['c']]] = some (matching ['a'] [['a', 'b'], ['c']]) :=
  grep_whole_lines ['a'] [[['a', 'b'], ['c']]] (by simp [linesBytes, Line])


end Xv6.Grep
