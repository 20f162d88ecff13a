import Mathlib.Logic.Basic

/-!
# sh's parser

`gettoken`, `peek`, the recursive descent of `parsecmd` and `nulterminate` (`sh.c`). A line is
the list of its characters before the NUL, a pointer into it a position, and `*s` past the last
character reads the NUL. A word of the tree is the pair `argv[i]`, `eargv[i]` (or `file`,
`efile`) of positions around it.

Each loop of the source runs here for a bounded number of passes, one more than the line has
characters, and the four parse functions call each other with a `fuel` that `parsecmd` sets to
four calls per character; running out of either is an error the source does not have, and
`Xv6.User.ShGrammar` shows that this fuel is enough for every line the grammar derives.
-/

namespace Xv6.Sh

/-- `whitespace`. -/
def whitespace : List Char := [' ', '\t', '\r', '\n', '\x0b']

/-- `symbols`. -/
def symbols : List Char := ['<', '|', '>', '&', ';', '(', ')']

/-- `MAXARGS`. -/
def MAXARGS : Nat := 10

def O_RDONLY : Nat := 0x000
def O_WRONLY : Nat := 0x001
def O_CREATE : Nat := 0x200

/-- `strchr(str, c) != 0`: `c` is one of the characters of `str`, or the NUL that ends it. -/
def strchr (str : List Char) (c : Char) : Bool := c == '\x00' || str.contains c

/-- `*s` at position `p` of the line: NUL at its end. -/
def charAt (buf : List Char) (p : Nat) : Char := buf.getD p '\x00'

/-- `while(s < es && test(*s)) s++;` from `p`, for at most `k` characters. -/
def skipWhile (test : Char → Bool) (buf : List Char) : Nat → Nat → Nat
  | 0, p => p
  | k + 1, p => if p < buf.length ∧ test (charAt buf p) = true then skipWhile test buf k (p + 1) else p

/-- The whitespace loop of `gettoken` and `peek`. -/
def skipWs (buf : List Char) (p : Nat) : Nat := skipWhile (strchr whitespace) buf buf.length p

/-- The word loop of `gettoken`. -/
def skipWord (buf : List Char) (p : Nat) : Nat :=
  skipWhile (fun c => !strchr whitespace c && !strchr symbols c) buf buf.length p

/-- `gettoken(ps, es, &q, &eq)` from `p`: the token (`'a'` for a word, `'+'` for `>>`, NUL at
the end), `q` and `eq` around it, and the position past it and the whitespace after it. -/
def gettoken (buf : List Char) (p : Nat) : Char × Nat × Nat × Nat :=
  let s := skipWs buf p
  let (ret, eq) : Char × Nat :=
    match charAt buf s with
    | '\x00' => ('\x00', s)
    | '|' | '(' | ')' | ';' | '&' | '<' => (charAt buf s, s + 1)
    | '>' => if charAt buf (s + 1) = '>' then ('+', s + 2) else ('>', s + 1)
    | _ => ('a', skipWord buf s)
  (ret, s, eq, skipWs buf eq)

/-- `peek(ps, es, toks)` from `p`: whether the next character past the whitespace is one of
`toks`, and its position. -/
def peek (buf : List Char) (p : Nat) (toks : List Char) : Bool × Nat :=
  let s := skipWs buf p
  (charAt buf s != '\x00' && strchr toks (charAt buf s), s)

/-- `struct cmd`, with a word as `ω`: the positions `argv[i]`, `eargv[i]` around it as the
parser builds it, or its characters. -/
inductive Cmd (ω : Type)
  | exec (argv : List ω)
  | redir (cmd : Cmd ω) (file : ω) (mode fd : Nat)
  | pipe (left right : Cmd ω)
  | list (left right : Cmd ω)
  | back (cmd : Cmd ω)
  deriving DecidableEq, Repr

/-- The redirections `rs` around `cmd`, each `redircmd(cmd, ...)` of the one before. -/
def Cmd.redirs {ω : Type} (cmd : Cmd ω) (rs : List (ω × Nat × Nat)) : Cmd ω :=
  rs.foldl (fun cmd r => .redir cmd r.1 r.2.1 r.2.2) cmd

/-- The `switch(tok)` of `parseredirs`: the mode and fd of a redirection. -/
def redirMode : Char → Option (Nat × Nat)
  | '<' => some (O_RDONLY, 0)
  | '>' => some (O_WRONLY ||| O_CREATE, 1)
  | '+' => some (O_WRONLY ||| O_CREATE, 1)
  | _ => none

/-- `parseredirs` from `p`, at most `k` passes: the redirections in order. -/
def parseredirs (buf : List Char) : Nat → Nat →
    Except String (List ((Nat × Nat) × Nat × Nat) × Nat)
  | 0, _ => .error "sh: fuel"
  | k + 1, p =>
    let (more, p) := peek buf p ['<', '>']
    if more then
      let (tok, _, _, p) := gettoken buf p
      let (t, q, eq, p) := gettoken buf p
      if t ≠ 'a' then .error "missing file for redirection"
      else do
        let (rs, p) ← parseredirs buf k p
        match redirMode tok with
        | some m => pure (((q, eq), m) :: rs, p)
        | none => pure (rs, p)
    else .ok ([], p)

/-- The word loop of `parseexec` from `p`, with the words and redirections read so far; at
most `k` passes. -/
def parseexecLoop (buf : List Char) : Nat → Nat → List (Nat × Nat) → List ((Nat × Nat) × Nat × Nat) →
    Except String (List (Nat × Nat) × List ((Nat × Nat) × Nat × Nat) × Nat)
  | 0, _, _, _ => .error "sh: fuel"
  | k + 1, p, argv, rs =>
    let (stop, p) := peek buf p ['|', ')', '&', ';']
    if stop then .ok (argv, rs, p)
    else
      let (tok, q, eq, p) := gettoken buf p
      if tok = '\x00' then .ok (argv, rs, p)
      else if tok ≠ 'a' then .error "syntax"
      else if MAXARGS ≤ argv.length + 1 then .error "too many args"
      else do
        let (rs', p) ← parseredirs buf (buf.length + 1) p
        parseexecLoop buf k p (argv ++ [(q, eq)]) (rs ++ rs')

/-- The `&` loop of `parseline` from `p`; at most `k` passes. -/
def backLoop (buf : List Char) : Nat → Cmd (Nat × Nat) → Nat → Except String (Cmd (Nat × Nat) × Nat)
  | 0, _, _ => .error "sh: fuel"
  | k + 1, cmd, p =>
    let (amp, p) := peek buf p ['&']
    if amp then backLoop buf k (.back cmd) (gettoken buf p).2.2.2 else .ok (cmd, p)

mutual

/-- `parseline(ps, es)` from `p`, with `fuel` calls. -/
def parseline (buf : List Char) (fuel p : Nat) : Except String (Cmd (Nat × Nat) × Nat) :=
  match fuel with
  | 0 => .error "sh: fuel"
  | fuel + 1 => do
    let (cmd, p) ← parsepipe buf fuel p
    let (cmd, p) ← backLoop buf (buf.length + 1) cmd p
    let (semi, p) := peek buf p [';']
    if semi then
      let (rest, p) ← parseline buf fuel (gettoken buf p).2.2.2
      pure (.list cmd rest, p)
    else pure (cmd, p)
termination_by structural fuel

/-- `parsepipe(ps, es)`. -/
def parsepipe (buf : List Char) (fuel p : Nat) : Except String (Cmd (Nat × Nat) × Nat) :=
  match fuel with
  | 0 => .error "sh: fuel"
  | fuel + 1 => do
    let (cmd, p) ← parseexec buf fuel p
    let (bar, p) := peek buf p ['|']
    if bar then
      let (rest, p) ← parsepipe buf fuel (gettoken buf p).2.2.2
      pure (.pipe cmd rest, p)
    else pure (cmd, p)
termination_by structural fuel

/-- `parseblock(ps, es)`. -/
def parseblock (buf : List Char) (fuel p : Nat) : Except String (Cmd (Nat × Nat) × Nat) :=
  match fuel with
  | 0 => .error "sh: fuel"
  | fuel + 1 =>
    let (lp, p) := peek buf p ['(']
    if !lp then .error "parseblock"
    else do
      let (cmd, p) ← parseline buf fuel (gettoken buf p).2.2.2
      let (rp, p) := peek buf p [')']
      if !rp then .error "syntax - missing )"
      else do
        let (rs, p) ← parseredirs buf (buf.length + 1) (gettoken buf p).2.2.2
        pure (cmd.redirs rs, p)
termination_by structural fuel

/-- `parseexec(ps, es)`. The redirections wrap the `execcmd` whose `argv` the loop fills after
they are made, so the words and the redirections are collected and put together at the end. -/
def parseexec (buf : List Char) (fuel p : Nat) : Except String (Cmd (Nat × Nat) × Nat) :=
  match fuel with
  | 0 => .error "sh: fuel"
  | fuel + 1 =>
    let (lp, p) := peek buf p ['(']
    if lp then parseblock buf fuel p
    else do
      let (rs, p) ← parseredirs buf (buf.length + 1) p
      let (argv, rs, p) ← parseexecLoop buf (buf.length + 1) p [] rs
      pure ((Cmd.exec argv).redirs rs, p)
termination_by structural fuel

end

/-- `nulterminate(cmd)`: a NUL at `eargv[i]` of every word and at `efile` of every
redirection. -/
def nulterminate : Cmd (Nat × Nat) → List Char → List Char
  | .exec argv, buf => argv.foldl (fun buf w => buf.set w.2 '\x00') buf
  | .redir cmd file _ _, buf => (nulterminate cmd buf).set file.2 '\x00'
  | .pipe left right, buf => nulterminate right (nulterminate left buf)
  | .list left right, buf => nulterminate right (nulterminate left buf)
  | .back cmd, buf => nulterminate cmd buf

/-- `parsecmd(s)`: the command, and the line after `nulterminate`. -/
def parsecmd (buf : List Char) : Except String (Cmd (Nat × Nat) × List Char) := do
  let (cmd, p) ← parseline buf (4 * buf.length + 4) 0
  let (_, p) := peek buf p []
  if p ≠ buf.length then .error "syntax"
  else pure (cmd, nulterminate cmd buf)

example : (parsecmd ['l', 's', ' ', '>', ' ', 'f', ' ', '|', ' ', 'w', 'c', ' ', '&']).toOption.map Prod.fst =
    some (.back (.pipe (.redir (.exec [(0, 2)]) (5, 6) 0x201 1) (.exec [(9, 11)]))) := by decide

example : (parsecmd ['e', ' ', '(']).toOption = none := by decide

end Xv6.Sh
