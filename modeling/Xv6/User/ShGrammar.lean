import Xv6.User.ShLex
import Xv6.Lib.ExceptOk
import Mathlib.Data.List.Forall2

/-!
The grammar of a command line, and the parser against it.

`Derives nt ts a` says that the tokens `ts` derive from the nonterminal `nt` the command `a`,
a tree whose words are the words' characters. Each parse function is sound (what it read
derives what it built, whatever its fuel) and complete (from a derivation followed by a
token that may follow its nonterminal, with enough fuel, it builds that tree). `nulterminate`
leaves at the start of every word of the tree the string of that word.
-/

namespace Xv6.Sh

/-! ### The grammar -/

/-- The operator of a redirection. -/
inductive RedirOp
  | lt | gt | gtgt
  deriving DecidableEq, Repr

def RedirOp.tok : RedirOp → Tok
  | .lt => .lt
  | .gt => .gt
  | .gtgt => .gtgt

/-- The mode and the file descriptor the redirection opens its file on: `<` reads on 0, `>`
and `>>` write on 1, creating the file. -/
def RedirOp.mode : RedirOp → Nat × Nat
  | .lt => (O_RDONLY, 0)
  | .gt => (O_WRONLY ||| O_CREATE, 1)
  | .gtgt => (O_WRONLY ||| O_CREATE, 1)

/-- A redirection: its operator and its file. -/
structure Redir where
  op : RedirOp
  file : List Char
  deriving DecidableEq, Repr

def Redir.toks (r : Redir) : List Tok := [r.op.tok, .word r.file]

/-- The redirections `rs` around `c`, later ones outermost. -/
def Cmd.withRedirs (c : Cmd (List Char)) (rs : List Redir) : Cmd (List Char) :=
  c.redirs (rs.map fun r => (r.file, r.op.mode))

/-- `c` under `n` background operators. -/
def Cmd.backs {ω : Type} (c : Cmd ω) : Nat → Cmd ω
  | 0 => c
  | n + 1 => .back (c.backs n)

/-- The words of a tree, argument words and redirection files, in the order of the tree. -/
def Cmd.words {ω : Type} : Cmd ω → List ω
  | .exec argv => argv
  | .redir cmd file _ _ => cmd.words ++ [file]
  | .pipe left right => left.words ++ right.words
  | .list left right => left.words ++ right.words
  | .back cmd => cmd.words

def Cmd.map {α β : Type} (f : α → β) : Cmd α → Cmd β
  | .exec argv => .exec (argv.map f)
  | .redir cmd file mode fd => .redir (cmd.map f) (f file) mode fd
  | .pipe left right => .pipe (left.map f) (right.map f)
  | .list left right => .list (left.map f) (right.map f)
  | .back cmd => .back (cmd.map f)

inductive NT
  | line | pipe | exec
  deriving DecidableEq, Repr

/-- The tokens of the words of a simple command, each followed by its redirections. -/
def groupToks (gs : List (List Char × List Redir)) : List Tok :=
  gs.flatMap fun g => .word g.1 :: g.2.flatMap Redir.toks

/-- The grammar:
`line ::= pipe '&'* [';' line]`, `pipe ::= exec ['|' pipe]`,
`exec ::= '(' line ')' redir* | redir* (word redir*)*` with fewer than `MAXARGS` words,
`redir ::= ('<' | '>' | '>>') word`; each derivation with the tree it stands for. -/
inductive Derives : NT → List Tok → Cmd (List Char) → Prop
  | line {ts : List Tok} {c : Cmd (List Char)} (n : Nat) :
      Derives .pipe ts c → Derives .line (ts ++ List.replicate n .amp) (c.backs n)
  | list {ts ts' : List Tok} {c c' : Cmd (List Char)} (n : Nat) :
      Derives .pipe ts c → Derives .line ts' c' →
      Derives .line (ts ++ List.replicate n .amp ++ .semi :: ts') (.list (c.backs n) c')
  | pipe {ts : List Tok} {c : Cmd (List Char)} : Derives .exec ts c → Derives .pipe ts c
  | bar {ts ts' : List Tok} {c c' : Cmd (List Char)} :
      Derives .exec ts c → Derives .pipe ts' c' → Derives .pipe (ts ++ .bar :: ts') (.pipe c c')
  | block {ts : List Tok} {c : Cmd (List Char)} (rs : List Redir) :
      Derives .line ts c →
      Derives .exec (.lparen :: ts ++ .rparen :: rs.flatMap Redir.toks) (c.withRedirs rs)
  | simple (rs : List Redir) (gs : List (List Char × List Redir)) :
      gs.length < MAXARGS →
      Derives .exec (rs.flatMap Redir.toks ++ groupToks gs)
        ((Cmd.exec (gs.map Prod.fst)).withRedirs (rs ++ gs.flatMap Prod.snd))

section Trees

variable {α β : Type}

theorem Cmd.map_redirs (f : α → β) (c : Cmd α) (rs : List (α × Nat × Nat)) :
    (c.redirs rs).map f = (c.map f).redirs (rs.map fun r => (f r.1, r.2)) := by
  induction rs generalizing c with
  | nil => rfl
  | cons r rs ih => exact ih (.redir c r.1 r.2.1 r.2.2)

theorem Cmd.words_redirs (c : Cmd α) (rs : List (α × Nat × Nat)) :
    (c.redirs rs).words = c.words ++ rs.map Prod.fst := by
  induction rs generalizing c with
  | nil => simp [Cmd.redirs]
  | cons r rs ih =>
    rw [Cmd.redirs, List.foldl_cons, ← Cmd.redirs, ih, Cmd.words, List.map_cons,
      List.append_assoc, List.singleton_append]

theorem Cmd.map_backs (f : α → β) (c : Cmd α) (n : Nat) : (c.backs n).map f = (c.map f).backs n := by
  induction n with
  | zero => rfl
  | succ n ih => rw [Cmd.backs, Cmd.map, ih, Cmd.backs]

theorem Cmd.words_backs (c : Cmd α) (n : Nat) : (c.backs n).words = c.words := by
  induction n with
  | zero => rfl
  | succ n ih => rw [Cmd.backs, Cmd.words, ih]

end Trees

/-! ### What the parser built, against the grammar -/

/-- The positions `w` of the line around the word `x`. -/
def WordAt (buf : List Char) (w : Nat × Nat) (x : List Char) : Prop :=
  Span buf w ∧ slice buf w = x

/-- A redirection the parser built, against one of the grammar. -/
def RedirAt (buf : List Char) (r : (Nat × Nat) × Nat × Nat) (R : Redir) : Prop :=
  WordAt buf r.1 R.file ∧ r.2 = R.op.mode

section Relations

variable {buf : List Char}

theorem map_slice_of_forall₂ {ws : List (Nat × Nat)} {xs : List (List Char)}
    (h : List.Forall₂ (WordAt buf) ws xs) : ws.map (slice buf) = xs := by
  induction h with
  | nil => rfl
  | cons hw _ ih => rw [List.map_cons, hw.2, ih]

theorem map_redir_of_forall₂ {rs : List ((Nat × Nat) × Nat × Nat)} {L : List Redir}
    (h : List.Forall₂ (RedirAt buf) rs L) :
    rs.map (fun r => (slice buf r.1, r.2)) = L.map fun R => (R.file, R.op.mode) := by
  induction h with
  | nil => rfl
  | cons hr _ ih => rw [List.map_cons, List.map_cons, hr.1.2, hr.2, ih]

theorem span_of_forall₂ {ws : List (Nat × Nat)} {xs : List (List Char)}
    (h : List.Forall₂ (WordAt buf) ws xs) : ∀ w ∈ ws, Span buf w := by
  induction h with
  | nil => nofun
  | cons hw _ ih =>
    rintro w (_ | ⟨_, hw'⟩)
    · exact hw.1
    · exact ih w hw'

theorem span_of_forall₂_redir {rs : List ((Nat × Nat) × Nat × Nat)} {L : List Redir}
    (h : List.Forall₂ (RedirAt buf) rs L) : ∀ w ∈ rs.map Prod.fst, Span buf w := by
  induction h with
  | nil => nofun
  | cons hr _ ih =>
    rintro w (_ | ⟨_, hw'⟩)
    · exact hr.1.1
    · exact ih w hw'

end Relations

/-! ### Soundness of the loops -/

section Loops

variable {buf : List Char}

theorem nextIn_redir {ts : List Tok} :
    nextIn ['<', '>'] ts = true ↔ ∃ op T, ts = RedirOp.tok op :: T := by
  cases ts with
  | nil => simp [nextIn]
  | cons t T =>
    constructor
    · intro h
      cases t <;> simp [nextIn, Tok.lead] at h
      · exact ⟨.lt, T, rfl⟩
      · exact ⟨.gt, T, rfl⟩
      · exact ⟨.gtgt, T, rfl⟩
    · rintro ⟨op, T', h⟩
      obtain ⟨rfl, rfl⟩ := List.cons_eq_cons.mp h
      cases op <;> rfl

theorem redirMode_code (op : RedirOp) : redirMode op.tok.code = some op.mode := by
  cases op <;> rfl

theorem code_eq_a {t : Tok} (h : t.code = 'a') : ∃ w, t = .word w := by
  cases t <;> first | exact ⟨_, rfl⟩ | cases h

/-- The two tokens of a redirection, as `parseredirs` reads them: the operator, then the word
of its file. -/
theorem gettoken_redir (hs : '\x00' ∉ buf) {op : RedirOp} {T : List Tok}
    {p₁ p₂ p₃ q₀ e₀ q eq : Nat} {tok : Char} (hT : toks buf p₁ = op.tok :: T)
    (hg₁ : gettoken buf p₁ = (tok, q₀, e₀, p₂)) (hg₂ : gettoken buf p₂ = ('a', q, eq, p₃)) :
    tok = op.tok.code ∧ ∃ w T', T = .word w :: T' ∧ WordAt buf (q, eq) w ∧
      toks buf p₃ = T' ∧ p₃ ≤ buf.length := by
  obtain ⟨htok, htoks₂, -, -⟩ := gettoken_cons hs hg₁ hT
  refine ⟨htok, ?_⟩
  cases T with
  | nil => exact absurd (gettoken_nil hs hg₂ htoks₂).1 (by decide)
  | cons t T' =>
    obtain ⟨hcode, htoks₃, hle, hword⟩ := gettoken_cons hs hg₂ htoks₂
    obtain ⟨w, rfl⟩ := code_eq_a hcode.symm
    exact ⟨w, T', rfl, hword w rfl, htoks₃, hle⟩

theorem parseredirs_sound (hs : '\x00' ∉ buf) {k p p' : Nat}
    {rs : List ((Nat × Nat) × Nat × Nat)} (h : parseredirs buf k p = .ok (rs, p')) :
    ∃ L : List Redir, toks buf p = L.flatMap Redir.toks ++ toks buf p' ∧
      List.Forall₂ (RedirAt buf) rs L ∧ (p ≤ buf.length → p' ≤ buf.length) := by
  induction k generalizing p rs p' with
  | zero => cases h
  | succ k ih =>
    rw [parseredirs] at h
    split at h
    next more p₁ hpk =>
    obtain ⟨hmore, htoks₁, hle₁⟩ := peek_spec hs rfl hpk
    split at h
    · next hm =>
      -- a redirection: its operator and its file, then the redirections after it
      obtain ⟨op, T, hT⟩ := nextIn_redir.mp (hmore ▸ hm)
      split at h
      next tok q₀ e₀ p₂ hg₁ =>
      split at h
      next t q eq p₃ hg₂ =>
      split at h
      · cases h
      · next ht =>
        rw [not_not] at ht
        subst ht
        obtain ⟨htok, w, T', rfl, hw, htoks₃, hle₃⟩ := gettoken_redir hs (htoks₁.trans hT) hg₁ hg₂
        obtain ⟨⟨rs₀, p''⟩, hrec, h⟩ := (Except.bind_eq_ok _ _ _).mp h
        rw [htok, redirMode_code] at h
        obtain ⟨rfl, rfl⟩ := Prod.mk.inj ((Except.pure_eq_ok _ _).mp h).symm
        obtain ⟨L, hL, hrel, hle⟩ := ih hrec
        refine ⟨⟨op, w⟩ :: L, ?_, .cons ⟨hw, rfl⟩ hrel, fun _ => hle hle₃⟩
        rw [hT, ← htoks₃, hL]
        rfl
    · cases h
      exact ⟨[], htoks₁.symm, .nil, hle₁⟩

theorem Tok.code_ne_nul (t : Tok) : t.code ≠ '\x00' := by
  cases t <;> (rw [Tok.code]; decide)

theorem groupToks_cons (w : List Char) (L : List Redir) (gs : List (List Char × List Redir)) :
    groupToks ((w, L) :: gs) = .word w :: L.flatMap Redir.toks ++ groupToks gs := by
  rw [groupToks, List.flatMap_cons, ← groupToks, List.cons_append]

/-- What the word loop of `parseexec` read from `p` to `p'`: groups `gs` of a word and the
redirections after it, whose words are at the positions `ws` and whose redirections the
parser built as `rs`. -/
structure LoopRead (buf : List Char) (p p' : Nat) (ws : List (Nat × Nat))
    (rs : List ((Nat × Nat) × Nat × Nat)) (gs : List (List Char × List Redir)) : Prop where
  read : toks buf p = groupToks gs ++ toks buf p'
  words : List.Forall₂ (WordAt buf) ws (gs.map Prod.fst)
  redirs : List.Forall₂ (RedirAt buf) rs (gs.flatMap Prod.snd)

theorem LoopRead.nil {p p' : Nat} (h : toks buf p = toks buf p') : LoopRead buf p p' [] [] [] :=
  ⟨h, .nil, .nil⟩

theorem LoopRead.cons {p p₁ p' : Nat} {w : List Char} {L : List Redir} {q : Nat × Nat}
    {rs₀ rs : List ((Nat × Nat) × Nat × Nat)} {ws : List (Nat × Nat)}
    {gs : List (List Char × List Redir)}
    (hp : toks buf p = .word w :: L.flatMap Redir.toks ++ toks buf p₁) (hq : WordAt buf q w)
    (hrs₀ : List.Forall₂ (RedirAt buf) rs₀ L) (h : LoopRead buf p₁ p' ws rs gs) :
    LoopRead buf p p' (q :: ws) (rs₀ ++ rs) ((w, L) :: gs) where
  read := by rw [hp, h.read, groupToks_cons]; simp only [List.cons_append, List.append_assoc]
  words := .cons hq h.words
  redirs := List.rel_append hrs₀ h.redirs

theorem parseexecLoop_sound (hs : '\x00' ∉ buf) {k p p' : Nat} {argv argv' : List (Nat × Nat)}
    {rs rs' : List ((Nat × Nat) × Nat × Nat)}
    (h : parseexecLoop buf k p argv rs = .ok (argv', rs', p')) :
    ∃ gs ws rs₁, argv' = argv ++ ws ∧ rs' = rs ++ rs₁ ∧ LoopRead buf p p' ws rs₁ gs ∧
      (argv.length < MAXARGS → argv'.length < MAXARGS) ∧ (p ≤ buf.length → p' ≤ buf.length) := by
  induction k generalizing p argv rs with
  | zero => cases h
  | succ k ih =>
    rw [parseexecLoop] at h
    split at h
    next stop p₁ hpk =>
    obtain ⟨-, htoks₁, hle₁⟩ := peek_spec hs rfl hpk
    split at h
    · -- the next token ends the command
      cases h
      exact ⟨[], [], [], (List.append_nil _).symm, (List.append_nil _).symm,
        .nil htoks₁.symm, id, hle₁⟩
    · split at h
      next tok q eq p₂ hg =>
      split at h
      · -- the end of the line
        next htok =>
        cases h
        cases htoks : toks buf p₁ with
        | nil =>
          obtain ⟨-, htoks₂, hle₂⟩ := gettoken_nil hs hg htoks
          exact ⟨[], [], [], (List.append_nil _).symm, (List.append_nil _).symm,
            .nil (htoks₁.symm.trans (htoks.trans htoks₂.symm)), id, fun hp => hle₂ (hle₁ hp)⟩
        | cons t T => exact absurd ((gettoken_cons hs hg htoks).1 ▸ htok) (Tok.code_ne_nul t)
      · split at h
        · cases h
        · split at h
          · cases h
          · next h0 ha hmax =>
            rw [not_not] at ha
            subst ha
            -- a word, then the redirections after it
            obtain ⟨t, T, htoks⟩ : ∃ t T, toks buf p₁ = t :: T := by
              cases htoks : toks buf p₁ with
              | nil => exact absurd (gettoken_nil hs hg htoks).1 (by decide)
              | cons t T => exact ⟨t, T, rfl⟩
            obtain ⟨hcode, htoks₂, hle₂, hword⟩ := gettoken_cons hs hg htoks
            obtain ⟨w, rfl⟩ := code_eq_a hcode.symm
            obtain ⟨⟨rs₀, p₃⟩, hred, h⟩ := (Except.bind_eq_ok _ _ _).mp h
            obtain ⟨L, hL, hrel, hle₃⟩ := parseredirs_sound hs hred
            obtain ⟨gs, ws, rs₁, rfl, rfl, hread, hmax', hle⟩ := ih h
            refine ⟨(w, L) :: gs, (q, eq) :: ws, rs₀ ++ rs₁, by simp, by simp,
              hread.cons ?_ (hword w rfl) hrel, fun _ => hmax' ?_, fun hp => hle (hle₃ hle₂)⟩
            · rw [← htoks₁, htoks, ← htoks₂, hL, List.cons_append]
            · rw [List.length_append, List.length_singleton]
              omega

theorem Cmd.back_backs {α : Type} (c : Cmd α) (n : Nat) : (Cmd.back c).backs n = c.backs (n + 1) := by
  induction n with
  | zero => rfl
  | succ n ih =>
    show Cmd.back ((Cmd.back c).backs n) = Cmd.back (c.backs (n + 1))
    rw [ih]

theorem backLoop_sound (hs : '\x00' ∉ buf) {k p p' : Nat} {c c' : Cmd (Nat × Nat)}
    (h : backLoop buf k c p = .ok (c', p')) :
    ∃ n, c' = c.backs n ∧ toks buf p = List.replicate n .amp ++ toks buf p' ∧
      (p ≤ buf.length → p' ≤ buf.length) := by
  induction k generalizing c p with
  | zero => cases h
  | succ k ih =>
    rw [backLoop] at h
    split at h
    next amp p₁ hpk =>
    obtain ⟨hamp, htoks₁, hle₁⟩ := peek_spec hs rfl hpk
    split at h
    · next ha =>
      obtain ⟨T, hT⟩ := nextIn_amp.mp (hamp ▸ ha)
      obtain ⟨htoks₂, hle₂⟩ := toks_gettoken hs (htoks₁.trans hT)
      obtain ⟨n, rfl, hn, hle⟩ := ih h
      refine ⟨n + 1, Cmd.back_backs c n, ?_, fun _ => hle hle₂⟩
      rw [hT, ← htoks₂, hn, List.replicate_succ, List.cons_append]
    · cases h
      exact ⟨0, rfl, htoks₁.symm, hle₁⟩

end Loops

/-! ### Soundness -/

section Sound

variable {buf : List Char}

/-- What a parse function that returned `c` at `p'` from `p` read: tokens that derive from `nt`
the tree of `c`'s words, every word of `c` a span of the line. -/
structure Parsed (buf : List Char) (nt : NT) (p : Nat) (c : Cmd (Nat × Nat)) (p' : Nat) : Prop where
  derives : ∃ ts, toks buf p = ts ++ toks buf p' ∧ Derives nt ts (c.map (slice buf))
  spans : ∀ w ∈ c.words, Span buf w
  le : p ≤ buf.length → p' ≤ buf.length

/-- A parse function of `nt` is sound when all it returns is `Parsed`. -/
def SoundAt (buf : List Char) (nt : NT) (f : Nat → Except String (Cmd (Nat × Nat) × Nat)) :
    Prop :=
  ∀ p c p', f p = .ok (c, p') → Parsed buf nt p c p'

theorem parseline_sound (hs : '\x00' ∉ buf) {fuel : Nat}
    (hpipe : SoundAt buf .pipe (parsepipe buf fuel)) (hline : SoundAt buf .line (parseline buf fuel)) :
    SoundAt buf .line (parseline buf (fuel + 1)) := by
  intro p c p' h
  rw [parseline] at h
  obtain ⟨⟨c₁, p₁⟩, h₁, h⟩ := (Except.bind_eq_ok _ _ _).mp h
  obtain ⟨⟨c₂, p₂⟩, h₂, h⟩ := (Except.bind_eq_ok _ _ _).mp h
  obtain ⟨⟨ts₁, hts₁, hd₁⟩, hsp₁, hle₁⟩ := hpipe p c₁ p₁ h₁
  obtain ⟨n, rfl, hn, hle₂⟩ := backLoop_sound hs h₂
  dsimp only at h
  generalize hpk : peek buf p₂ [';'] = pk at h
  obtain ⟨semi, p₃⟩ := pk
  obtain ⟨hsemi, htoks₃, hle₃⟩ := peek_spec hs rfl hpk
  dsimp only at h
  split at h
  · -- `;` and the line after it
    next hsm =>
    obtain ⟨T, hT⟩ := nextIn_semi.mp (hsemi ▸ hsm)
    obtain ⟨htoks₄, hle₄⟩ := toks_gettoken hs (htoks₃.trans hT)
    obtain ⟨⟨c₃, p₄⟩, h₃, h⟩ := (Except.bind_eq_ok _ _ _).mp h
    cases (Except.pure_eq_ok _ _).mp h
    obtain ⟨⟨ts₃, hts₃, hd₃⟩, hsp₃, hle₅⟩ := hline _ c₃ _ h₃
    refine ⟨⟨ts₁ ++ List.replicate n .amp ++ .semi :: ts₃, ?_, ?_⟩, ?_, ?_⟩
    · rw [hts₁, hn, hT, ← htoks₄, hts₃]
      simp only [List.append_assoc, List.cons_append]
    · rw [Cmd.map, Cmd.map_backs]
      exact .list n hd₁ hd₃
    · rw [Cmd.words, Cmd.words_backs]
      exact List.forall_mem_append.mpr ⟨hsp₁, hsp₃⟩
    · exact fun _ => hle₅ hle₄
  · cases h
    refine ⟨⟨ts₁ ++ List.replicate n .amp, ?_, ?_⟩, ?_, ?_⟩
    · rw [hts₁, hn, htoks₃, List.append_assoc]
    · rw [Cmd.map_backs]
      exact .line n hd₁
    · rw [Cmd.words_backs]
      exact hsp₁
    · exact fun hp => hle₃ (hle₂ (hle₁ hp))

theorem parsepipe_sound (hs : '\x00' ∉ buf) {fuel : Nat}
    (hexec : SoundAt buf .exec (parseexec buf fuel)) (hpipe : SoundAt buf .pipe (parsepipe buf fuel)) :
    SoundAt buf .pipe (parsepipe buf (fuel + 1)) := by
  intro p c p' h
  rw [parsepipe] at h
  obtain ⟨⟨c₁, p₁⟩, h₁, h⟩ := (Except.bind_eq_ok _ _ _).mp h
  obtain ⟨⟨ts₁, hts₁, hd₁⟩, hsp₁, hle₁⟩ := hexec p c₁ p₁ h₁
  dsimp only at h
  generalize hpk : peek buf p₁ ['|'] = pk at h
  obtain ⟨bar, p₂⟩ := pk
  obtain ⟨hbar, htoks₂, hle₂⟩ := peek_spec hs rfl hpk
  dsimp only at h
  split at h
  · -- `|` and the pipeline after it
    next hb =>
    obtain ⟨T, hT⟩ := nextIn_bar.mp (hbar ▸ hb)
    obtain ⟨htoks₃, hle₃⟩ := toks_gettoken hs (htoks₂.trans hT)
    obtain ⟨⟨c₃, p₃⟩, h₃, h⟩ := (Except.bind_eq_ok _ _ _).mp h
    cases (Except.pure_eq_ok _ _).mp h
    obtain ⟨⟨ts₃, hts₃, hd₃⟩, hsp₃, hle₄⟩ := hpipe _ c₃ _ h₃
    refine ⟨⟨ts₁ ++ .bar :: ts₃, ?_, .bar hd₁ hd₃⟩, ?_, fun _ => hle₄ hle₃⟩
    · rw [hts₁, hT, ← htoks₃, hts₃]
      simp only [List.append_assoc, List.cons_append]
    · rw [Cmd.words]
      exact List.forall_mem_append.mpr ⟨hsp₁, hsp₃⟩
  · cases h
    exact ⟨⟨ts₁, by rw [hts₁, htoks₂], .pipe hd₁⟩, hsp₁, fun hp => hle₂ (hle₁ hp)⟩

theorem parseblock_sound (hs : '\x00' ∉ buf) {fuel : Nat}
    (hline : SoundAt buf .line (parseline buf fuel)) :
    SoundAt buf .exec (parseblock buf (fuel + 1)) := by
  intro p c p' h
  rw [parseblock] at h
  split at h
  next lp p₁ hpk =>
  obtain ⟨hlp, htoks₁, hle₁⟩ := peek_spec hs rfl hpk
  split at h
  · cases h
  · -- `(`, the line, `)` and the redirections after it
    next hl =>
    have hl' : lp = true := by simpa using hl
    obtain ⟨T, hT⟩ := nextIn_lparen.mp (hlp ▸ hl')
    obtain ⟨htoks₂, hle₂⟩ := toks_gettoken hs (htoks₁.trans hT)
    obtain ⟨⟨c₁, p₃⟩, h₁, h⟩ := (Except.bind_eq_ok _ _ _).mp h
    obtain ⟨⟨ts₁, hts₁, hd₁⟩, hsp₁, hle₃⟩ := hline _ c₁ p₃ h₁
    dsimp only at h
    generalize hpk' : peek buf p₃ [')'] = pk at h
    obtain ⟨rp, p₄⟩ := pk
    obtain ⟨hrp, htoks₄, hle₄⟩ := peek_spec hs rfl hpk'
    dsimp only at h
    split at h
    · cases h
    · next hr =>
      have hr' : rp = true := by simpa using hr
      obtain ⟨T', hT'⟩ := nextIn_rparen.mp (hrp ▸ hr')
      obtain ⟨htoks₅, hle₅⟩ := toks_gettoken hs (htoks₄.trans hT')
      obtain ⟨⟨rs, p₅⟩, h₂, h⟩ := (Except.bind_eq_ok _ _ _).mp h
      cases (Except.pure_eq_ok _ _).mp h
      obtain ⟨L, hL, hrel, hle₆⟩ := parseredirs_sound hs h₂
      refine ⟨⟨.lparen :: ts₁ ++ .rparen :: L.flatMap Redir.toks, ?_, ?_⟩, ?_, fun _ => hle₆ hle₅⟩
      · rw [hT, ← htoks₂, hts₁, hT', ← htoks₅, hL]
        simp only [List.append_assoc, List.cons_append]
      · rw [Cmd.map_redirs, map_redir_of_forall₂ hrel]
        exact .block L hd₁
      · rw [Cmd.words_redirs]
        exact List.forall_mem_append.mpr ⟨hsp₁, span_of_forall₂_redir hrel⟩

theorem Parsed.skip {nt : NT} {p p₁ p' : Nat} {c : Cmd (Nat × Nat)} (h : Parsed buf nt p₁ c p')
    (ht : toks buf p₁ = toks buf p) (hle : p ≤ buf.length → p₁ ≤ buf.length) :
    Parsed buf nt p c p' where
  derives := by
    obtain ⟨ts, hts, hd⟩ := h.derives
    exact ⟨ts, ht ▸ hts, hd⟩
  spans := h.spans
  le hp := h.le (hle hp)

theorem parseexec_sound (hs : '\x00' ∉ buf) {fuel : Nat}
    (hblock : SoundAt buf .exec (parseblock buf fuel)) :
    SoundAt buf .exec (parseexec buf (fuel + 1)) := by
  intro p c p' h
  rw [parseexec] at h
  split at h
  next lp p₁ hpk =>
  obtain ⟨-, htoks₁, hle₁⟩ := peek_spec hs rfl hpk
  split at h
  · exact (hblock p₁ c p' h).skip htoks₁ hle₁
  · -- a simple command: its leading redirections, then the word loop
    obtain ⟨⟨rs₀, p₂⟩, h₁, h⟩ := (Except.bind_eq_ok _ _ _).mp h
    obtain ⟨L, hL, hrel, hle₂⟩ := parseredirs_sound hs h₁
    obtain ⟨⟨argv, rs, p₃⟩, h₂, h⟩ := (Except.bind_eq_ok _ _ _).mp h
    cases (Except.pure_eq_ok _ _).mp h
    obtain ⟨gs, ws, rs₁, rfl, rfl, hread, hmax, hle₃⟩ := parseexecLoop_sound hs h₂
    have hrel' := List.rel_append hrel hread.redirs
    refine ⟨⟨L.flatMap Redir.toks ++ groupToks gs, ?_, ?_⟩, ?_, fun hp => hle₃ (hle₂ (hle₁ hp))⟩
    · rw [← htoks₁, hL, hread.read, List.append_assoc]
    · have hlen : gs.length < MAXARGS := by
        have := hread.words.length_eq
        rw [List.length_map] at this
        rw [← this]
        exact hmax (by decide)
      rw [Cmd.map_redirs, map_redir_of_forall₂ hrel', Cmd.map, map_slice_of_forall₂ hread.words]
      exact .simple L gs hlen
    · rw [Cmd.words_redirs, Cmd.words]
      exact List.forall_mem_append.mpr ⟨span_of_forall₂ hread.words, span_of_forall₂_redir hrel'⟩

/-- Every tree the parse functions return, whatever their fuel, is `Parsed`. -/
theorem parse_sound (hs : '\x00' ∉ buf) (fuel : Nat) :
    SoundAt buf .line (parseline buf fuel) ∧ SoundAt buf .pipe (parsepipe buf fuel) ∧
      SoundAt buf .exec (parseexec buf fuel) ∧ SoundAt buf .exec (parseblock buf fuel) := by
  induction fuel with
  | zero => exact ⟨nofun, nofun, nofun, nofun⟩
  | succ fuel ih =>
    obtain ⟨hline, hpipe, hexec, hblock⟩ := ih
    exact ⟨parseline_sound hs hpipe hline, parsepipe_sound hs hexec hpipe,
      parseexec_sound hs hblock, parseblock_sound hs hline⟩

end Sound

/-! ### Completeness

The parser in the direction soundness does not go: from a derivation, followed by tokens that
may follow its nonterminal, with enough fuel, each function builds the tree of the derivation.
-/

section Complete

variable {buf : List Char}

theorem peek_eq (hs : '\x00' ∉ buf) {tks : List Char} (htks : tks.all symbols.contains = true)
    (p : Nat) :
    peek buf p tks = (nextIn tks (toks buf p), skipWs buf p) := by
  rw [← peek_fst hs htks]
  rfl

theorem length_toks_le (buf : List Char) (p : Nat) : (toks buf p).length ≤ buf.length := by
  have := length_tokenize_le (buf.drop p)
  rw [List.length_drop] at this
  rw [toks]
  omega

theorem length_le_flatMap_toks (L : List Redir) : L.length ≤ (L.flatMap Redir.toks).length := by
  induction L with
  | nil => exact Nat.le_refl 0
  | cons r L ih =>
    rw [List.flatMap_cons, List.length_append, List.length_cons]
    have : (Redir.toks r).length = 2 := rfl
    omega

/-- What is counted in the tokens left at a position is fewer than the passes a loop of the
parser is given. -/
theorem lt_passes_of_toks {p n : Nat} {X T : List Tok} (h : toks buf p = X ++ T)
    (hn : n ≤ X.length) : n < buf.length + 1 := by
  have := length_toks_le buf p
  rw [h, List.length_append] at this
  omega

theorem length_le_groupToks (gs : List (List Char × List Redir)) :
    gs.length ≤ (groupToks gs).length := by
  induction gs with
  | nil => exact Nat.le_refl 0
  | cons g gs ih =>
    rw [groupToks_cons, List.cons_append, List.length_cons, List.length_cons, List.length_append]
    omega

/-- The symbols that may follow a derivation of each nonterminal in one of a whole line. -/
def followSet : NT → List Char
  | .line => [')']
  | .pipe => [')', '&', ';']
  | .exec => ['|', ')', '&', ';']

/-- The tokens after a derivation of `nt`: none, or one that may follow `nt`. -/
def Follow (nt : NT) (T : List Tok) : Prop := T = [] ∨ nextIn (followSet nt) T = true

theorem nextIn_mono {tks tks' : List Char} (hsub : ∀ c ∈ tks, c ∈ tks') {T : List Tok}
    (h : nextIn tks T = true) : nextIn tks' T = true := by
  cases T with
  | nil => cases h
  | cons t T =>
    simp only [nextIn] at h ⊢
    cases hl : t.lead with
    | none => rw [hl] at h; cases h
    | some c =>
      rw [hl] at h
      simp only [Option.any_some, decide_eq_true_eq] at h ⊢
      exact hsub c h

/-- A token seen as one of `tks` is not one of the symbols `tks'` that share none with them. -/
theorem nextIn_eq_false_of_disjoint {tks tks' : List Char} (hd : ∀ c ∈ tks, c ∉ tks')
    {T : List Tok} (h : nextIn tks T = true) : nextIn tks' T = false := by
  cases T with
  | nil => rfl
  | cons t T =>
    simp only [nextIn] at h ⊢
    cases hl : t.lead with
    | none => rfl
    | some c =>
      rw [hl] at h
      simp only [Option.any_some, decide_eq_true_eq] at h
      simpa using hd c h

theorem Follow.mono {nt nt' : NT} (hsub : (followSet nt).all (followSet nt').contains = true)
    {T : List Tok} (h : Follow nt T) : Follow nt' T :=
  h.imp id (nextIn_mono fun _ hc => mem_of_all_contains hsub hc)

/-- After a derivation of `nt`, `peek` finds none of the symbols that may not follow it. -/
theorem Follow.not_next {nt : NT} {tks : List Char}
    (hd : (followSet nt).all (fun c => !tks.contains c) = true)
    {T : List Tok} (h : Follow nt T) : nextIn tks T = false := by
  rcases h with rfl | h
  · rfl
  · exact nextIn_eq_false_of_disjoint (fun _ hc => not_mem_of_all_not_contains hd hc) h

/-- The words of a simple command, then what follows it: `peek` finds none of the symbols that
may not follow a command. -/
theorem nextIn_groupToks {tks : List Char}
    (hd : (followSet .exec).all (fun c => !tks.contains c) = true)
    {T : List Tok} (hT : Follow .exec T) (gs : List (List Char × List Redir)) :
    nextIn tks (groupToks gs ++ T) = false := by
  cases gs with
  | nil => exact hT.not_next hd
  | cons g gs =>
    rw [groupToks_cons]
    rfl

theorem parseredirs_complete (hs : '\x00' ∉ buf) {T : List Tok} (hT : nextIn ['<', '>'] T = false)
    {L : List Redir} :
    ∀ {k p : Nat}, toks buf p = L.flatMap Redir.toks ++ T → L.length < k → p ≤ buf.length →
      ∃ rs p', parseredirs buf k p = .ok (rs, p') ∧ List.Forall₂ (RedirAt buf) rs L ∧
        toks buf p' = T ∧ p' ≤ buf.length := by
  induction L with
  | nil =>
    intro k p hp hk hle
    obtain ⟨k, rfl⟩ : ∃ k', k = k' + 1 := ⟨k - 1, by omega⟩
    rw [List.flatMap_nil, List.nil_append] at hp
    refine ⟨[], skipWs buf p, ?_, .nil, (toks_skipWs hs p).trans hp, skipWs_le hs hle⟩
    rw [parseredirs, peek_eq hs rfl, hp, hT]
    rfl
  | cons r L ih =>
    intro k p hp hk hle
    obtain ⟨k, rfl⟩ : ∃ k', k = k' + 1 := ⟨k - 1, by omega⟩
    obtain ⟨op, w⟩ := r
    have hp₁ : toks buf (skipWs buf p) = op.tok :: .word w :: (L.flatMap Redir.toks ++ T) := by
      rw [toks_skipWs hs, hp]
      rfl
    rcases hg₁ : gettoken buf (skipWs buf p) with ⟨tok, q₀, e₀, p₂⟩
    obtain ⟨htok, htoks₂, -, -⟩ := gettoken_cons hs hg₁ hp₁
    rcases hg₂ : gettoken buf p₂ with ⟨t, q, eq, p₃⟩
    obtain ⟨ht, htoks₃, hle₃, hword⟩ := gettoken_cons hs hg₂ htoks₂
    obtain ⟨rs, p', hrec, hrel, hT', hle'⟩ := ih htoks₃ (by simpa using hk) hle₃
    refine ⟨((q, eq), op.mode) :: rs, p', ?_, .cons ⟨hword w rfl, rfl⟩ hrel, hT', hle'⟩
    have hmore : nextIn ['<', '>'] (toks buf p) = true := nextIn_redir.mpr ⟨op, _, hp⟩
    rw [parseredirs, peek_eq hs rfl, hmore]
    simp only [if_true, hg₁, hg₂, ht, htok, redirMode_code]
    rw [if_neg (by rw [Tok.code]; exact not_not.mpr rfl), hrec]
    rfl

theorem parseexecLoop_complete (hs : '\x00' ∉ buf) {T : List Tok} (hT : Follow .exec T)
    {gs : List (List Char × List Redir)} :
    ∀ {k p : Nat} (argv : List (Nat × Nat)) (rs : List ((Nat × Nat) × Nat × Nat)),
      toks buf p = groupToks gs ++ T → gs.length < k → argv.length + gs.length < MAXARGS →
      p ≤ buf.length →
      ∃ ws rs₁ p', parseexecLoop buf k p argv rs = .ok (argv ++ ws, rs ++ rs₁, p') ∧
        List.Forall₂ (WordAt buf) ws (gs.map Prod.fst) ∧
        List.Forall₂ (RedirAt buf) rs₁ (gs.flatMap Prod.snd) ∧ toks buf p' = T ∧
        p' ≤ buf.length := by
  induction gs with
  | nil =>
    intro k p argv rs hp hk _ hle
    obtain ⟨k, rfl⟩ : ∃ k', k = k' + 1 := ⟨k - 1, by omega⟩
    rw [groupToks, List.flatMap_nil, List.nil_append] at hp
    rcases hT with rfl | hstop
    · -- the end of the line
      rcases hg : gettoken buf (skipWs buf p) with ⟨tok, q, eq, p₂⟩
      obtain ⟨htok, htoks₂, hle₂⟩ := gettoken_nil hs hg ((toks_skipWs hs p).trans hp)
      refine ⟨[], [], p₂, ?_, .nil, .nil, htoks₂, hle₂ (skipWs_le hs hle)⟩
      rw [parseexecLoop, peek_eq hs rfl, hp]
      simp only [nextIn, Bool.false_eq_true, if_false, hg, htok, if_true, List.append_nil]
    · refine ⟨[], [], skipWs buf p, ?_, .nil, .nil, (toks_skipWs hs p).trans hp,
        skipWs_le hs hle⟩
      rw [parseexecLoop, peek_eq hs rfl, hp,
        show nextIn ['|', ')', '&', ';'] T = true from hstop]
      simp only [if_true, List.append_nil]
  | cons g gs ih =>
    intro k p argv rs hp hk hmax hle
    obtain ⟨k, rfl⟩ : ∃ k', k = k' + 1 := ⟨k - 1, by omega⟩
    obtain ⟨w, L⟩ := g
    simp only [groupToks_cons, List.cons_append, List.append_assoc] at hp
    -- the word
    rcases hg : gettoken buf (skipWs buf p) with ⟨tok, q, eq, p₂⟩
    obtain ⟨htok, htoks₂, hle₂, hword⟩ := gettoken_cons hs hg ((toks_skipWs hs p).trans hp)
    -- the redirections after it: the next token is a word or one of those that end the command
    have hT' : nextIn ['<', '>'] (groupToks gs ++ T) = false := nextIn_groupToks rfl hT gs
    obtain ⟨rs₀, p₃, hred, hrel, htoks₃, hle₃⟩ := parseredirs_complete hs hT' htoks₂
      (lt_passes_of_toks htoks₂ (length_le_flatMap_toks L)) hle₂
    obtain ⟨ws, rs₁, p', hrec, hws, hrs, hT'', hle'⟩ :=
      ih (argv ++ [(q, eq)]) (rs ++ rs₀) htoks₃ (by simpa using hk)
        (by simp at hmax ⊢; omega) hle₃
    refine ⟨(q, eq) :: ws, rs₀ ++ rs₁, p', ?_, .cons (hword w rfl) hws,
      List.rel_append hrel hrs, hT'', hle'⟩
    have hmax' : ¬MAXARGS ≤ argv.length + 1 := by
      simp at hmax
      omega
    rw [parseexecLoop, peek_eq hs rfl, hp]
    simp only [nextIn, Tok.lead, Option.any_none, Bool.false_eq_true, if_false, hg, htok,
      Tok.code, if_neg hmax']
    rw [if_neg (by decide), if_neg (by decide), hred, Except.ok_bind]
    simp only [hrec, List.append_assoc, List.singleton_append]

theorem backLoop_complete (hs : '\x00' ∉ buf) {T : List Tok} (hT : nextIn ['&'] T = false)
    {n : Nat} :
    ∀ {k p : Nat} {c : Cmd (Nat × Nat)}, toks buf p = List.replicate n .amp ++ T → n < k →
      p ≤ buf.length →
      ∃ p', backLoop buf k c p = .ok (c.backs n, p') ∧ toks buf p' = T ∧ p' ≤ buf.length := by
  induction n with
  | zero =>
    intro k p c hp hk hle
    obtain ⟨k, rfl⟩ : ∃ k', k = k' + 1 := ⟨k - 1, by omega⟩
    rw [List.replicate_zero, List.nil_append] at hp
    refine ⟨skipWs buf p, ?_, (toks_skipWs hs p).trans hp, skipWs_le hs hle⟩
    rw [backLoop, peek_eq hs rfl, hp, hT]
    rfl
  | succ n ih =>
    intro k p c hp hk hle
    obtain ⟨k, rfl⟩ : ∃ k', k = k' + 1 := ⟨k - 1, by omega⟩
    rw [List.replicate_succ, List.cons_append] at hp
    obtain ⟨htoks₂, hle₂⟩ := toks_gettoken hs ((toks_skipWs hs p).trans hp)
    obtain ⟨p', hrec, hT', hle'⟩ := ih (k := k) (c := .back c) htoks₂ (by omega) hle₂
    refine ⟨p', ?_, hT', hle'⟩
    rw [backLoop, peek_eq hs rfl, hp, nextIn_amp.mpr ⟨_, rfl⟩]
    dsimp only
    rw [if_pos rfl, ← Cmd.back_backs]
    exact hrec

/-- The fuel that parsing `nt` needs with `n` tokens left: each of the four functions passes
one less to the next, and a `(` is read before `parseblock` calls `parseline` again. -/
def fuelFor : NT → Nat → Nat
  | .line, n => 4 * n + 4
  | .pipe, n => 4 * n + 3
  | .exec, n => 4 * n + 2

/-- The parse function of `nt` builds `a` from the tokens `ts`, when the tokens after them may
follow `nt` and the fuel is enough. -/
def CompleteAt (buf : List Char) (nt : NT)
    (parse : Nat → Nat → Except String (Cmd (Nat × Nat) × Nat)) (ts : List Tok)
    (a : Cmd (List Char)) : Prop :=
  ∀ {p : Nat} {T : List Tok} (fuel : Nat), toks buf p = ts ++ T → Follow nt T → p ≤ buf.length →
    fuelFor nt (ts ++ T).length ≤ fuel →
    ∃ c p', parse fuel p = .ok (c, p') ∧ c.map (slice buf) = a ∧ toks buf p' = T ∧
      p' ≤ buf.length

theorem complete_pipe (hs : '\x00' ∉ buf) {ts : List Tok} {c : Cmd (List Char)}
    (he : CompleteAt buf .exec (parseexec buf) ts c) : CompleteAt buf .pipe (parsepipe buf) ts c := by
  intro p T fuel hp hT hle hfuel
  obtain ⟨f, rfl⟩ : ∃ f, fuel = f + 1 := ⟨fuel - 1, by simp only [fuelFor] at hfuel; omega⟩
  obtain ⟨c₁, p₁, h₁, hc₁, hT₁, hle₁⟩ :=
    he f hp (hT.mono rfl) hle (by simp only [fuelFor] at hfuel ⊢; omega)
  refine ⟨c₁, skipWs buf p₁, ?_, hc₁, (toks_skipWs hs p₁).trans hT₁, skipWs_le hs hle₁⟩
  rw [parsepipe, h₁, Except.ok_bind]
  dsimp only
  rw [peek_eq hs rfl, hT₁, hT.not_next rfl]
  rfl

theorem complete_bar (hs : '\x00' ∉ buf) {ts ts' : List Tok} {c c' : Cmd (List Char)}
    (he : CompleteAt buf .exec (parseexec buf) ts c)
    (hp : CompleteAt buf .pipe (parsepipe buf) ts' c') :
    CompleteAt buf .pipe (parsepipe buf) (ts ++ .bar :: ts') (.pipe c c') := by
  intro p T fuel hp₀ hT hle hfuel
  simp only [fuelFor, List.length_append, List.length_cons] at hfuel
  obtain ⟨f, rfl⟩ : ∃ f, fuel = f + 1 := ⟨fuel - 1, by omega⟩
  -- the command before `|`
  have hp₀' : toks buf p = ts ++ (.bar :: (ts' ++ T)) := by
    rw [hp₀]
    simp only [List.append_assoc, List.cons_append]
  obtain ⟨c₁, p₁, h₁, hc₁, hT₁, hle₁⟩ :=
    he f hp₀' (.inr rfl) hle (by simp only [fuelFor, List.length_append, List.length_cons]; omega)
  -- `|`, then the pipeline after it
  obtain ⟨htoks₂, hle₂⟩ := toks_gettoken hs ((toks_skipWs hs p₁).trans hT₁)
  obtain ⟨c₂, p₂, h₂, hc₂, hT₂, hle₂'⟩ :=
    hp f htoks₂ hT hle₂ (by simp only [fuelFor, List.length_append]; omega)
  refine ⟨.pipe c₁ c₂, p₂, ?_, by rw [Cmd.map, hc₁, hc₂], hT₂, hle₂'⟩
  rw [parsepipe, h₁, Except.ok_bind]
  dsimp only
  rw [peek_eq hs rfl, hT₁, nextIn_bar.mpr ⟨_, rfl⟩]
  dsimp only
  rw [if_pos rfl, h₂]
  rfl

theorem complete_line (hs : '\x00' ∉ buf) {ts : List Tok} {c : Cmd (List Char)} (n : Nat)
    (hp : CompleteAt buf .pipe (parsepipe buf) ts c) :
    CompleteAt buf .line (parseline buf) (ts ++ List.replicate n .amp) (c.backs n) := by
  intro p T fuel hp₀ hT hle hfuel
  simp only [fuelFor, List.length_append, List.length_replicate] at hfuel
  obtain ⟨f, rfl⟩ : ∃ f, fuel = f + 1 := ⟨fuel - 1, by omega⟩
  -- the pipeline: what follows it is a `&`, or what follows the line
  have hT' : Follow .pipe (List.replicate n .amp ++ T) := by
    cases n with
    | zero => exact hT.mono rfl
    | succ n => exact .inr rfl
  obtain ⟨c₁, p₁, h₁, hc₁, hT₁, hle₁⟩ :=
    hp f (by rw [hp₀, List.append_assoc]) hT' hle
      (by simp only [fuelFor, List.length_append, List.length_replicate]; omega)
  -- the `&`s
  have hn := lt_passes_of_toks hT₁ (List.length_replicate (n := n) (a := Tok.amp)).ge
  obtain ⟨p₂, h₂, hT₂, hle₂⟩ := backLoop_complete hs (hT.not_next rfl) (c := c₁) hT₁ hn hle₁
  refine ⟨c₁.backs n, skipWs buf p₂, ?_, by rw [Cmd.map_backs, hc₁],
    (toks_skipWs hs p₂).trans hT₂, skipWs_le hs hle₂⟩
  rw [parseline, h₁, Except.ok_bind]
  dsimp only
  rw [h₂, Except.ok_bind]
  dsimp only
  rw [peek_eq hs rfl, hT₂, hT.not_next rfl]
  rfl

theorem complete_list (hs : '\x00' ∉ buf) {ts ts' : List Tok} {c c' : Cmd (List Char)} (n : Nat)
    (hp : CompleteAt buf .pipe (parsepipe buf) ts c)
    (hl : CompleteAt buf .line (parseline buf) ts' c') :
    CompleteAt buf .line (parseline buf) (ts ++ List.replicate n .amp ++ .semi :: ts')
      (.list (c.backs n) c') := by
  intro p T fuel hp₀ hT hle hfuel
  simp only [fuelFor, List.length_append, List.length_replicate, List.length_cons] at hfuel
  obtain ⟨f, rfl⟩ : ∃ f, fuel = f + 1 := ⟨fuel - 1, by omega⟩
  -- the pipeline: what follows it is a `&` or the `;`
  have hT' : Follow .pipe (List.replicate n .amp ++ .semi :: (ts' ++ T)) := by
    cases n with
    | zero => exact .inr rfl
    | succ n => exact .inr rfl
  obtain ⟨c₁, p₁, h₁, hc₁, hT₁, hle₁⟩ :=
    hp f (by rw [hp₀]; simp only [List.append_assoc, List.cons_append]) hT' hle
      (by simp only [fuelFor, List.length_append, List.length_replicate, List.length_cons]; omega)
  -- the `&`s, then `;` and the line after it
  have hn := lt_passes_of_toks hT₁ (List.length_replicate (n := n) (a := Tok.amp)).ge
  obtain ⟨p₂, h₂, hT₂, hle₂⟩ := backLoop_complete hs rfl (c := c₁) hT₁ hn hle₁
  obtain ⟨htoks₃, hle₃⟩ := toks_gettoken hs ((toks_skipWs hs p₂).trans hT₂)
  obtain ⟨c₂, p₃, h₃, hc₂, hT₃, hle₃'⟩ :=
    hl f htoks₃ hT hle₃ (by simp only [fuelFor, List.length_append]; omega)
  refine ⟨.list (c₁.backs n) c₂, p₃, ?_, by rw [Cmd.map, Cmd.map_backs, hc₁, hc₂], hT₃, hle₃'⟩
  rw [parseline, h₁, Except.ok_bind]
  dsimp only
  rw [h₂, Except.ok_bind]
  dsimp only
  rw [peek_eq hs rfl, hT₂, nextIn_semi.mpr ⟨_, rfl⟩]
  dsimp only
  rw [if_pos rfl, h₃]
  rfl

theorem complete_block (hs : '\x00' ∉ buf) {ts : List Tok} {c : Cmd (List Char)}
    (rs : List Redir) (hl : CompleteAt buf .line (parseline buf) ts c) :
    CompleteAt buf .exec (parseexec buf) (.lparen :: ts ++ .rparen :: rs.flatMap Redir.toks)
      (c.withRedirs rs) := by
  intro p T fuel hp₀ hT hle hfuel
  simp only [fuelFor, List.length_append, List.length_cons] at hfuel
  obtain ⟨f, rfl⟩ : ∃ f, fuel = f + 2 := ⟨fuel - 2, by omega⟩
  have hp₀' : toks buf p = .lparen :: (ts ++ .rparen :: (rs.flatMap Redir.toks ++ T)) := by
    rw [hp₀]
    simp only [List.cons_append, List.append_assoc]
  have hp₁ := (toks_skipWs hs p).trans hp₀'
  -- `(` and the line
  obtain ⟨htoks₂, hle₂⟩ := toks_gettoken hs ((toks_skipWs hs _).trans hp₁)
  obtain ⟨c₁, p₃, h₁, hc₁, hT₁, hle₃⟩ :=
    hl f htoks₂ (.inr rfl) hle₂ (by simp only [fuelFor, List.length_append, List.length_cons]; omega)
  -- `)` and the redirections
  obtain ⟨htoks₄, hle₄⟩ := toks_gettoken hs ((toks_skipWs hs p₃).trans hT₁)
  obtain ⟨rs₀, p₅, h₂, hrel, hT₂, hle₅⟩ := parseredirs_complete hs (hT.not_next rfl)
    htoks₄ (lt_passes_of_toks htoks₄ (length_le_flatMap_toks rs)) hle₄
  refine ⟨c₁.redirs rs₀, p₅, ?_, ?_, hT₂, hle₅⟩
  · rw [parseexec, peek_eq hs rfl, hp₀', nextIn_lparen.mpr ⟨_, rfl⟩]
    dsimp only
    rw [if_pos rfl, parseblock, peek_eq hs rfl, hp₁, nextIn_lparen.mpr ⟨_, rfl⟩]
    dsimp only
    rw [if_neg (by decide), h₁, Except.ok_bind]
    dsimp only
    rw [peek_eq hs rfl, hT₁, nextIn_rparen.mpr ⟨_, rfl⟩]
    dsimp only
    rw [if_neg (by decide), h₂]
    rfl
  · rw [Cmd.map_redirs, map_redir_of_forall₂ hrel, hc₁]
    rfl

theorem complete_simple (hs : '\x00' ∉ buf) (rs : List Redir)
    (gs : List (List Char × List Redir)) (hg : gs.length < MAXARGS) :
    CompleteAt buf .exec (parseexec buf) (rs.flatMap Redir.toks ++ groupToks gs)
      ((Cmd.exec (gs.map Prod.fst)).withRedirs (rs ++ gs.flatMap Prod.snd)) := by
  intro p T fuel hp₀ hT hle hfuel
  obtain ⟨f, rfl⟩ : ∃ f, fuel = f + 1 := ⟨fuel - 1, by simp only [fuelFor] at hfuel; omega⟩
  rw [List.append_assoc] at hp₀
  -- not a block: the command starts with a redirection, a word, or what follows it
  have hlp : nextIn ['('] (toks buf p) = false := by
    rw [hp₀]
    cases rs with
    | nil => exact nextIn_groupToks rfl hT gs
    | cons r rs =>
      obtain ⟨op, w⟩ := r
      cases op <;> rfl
  -- the redirections before the first word, then the word loop
  obtain ⟨rs₀, p₂, h₁, hrel, hT₁, hle₂⟩ :=
    parseredirs_complete hs (nextIn_groupToks rfl hT gs) ((toks_skipWs hs p).trans hp₀)
      (lt_passes_of_toks hp₀ (length_le_flatMap_toks rs)) (skipWs_le hs hle)
  obtain ⟨ws, rs₁, p', h₂, hws, hrs, hT₂, hle'⟩ := parseexecLoop_complete hs hT [] rs₀ hT₁
    (lt_passes_of_toks hT₁ (length_le_groupToks gs)) (by simpa using hg) hle₂
  refine ⟨(Cmd.exec ([] ++ ws)).redirs (rs₀ ++ rs₁), p', ?_, ?_, hT₂, hle'⟩
  · rw [parseexec, peek_eq hs rfl, hlp]
    dsimp only
    rw [if_neg (by decide), h₁, Except.ok_bind]
    dsimp only
    rw [h₂, Except.ok_bind]
    rfl
  · rw [Cmd.map_redirs, map_redir_of_forall₂ (List.rel_append hrel hrs), Cmd.map, List.nil_append,
      map_slice_of_forall₂ hws]
    rfl

/-- The parse function of a nonterminal. -/
def parseNT (buf : List Char) : NT → Nat → Nat → Except String (Cmd (Nat × Nat) × Nat)
  | .line => parseline buf
  | .pipe => parsepipe buf
  | .exec => parseexec buf

/-- From every derivation, the parse function of its nonterminal builds its tree. -/
theorem parse_complete (hs : '\x00' ∉ buf) {nt : NT} {ts : List Tok} {a : Cmd (List Char)}
    (hd : Derives nt ts a) : CompleteAt buf nt (parseNT buf nt) ts a := by
  induction hd with
  | line n _ ih => exact complete_line hs n ih
  | list n _ _ ih₁ ih₂ => exact complete_list hs n ih₁ ih₂
  | pipe _ ih => exact complete_pipe hs ih
  | bar _ _ ih₁ ih₂ => exact complete_bar hs ih₁ ih₂
  | block rs _ ih => exact complete_block hs rs ih
  | simple rs gs h => exact complete_simple hs rs gs h

end Complete

/-! ### `nulterminate` -/

/-- The string at position `q` of a line: its characters up to the first NUL, or to the end. -/
def cstring (s : List Char) (q : Nat) : List Char := (s.drop q).takeWhile (· != '\x00')

section Nul

variable {buf : List Char}

/-- `nulterminate` writes a NUL at the end of every word of the tree. -/
theorem nulterminate_eq (c : Cmd (Nat × Nat)) (buf : List Char) :
    nulterminate c buf = (c.words.map Prod.snd).foldl (fun b e => b.set e '\x00') buf := by
  induction c generalizing buf with
  | exec argv => rw [nulterminate, Cmd.words, List.foldl_map]
  | redir cmd file mode fd ih =>
    rw [nulterminate, ih, Cmd.words, List.map_append, List.foldl_append]
    rfl
  | pipe left right ihl ihr =>
    rw [nulterminate, ihl, ihr, Cmd.words, List.map_append, List.foldl_append]
  | list left right ihl ihr =>
    rw [nulterminate, ihl, ihr, Cmd.words, List.map_append, List.foldl_append]
  | back cmd ih => rw [nulterminate, ih, Cmd.words]

/-- A NUL written at `e` reads back there, also past the end where `*s` reads the NUL after the
line. -/
theorem charAt_set_nul (b : List Char) (e i : Nat) :
    charAt (b.set e '\x00') i = if i = e then '\x00' else charAt b i := by
  simp only [charAt, List.getD_eq_getElem?_getD, List.getElem?_set]
  by_cases hi : i = e
  · subst hi
    split_ifs <;> rfl
  · rw [if_neg (Ne.symm hi), if_neg hi]

theorem charAt_setNuls (es : List Nat) (b : List Char) (i : Nat) :
    charAt (es.foldl (fun b e => b.set e '\x00') b) i = if i ∈ es then '\x00' else charAt b i := by
  induction es generalizing b with
  | nil => rfl
  | cons e es ih =>
    rw [List.foldl_cons, ih, charAt_set_nul]
    by_cases h : i ∈ es
    · rw [if_pos h, if_pos (List.mem_cons_of_mem e h)]
    · rw [if_neg h]
      by_cases he : i = e
      · rw [if_pos he, if_pos (he ▸ List.mem_cons_self)]
      · rw [if_neg he, if_neg (by simp [he, h])]

theorem slice_cons {q e : Nat} (hq : q < e) (he : e ≤ buf.length) :
    slice buf (q, e) = charAt buf q :: slice buf (q + 1, e) := by
  simp only [slice]
  rw [drop_eq_cons_charAt (by omega), show e - q = e - (q + 1) + 1 by omega, List.take_succ_cons]

/-- The string at `q` of a line `s` that agrees with `buf` on `[q, e)`, where `buf` has no NUL,
and has a NUL at `e`, is `buf`'s characters in `[q, e)`. -/
theorem cstring_eq_slice {s : List Char} {q e : Nat} (hqe : q ≤ e) (he : e ≤ buf.length)
    (hin : ∀ i, q ≤ i → i < e → charAt s i = charAt buf i ∧ charAt buf i ≠ '\x00')
    (hend : charAt s e = '\x00') : cstring s q = slice buf (q, e) := by
  induction hn : e - q generalizing q with
  | zero =>
    obtain rfl : q = e := by omega
    rw [slice, Nat.sub_self, List.take_zero, cstring]
    rw [charAt_eq_head?] at hend
    cases hd : s.drop q with
    | nil => rfl
    | cons c r =>
      rw [hd] at hend
      simp only [List.head?_cons, Option.getD_some] at hend
      simp [hend]
  | succ n ih =>
    obtain ⟨hs, h0⟩ := hin q (Nat.le_refl q) (by omega)
    have hq : q < s.length := by
      by_contra hq
      exact h0 (hs ▸ charAt_of_le (Nat.le_of_not_lt hq))
    rw [slice_cons (by omega : q < e) he, cstring, drop_eq_cons_charAt hq,
      List.takeWhile_cons_of_pos (by simpa using hs ▸ h0), ← cstring,
      ih (by omega) (fun i h₁ h₂ => hin i (by omega) h₂) (by omega), hs]

/-- After `nulterminate`, the string at the start of every word of the tree is the word. -/
theorem cstring_nulterminate (hs : '\x00' ∉ buf) {c : Cmd (Nat × Nat)}
    (hsp : ∀ w ∈ c.words, Span buf w) {w : Nat × Nat} (hw : w ∈ c.words) :
    cstring (nulterminate c buf) w.1 = slice buf w := by
  have hspan := hsp w hw
  rw [nulterminate_eq]
  refine cstring_eq_slice hspan.lt.le hspan.le (fun i h₁ h₂ => ?_) ?_
  · -- no word ends inside another: a word ends at a character that is no word character
    have hi : i ∉ c.words.map Prod.snd := by
      intro hi
      obtain ⟨w', hw', rfl⟩ := List.mem_map.mp hi
      have hspan' := hsp w' hw'
      by_cases hlt : w'.2 < buf.length
      · have := hspan.word w'.2 h₁ h₂
        rw [hspan'.stop hlt] at this
        cases this
      · have := hspan.le
        omega
    rw [charAt_setNuls, if_neg hi]
    exact ⟨rfl, ne_of_mem_of_not_mem (charAt_mem (by have := hspan.le; omega)) hs⟩
  · rw [charAt_setNuls, if_pos (List.mem_map_of_mem hw)]

end Nul

end Xv6.Sh
