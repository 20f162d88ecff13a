import Xv6.User.ShGrammar

/-!
The fuel of the parser, and `parsecmd`.

The passes of the loops and the fuel of the parse functions are the model's, not the source's.
No call runs out of either: every pass of a loop reads a token, and every call a parse function
makes reads a token first or passes on one unit of fuel less. So every error `parsecmd` returns
is one of the source's panics, and with `Xv6.User.ShGrammar` it returns exactly on the lines
the grammar derives.
-/

namespace Xv6.Sh

/-! ### The fuel is never what ends a call -/

section Fuel

variable {buf : List Char}

/-- The result of a call that did not run out of fuel or passes. -/
def Fueled {α : Type} (r : Except String α) : Prop := r ≠ .error "sh: fuel"

theorem fueled_ok {α : Type} (a : α) : Fueled (.ok a : Except String α) := nofun

theorem fueled_error {α : Type} {e : String} (h : e ≠ "sh: fuel") :
    Fueled (.error e : Except String α) :=
  fun h' => h (Except.error.inj h')

theorem Fueled.bind {α β : Type} {x : Except String α} {f : α → Except String β} (hx : Fueled x)
    (hf : ∀ a, x = .ok a → Fueled (f a)) : Fueled (x >>= f) := by
  cases x with
  | error e => exact fueled_error fun he => hx (by rw [he])
  | ok a => exact hf a rfl

theorem parseredirs_fueled (hs : '\x00' ∉ buf) {k p : Nat} (hk : (toks buf p).length < k) :
    Fueled (parseredirs buf k p) := by
  induction k generalizing p with
  | zero => omega
  | succ k ih =>
    rw [parseredirs]
    split
    next more p₁ hpk =>
    obtain ⟨hmore, htoks₁, -⟩ := peek_spec hs rfl hpk
    split
    · next hm =>
      obtain ⟨op, T, hT⟩ := nextIn_redir.mp (hmore ▸ hm)
      split
      next tok q₀ e₀ p₂ hg₁ =>
      split
      next t q eq p₃ hg₂ =>
      split
      · exact fueled_error (by decide)
      · next ht =>
        rw [not_not] at ht
        subst ht
        -- the redirection took two tokens
        obtain ⟨-, w, T', rfl, -, htoks₃, -⟩ := gettoken_redir hs (htoks₁.trans hT) hg₁ hg₂
        rw [hT, List.length_cons, List.length_cons] at hk
        refine Fueled.bind (ih (by rw [htoks₃]; omega)) fun r _ => ?_
        obtain ⟨rs, p'⟩ := r
        dsimp only
        split <;> exact fueled_ok _
    · exact fueled_ok _

theorem parseexecLoop_fueled (hs : '\x00' ∉ buf) {k p : Nat} {argv : List (Nat × Nat)}
    {rs : List ((Nat × Nat) × Nat × Nat)} (hk : (toks buf p).length < k) :
    Fueled (parseexecLoop buf k p argv rs) := by
  induction k generalizing p argv rs with
  | zero => omega
  | succ k ih =>
    rw [parseexecLoop]
    split
    next stop p₁ hpk =>
    obtain ⟨-, htoks₁, -⟩ := peek_spec hs rfl hpk
    split
    · exact fueled_ok _
    · split
      next tok q eq p₂ hg =>
      split
      · exact fueled_ok _
      · split
        · exact fueled_error (by decide)
        · split
          · exact fueled_error (by decide)
          · next h0 ha hmax =>
            -- a word, then its redirections: the loop goes on with fewer tokens left
            obtain ⟨t, T, htoks⟩ : ∃ t T, toks buf p₁ = t :: T := by
              cases htoks : toks buf p₁ with
              | nil => exact absurd (gettoken_nil hs hg htoks).1 h0
              | cons t T => exact ⟨t, T, rfl⟩
            obtain ⟨-, htoks₂, -, -⟩ := gettoken_cons hs hg htoks
            rw [← htoks₁, htoks, List.length_cons] at hk
            refine Fueled.bind (parseredirs_fueled hs (Nat.lt_succ_of_le (length_toks_le buf p₂)))
              fun r hred => ?_
            obtain ⟨rs', p₃⟩ := r
            obtain ⟨L, hL, -, -⟩ := parseredirs_sound hs hred
            have : (toks buf p₃).length ≤ T.length := by
              rw [← htoks₂, hL, List.length_append]
              omega
            exact ih (by omega)

theorem backLoop_fueled (hs : '\x00' ∉ buf) {k p : Nat} {c : Cmd (Nat × Nat)}
    (hk : (toks buf p).length < k) : Fueled (backLoop buf k c p) := by
  induction k generalizing p c with
  | zero => omega
  | succ k ih =>
    rw [backLoop]
    split
    next amp p₁ hpk =>
    obtain ⟨hamp, htoks₁, -⟩ := peek_spec hs rfl hpk
    split
    · next ha =>
      obtain ⟨T, hT⟩ := nextIn_amp.mp (hamp ▸ ha)
      obtain ⟨htoks₂, -⟩ := toks_gettoken hs (htoks₁.trans hT)
      rw [hT, List.length_cons] at hk
      exact ih (by rw [htoks₂]; omega)
    · exact fueled_ok _

/-- The parse function `parse` does not run out of fuel `fuel` from a position with `n` tokens
left, when `4 * n + extra ≤ fuel`. -/
def FueledAt (buf : List Char) (extra fuel : Nat)
    (parse : Nat → Except String (Cmd (Nat × Nat) × Nat)) : Prop :=
  ∀ p, 4 * (toks buf p).length + extra ≤ fuel → Fueled (parse p)

/-- What a parse function read: the tokens left after it are no more than before. -/
theorem length_toks_le_of_parsed {nt : NT} {p p' : Nat} {c : Cmd (Nat × Nat)}
    (h : Parsed buf nt p c p') : (toks buf p').length ≤ (toks buf p).length := by
  obtain ⟨ts, hts, -⟩ := h.derives
  rw [hts, List.length_append]
  omega

theorem parseline_fueled (hs : '\x00' ∉ buf) {f : Nat}
    (hpipe : FueledAt buf 3 f (parsepipe buf f)) (hline : FueledAt buf 4 f (parseline buf f)) :
    FueledAt buf 4 (f + 1) (parseline buf (f + 1)) := by
  intro p hp
  rw [parseline]
  refine Fueled.bind (hpipe p (by omega)) fun r h₁ => ?_
  obtain ⟨c₁, p₁⟩ := r
  have hle₁ := length_toks_le_of_parsed ((parse_sound hs f).2.1 p c₁ p₁ h₁)
  refine Fueled.bind (backLoop_fueled hs (Nat.lt_succ_of_le (length_toks_le buf p₁)))
    fun r h₂ => ?_
  obtain ⟨c₂, p₂⟩ := r
  obtain ⟨n, -, hn, -⟩ := backLoop_sound hs h₂
  dsimp only
  generalize hpk : peek buf p₂ [';'] = pk
  obtain ⟨semi, p₃⟩ := pk
  obtain ⟨hsemi, htoks₃, -⟩ := peek_spec hs rfl hpk
  dsimp only
  split
  · -- the line after `;` has fewer tokens left
    next hsm =>
    obtain ⟨T, hT⟩ := nextIn_semi.mp (hsemi ▸ hsm)
    obtain ⟨htoks₄, -⟩ := toks_gettoken hs (htoks₃.trans hT)
    have : (toks buf p₁).length = n + (T.length + 1) := by
      rw [hn, hT, List.length_append, List.length_replicate, List.length_cons]
    refine Fueled.bind (hline _ (by rw [htoks₄]; omega)) fun _ _ => fueled_ok _
  · exact fueled_ok _

theorem parsepipe_fueled (hs : '\x00' ∉ buf) {f : Nat}
    (hexec : FueledAt buf 2 f (parseexec buf f)) (hpipe : FueledAt buf 3 f (parsepipe buf f)) :
    FueledAt buf 3 (f + 1) (parsepipe buf (f + 1)) := by
  intro p hp
  rw [parsepipe]
  refine Fueled.bind (hexec p (by omega)) fun r h₁ => ?_
  obtain ⟨c₁, p₁⟩ := r
  have hle₁ := length_toks_le_of_parsed ((parse_sound hs f).2.2.1 p c₁ p₁ h₁)
  dsimp only
  generalize hpk : peek buf p₁ ['|'] = pk
  obtain ⟨bar, p₂⟩ := pk
  obtain ⟨hbar, htoks₂, -⟩ := peek_spec hs rfl hpk
  dsimp only
  split
  · -- the pipeline after `|` has fewer tokens left
    next hb =>
    obtain ⟨T, hT⟩ := nextIn_bar.mp (hbar ▸ hb)
    obtain ⟨htoks₃, -⟩ := toks_gettoken hs (htoks₂.trans hT)
    rw [hT, List.length_cons] at hle₁
    refine Fueled.bind (hpipe _ (by rw [htoks₃]; omega)) fun _ _ => fueled_ok _
  · exact fueled_ok _

theorem parseblock_fueled (hs : '\x00' ∉ buf) {f : Nat}
    (hline : FueledAt buf 4 f (parseline buf f)) :
    FueledAt buf 1 (f + 1) (parseblock buf (f + 1)) := by
  intro p hp
  rw [parseblock]
  split
  next lp p₁ hpk =>
  obtain ⟨hlp, htoks₁, -⟩ := peek_spec hs rfl hpk
  split
  · exact fueled_error (by decide)
  · -- the line after `(` has fewer tokens left
    next hl =>
    have hl' : lp = true := by simpa using hl
    obtain ⟨T, hT⟩ := nextIn_lparen.mp (hlp ▸ hl')
    obtain ⟨htoks₂, -⟩ := toks_gettoken hs (htoks₁.trans hT)
    rw [hT, List.length_cons] at hp
    refine Fueled.bind (hline _ (by rw [htoks₂]; omega)) fun r _ => ?_
    obtain ⟨c₁, p₃⟩ := r
    dsimp only
    generalize hpk' : peek buf p₃ [')'] = pk
    obtain ⟨rp, p₄⟩ := pk
    dsimp only
    split
    · exact fueled_error (by decide)
    · refine Fueled.bind (parseredirs_fueled hs (Nat.lt_succ_of_le (length_toks_le buf _)))
        fun _ _ => fueled_ok _

theorem parseexec_fueled (hs : '\x00' ∉ buf) {f : Nat}
    (hblock : FueledAt buf 1 f (parseblock buf f)) :
    FueledAt buf 2 (f + 1) (parseexec buf (f + 1)) := by
  intro p hp
  rw [parseexec]
  split
  next lp p₁ hpk =>
  obtain ⟨-, htoks₁, -⟩ := peek_spec hs rfl hpk
  split
  · exact hblock p₁ (by rw [htoks₁]; omega)
  · refine Fueled.bind (parseredirs_fueled hs (Nat.lt_succ_of_le (length_toks_le buf p₁)))
      fun r _ => ?_
    obtain ⟨rs, p₂⟩ := r
    refine Fueled.bind (parseexecLoop_fueled hs (Nat.lt_succ_of_le (length_toks_le buf p₂)))
      fun _ _ => fueled_ok _

/-- With four units of fuel for every token left, none of the parse functions runs out. -/
theorem parse_fueled (hs : '\x00' ∉ buf) (fuel : Nat) :
    FueledAt buf 4 fuel (parseline buf fuel) ∧ FueledAt buf 3 fuel (parsepipe buf fuel) ∧
      FueledAt buf 2 fuel (parseexec buf fuel) ∧ FueledAt buf 1 fuel (parseblock buf fuel) := by
  induction fuel with
  | zero => exact ⟨fun _ h => by omega, fun _ h => by omega, fun _ h => by omega,
      fun _ h => by omega⟩
  | succ f ih =>
    obtain ⟨hline, hpipe, hexec, hblock⟩ := ih
    exact ⟨parseline_fueled hs hpipe hline, parsepipe_fueled hs hexec hpipe,
      parseexec_fueled hs hblock, parseblock_fueled hs hline⟩

/-- `parsecmd` never runs out of fuel: the errors it returns are the source's panics. -/
theorem parsecmd_fueled (hs : '\x00' ∉ buf) : Fueled (parsecmd buf) := by
  rw [parsecmd]
  have h0 : 4 * (toks buf 0).length + 4 ≤ 4 * buf.length + 4 := by
    have := length_toks_le buf 0
    omega
  refine Fueled.bind ((parse_fueled hs _).1 0 h0) fun _ _ => ?_
  dsimp only
  split
  · exact fueled_error (by decide)
  · exact fueled_ok _

end Fuel

/-! ### `parsecmd` -/

section Parsecmd

variable {buf : List Char}

/-- `parsecmd` returns when `parseline` does and leaves only whitespace after it. -/
theorem parsecmd_eq_ok {c : Cmd (Nat × Nat)} {s' : List Char} :
    parsecmd buf = .ok (c, s') ↔ ∃ p, parseline buf (4 * buf.length + 4) 0 = .ok (c, p) ∧
      skipWs buf p = buf.length ∧ s' = nulterminate c buf := by
  rw [parsecmd]
  cases h : parseline buf (4 * buf.length + 4) 0 with
  | error e => simp
  | ok r =>
    obtain ⟨c₁, p⟩ := r
    rw [Except.ok_bind]
    dsimp only [peek]
    by_cases hp : skipWs buf p = buf.length
    · rw [if_neg (not_not.mpr hp), Except.pure_eq_ok]
      constructor
      · intro he
        cases he
        exact ⟨p, rfl, hp, rfl⟩
      · rintro ⟨p', he, -, rfl⟩
        cases he
        rfl
    · rw [if_pos hp]
      constructor
      · nofun
      · rintro ⟨p', he, hp', -⟩
        cases he
        exact absurd hp' hp

/-- The shell parser accepts exactly the lines whose tokens derive a `line`, and builds the tree
of that derivation; on every other line it panics, never running out of the model's fuel; after
`nulterminate`, the string at the start of every word of the tree is that word of the line. -/
theorem parsecmd_accepts_grammar (s : List Char) (hs : '\x00' ∉ s) :
    (∀ a : Cmd (List Char), Derives .line (tokenize s) a ↔
      ∃ c s', parsecmd s = .ok (c, s') ∧ c.map (slice s) = a) ∧
    parsecmd s ≠ .error "sh: fuel" ∧
    ∀ c s', parsecmd s = .ok (c, s') → ∀ w ∈ c.words, cstring s' w.1 = slice s w := by
  have htoks : toks s 0 = tokenize s := by rw [toks, List.drop_zero]
  refine ⟨fun a => ⟨fun hd => ?_, ?_⟩, parsecmd_fueled hs, ?_⟩
  · -- a derivation of the whole line, with nothing after it, is parsed
    obtain ⟨c, p, h, hc, hT, hle⟩ := parse_complete hs hd (p := 0) (T := [])
      (4 * s.length + 4) (by rw [htoks, List.append_nil]) (.inl rfl) (Nat.zero_le _)
      (by
        have := length_tokenize_le s
        simp only [fuelFor, List.append_nil]
        omega)
    exact ⟨c, _, parsecmd_eq_ok.mpr ⟨p, h, (skipWs_eq_length_iff hs hle).mpr hT, rfl⟩, hc⟩
  · -- what is parsed derives from `line`, and nothing is left after it
    rintro ⟨c, s', h, rfl⟩
    obtain ⟨p, h, hend, -⟩ := parsecmd_eq_ok.mp h
    obtain ⟨⟨ts, hts, hd⟩, -, hle⟩ := (parse_sound hs _).1 0 c p h
    rw [htoks, (skipWs_eq_length_iff hs (hle (Nat.zero_le _))).mp hend, List.append_nil] at hts
    rw [hts]
    exact hd
  · intro c s' h w hw
    obtain ⟨p, hp, -, rfl⟩ := parsecmd_eq_ok.mp h
    exact cstring_nulterminate hs ((parse_sound hs _).1 0 c p hp).spans hw

/-- `echo hi > f | wc &` derives the tree `parsecmd` builds for it. -/
theorem parsecmd_derives_echo :
    Derives .line (tokenize ['e', 'c', 'h', 'o', ' ', 'h', 'i', ' ', '>', ' ', 'f', ' ', '|',
        ' ', 'w', 'c', ' ', '&'])
      (.back (.pipe (.redir (.exec [['e', 'c', 'h', 'o'], ['h', 'i']]) ['f'] 0x201 1)
        (.exec [['w', 'c']]))) :=
  ((parsecmd_accepts_grammar _ (by decide)).1 _).mpr ⟨_, _, rfl, rfl⟩

end Parsecmd

end Xv6.Sh
