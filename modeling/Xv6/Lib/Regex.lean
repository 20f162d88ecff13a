import Mathlib.Data.List.Infix

/-!
Patterns that are sequences of atoms, each one character of a class or any number of them,
possibly anchored at the end of the input. `Lang` is the set of words of a pattern, and
`PrefixIn` what a matcher that scans from the start of its input decides: some prefix of the
input is a word of the pattern, and with the anchor the whole input is. The lemmas unfold
`PrefixIn` one atom and one character at a time, the steps a backtracking matcher takes; for a
star (`prefixIn_star_cons`) they are its two choices, to stop or to take one more character.
-/

namespace AtomRe

/-- An atom: one character of the class `p`, or any number of them. -/
inductive Atom (α : Type) where
  | one (p : α → Bool)
  | star (p : α → Bool)

variable {α : Type}

/-- The words of a sequence of atoms. -/
def Lang : List (Atom α) → List α → Prop
  | [], u => u = []
  | .one p :: as, u => ∃ t u', u = t :: u' ∧ p t = true ∧ Lang as u'
  | .star p :: as, u => ∃ v w, u = v ++ w ∧ (∀ t ∈ v, p t = true) ∧ Lang as w

/-- Some prefix of `s` is a word of `as`; when `anchored`, `s` itself is. -/
def PrefixIn (as : List (Atom α)) (anchored : Bool) (s : List α) : Prop :=
  ∃ u v, s = u ++ v ∧ Lang as u ∧ (anchored = true → v = [])

variable {as : List (Atom α)} {e : Bool} {p : α → Bool}

theorem prefixIn_nil (e : Bool) (s : List α) : PrefixIn [] e s ↔ (e = true → s = []) := by
  constructor
  · rintro ⟨u, v, rfl, rfl, hv⟩
    exact hv
  · intro hs
    exact ⟨[], s, rfl, rfl, hs⟩

theorem not_prefixIn_one_nil : ¬PrefixIn (.one p :: as) e [] := by
  rintro ⟨u, v, huv, ⟨t, u', rfl, -, -⟩, -⟩
  simp at huv

theorem prefixIn_one_cons (t : α) (s : List α) :
    PrefixIn (.one p :: as) e (t :: s) ↔ p t = true ∧ PrefixIn as e s := by
  constructor
  · rintro ⟨u, v, hs, ⟨t', u', rfl, hp, hu⟩, hv⟩
    obtain ⟨rfl, rfl⟩ := List.cons_eq_cons.mp hs
    exact ⟨hp, u', v, rfl, hu, hv⟩
  · rintro ⟨hp, u, v, rfl, hu, hv⟩
    exact ⟨t :: u, v, rfl, ⟨t, u, rfl, hp, hu⟩, hv⟩

theorem prefixIn_star_nil : PrefixIn (.star p :: as) e [] ↔ PrefixIn as e [] := by
  constructor
  · rintro ⟨u, v, huv, ⟨v', w, rfl, -, hw⟩, hv⟩
    obtain ⟨hu, rfl⟩ := List.append_eq_nil_iff.mp huv.symm
    obtain ⟨-, rfl⟩ := List.append_eq_nil_iff.mp hu
    exact ⟨[], [], rfl, hw, hv⟩
  · rintro ⟨u, v, huv, hu, hv⟩
    exact ⟨u, v, huv, ⟨[], u, rfl, nofun, hu⟩, hv⟩

/-- A star either stops, or takes the next character when it is in its class. -/
theorem prefixIn_star_cons (t : α) (s : List α) :
    PrefixIn (.star p :: as) e (t :: s) ↔
      PrefixIn as e (t :: s) ∨ (p t = true ∧ PrefixIn (.star p :: as) e s) := by
  constructor
  · rintro ⟨u, v, hs, ⟨v', w, rfl, hall, hw⟩, hv⟩
    cases v' with
    | nil => exact .inl ⟨w, v, hs, hw, hv⟩
    | cons t' v' =>
      -- the star took `t`; what it took after it is still a run of its class
      obtain ⟨rfl, hrest⟩ := List.cons_eq_cons.mp hs
      exact .inr ⟨hall t (List.mem_cons_self ..), v' ++ w, v, hrest, ⟨v', w, rfl,
        fun x hx => hall x (List.mem_cons_of_mem _ hx), hw⟩, hv⟩
  · rintro (⟨u, v, hs, hu, hv⟩ | ⟨hp, u, v, rfl, ⟨v', w, rfl, hall, hw⟩, hv⟩)
    · exact ⟨u, v, hs, ⟨[], u, rfl, nofun, hu⟩, hv⟩
    · refine ⟨t :: (v' ++ w), v, by simp, ⟨t :: v', w, rfl, ?_, hw⟩, hv⟩
      rintro x (_ | ⟨_, hx⟩)
      · exact hp
      · exact hall x hx

end AtomRe
