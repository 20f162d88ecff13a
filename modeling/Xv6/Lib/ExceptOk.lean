import Mathlib.Logic.Basic

/-!
Taking apart a computation in `Except` that succeeded.

A do-block in `Except ε` that returns `.ok b` ran each of its steps to `.ok`. These lemmas
say so one operator at a time, as equivalences, so that `simp only` peels a whole do-block
into the facts about its steps and `obtain` names them.
-/

namespace Except

variable {ε α β : Type}

@[simp] theorem bind_eq_ok (x : Except ε α) (f : α → Except ε β) (b : β) :
    x >>= f = .ok b ↔ ∃ a, x = .ok a ∧ f a = .ok b := by
  cases x <;> simp [bind, Except.bind]

@[simp] theorem map_eq_ok (x : Except ε α) (f : α → β) (b : β) :
    x.map f = .ok b ↔ ∃ a, x = .ok a ∧ f a = b := by
  cases x <;> simp [Except.map]

/-- A step that succeeded passes its value on. -/
theorem ok_bind (a : α) (f : α → Except ε β) : (Except.ok a : Except ε α) >>= f = f a := rfl

/-- A computation whose result passes a test succeeded, with a result that passes it. The test
can be run by the kernel where the result itself cannot be written down. -/
theorem exists_eq_ok_of_test {x : Except ε α} {p : α → Bool}
    (h : (match x with | .ok a => p a | .error _ => false) = true) : ∃ a, x = .ok a ∧ p a = true := by
  cases x with
  | error e => cases h
  | ok a => exact ⟨a, rfl, h⟩

/-- A computation that the test finds failing with `e` failed with `e`. -/
theorem eq_error_of_test [DecidableEq ε] {x : Except ε α} {e : ε}
    (h : (match x with | .ok _ => false | .error e' => decide (e' = e)) = true) : x = .error e := by
  cases x with
  | ok a => cases h
  | error e' => rw [of_decide_eq_true h]

@[simp] theorem pure_eq_ok (a b : α) : (pure a : Except ε α) = .ok b ↔ a = b := by
  simp [pure, Except.pure]

end Except
