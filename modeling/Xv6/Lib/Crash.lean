import Mathlib.Logic.Function.Basic
import Mathlib.Data.List.Basic

/-!
Programs of atomic writes, and the states a crash can leave behind.

A procedure whose only effect on stable storage is a sequence of atomic writes is
modelled by the list of those writes. Each write is a function of the whole store,
because a write may copy what an earlier one put there (a redo log installs a block by
reading its copy back). Running the list is the procedure; running a prefix of it is
what a power cut after that many writes leaves on the store. Every crash point of the
procedure is therefore one natural number, and a statement about all crash points is a
statement about all `k`.
-/

namespace Crash

variable {σ : Type*}

/-- Apply the steps of a program in order. -/
def run : List (σ → σ) → σ → σ
  | [], s => s
  | f :: fs, s => run fs (f s)

@[simp] theorem run_nil (s : σ) : run [] s = s := rfl

@[simp] theorem run_cons (f : σ → σ) (fs : List (σ → σ)) (s : σ) :
    run (f :: fs) s = run fs (f s) := rfl

theorem run_append (p q : List (σ → σ)) (s : σ) : run (p ++ q) s = run q (run p s) := by
  induction p generalizing s with
  | nil => rfl
  | cons f p ih => exact ih (f s)

/-- What stable storage holds after a crash that lets exactly the first `k` atomic steps
of `p` reach it. For `k ≥ p.length` the program ran to completion. -/
def crashAfter (k : Nat) (p : List (σ → σ)) (s : σ) : σ := run (p.take k) s

theorem crashAfter_succ_cons (k : Nat) (f : σ → σ) (p : List (σ → σ)) (s : σ) :
    crashAfter (k + 1) (f :: p) s = crashAfter k p (f s) := rfl

theorem crashAfter_of_length_le {k : Nat} {p : List (σ → σ)} (h : p.length ≤ k) (s : σ) :
    crashAfter k p s = run p s := by
  rw [crashAfter, List.take_of_length_le h]

theorem crashAfter_append_of_le {k : Nat} {p : List (σ → σ)} (h : k ≤ p.length)
    (q : List (σ → σ)) (s : σ) : crashAfter k (p ++ q) s = crashAfter k p s := by
  rw [crashAfter, crashAfter, List.take_append_of_le_length h]

theorem crashAfter_append_add (p q : List (σ → σ)) (k : Nat) (s : σ) :
    crashAfter (p.length + k) (p ++ q) s = crashAfter k q (run p s) := by
  rw [crashAfter, List.take_append, List.take_of_length_le (by omega), Nat.add_sub_cancel_left,
    run_append]
  rfl

end Crash
