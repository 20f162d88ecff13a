import Mathlib.Algebra.BigOperators.Group.Finset.Basic
import Mathlib.Algebra.Order.BigOperators.Group.Finset

/-!
# Tallies over a finite table

A table is a function on a finite index type, and a tally adds up a count read off every
entry. Reference counts are such tallies: a kernel object's count is the number of table
entries (slots, processes) that point to it. When one entry of the table changes, the tally
changes by the difference of that entry's counts; the lemmas state it without subtraction,
so that `omega` can combine them with the counts they are about.
-/

namespace Tally

open Finset

variable {ι β : Type*} [Fintype ι] [DecidableEq ι]

/-- Changing entry `i` of a table changes a tally by the difference of the counts at `i`. -/
theorem sum_update_add (g : ι → β → ℕ) (t : ι → β) (i : ι) (v : β) :
    ∑ x, g x (Function.update t i v x) + g i (t i) = ∑ x, g x (t x) + g i v := by
  have h1 := add_sum_erase univ (fun x => g x (Function.update t i v x)) (mem_univ i)
  have h2 := add_sum_erase univ (fun x => g x (t x)) (mem_univ i)
  have h3 : ∑ x ∈ univ.erase i, g x (Function.update t i v x) =
      ∑ x ∈ univ.erase i, g x (t x) :=
    sum_congr rfl fun x hx => by rw [Function.update_of_ne (ne_of_mem_erase hx)]
  simp only [Function.update_self] at h1
  omega

/-- In any commutative monoid (a multiset of held objects, say), the tally of a table with
entry `i` changed is the new entry's count plus the tally of the entries left alone. -/
theorem sum_update_eq {M : Type*} [AddCommMonoid M] (g : β → M) (t : ι → β) (i : ι) (v : β) :
    ∑ x, g (Function.update t i v x) = g v + ∑ x ∈ univ.erase i, g (t x) := by
  rw [← add_sum_erase univ _ (mem_univ i), Function.update_self]
  congr 1
  exact sum_congr rfl fun x hx => by rw [Function.update_of_ne (ne_of_mem_erase hx)]

/-- Two different entries count at most the whole tally. -/
theorem add_le_sum (g : ι → ℕ) {i j : ι} (hij : i ≠ j) : g i + g j ≤ ∑ x, g x := by
  rw [← sum_pair hij]
  exact sum_le_sum_of_subset (subset_univ _)

end Tally
