import Mathlib.Data.List.Chain
import Mathlib.Logic.Function.Basic

/-!
# Circular doubly-linked lists with a sentinel

The links of a list threaded through heap nodes are two functions on nodes, `next` and
`prev`; one node `hd` is the sentinel. `Links.Ring L hd xs` says that following `next` from
`hd` visits the nodes `xs` in order and comes back to `hd`, that `prev` undoes every such
step, and that no node occurs twice.

The operations are the pointer updates of the usual C idiom, written in the order the C
statements run (insert after the sentinel, unlink a node), and the loop that walks the list
from the sentinel until it comes back to it. The lemmas relate each of them to the list `xs`:
an insertion conses, an unlink removes, and a walk along `next` (or along `prev`) is a
`List.find?` over `xs` (or over `xs.reverse`).
-/

namespace DList

variable {α : Type*}

/-- The `next` and `prev` fields of every node. -/
structure Links (α : Type*) where
  next : α → α
  prev : α → α

namespace Links

/-- One step along the list: `a->next == b` and `b->prev == a`. -/
def Link (L : Links α) (a b : α) : Prop := L.next a = b ∧ L.prev b = a

/-- `L` threads the sentinel `hd` and then the nodes `xs` into one circle. -/
structure Ring (L : Links α) (hd : α) (xs : List α) : Prop where
  nodup : (hd :: xs).Nodup
  chain : (hd :: xs ++ [hd]).IsChain L.Link

variable [DecidableEq α]

/-- Insert `b` right after the sentinel:
`b->next = hd->next; b->prev = hd; hd->next->prev = b; hd->next = b`. -/
def pushFront (L : Links α) (hd b : α) : Links α :=
  let next₁ := Function.update L.next b (L.next hd)
  let prev₁ := Function.update L.prev b hd
  { next := Function.update next₁ hd b, prev := Function.update prev₁ (next₁ hd) b }

/-- Unlink `b`: `b->next->prev = b->prev; b->prev->next = b->next`. -/
def unlink (L : Links α) (b : α) : Links α :=
  let prev₁ := Function.update L.prev (L.next b) (L.prev b)
  { next := Function.update L.next (prev₁ b) (L.next b), prev := prev₁ }

@[simp] theorem pushFront_next (L : Links α) (hd b : α) :
    (L.pushFront hd b).next = Function.update (Function.update L.next b (L.next hd)) hd b := rfl

@[simp] theorem pushFront_prev (L : Links α) (hd b : α) :
    (L.pushFront hd b).prev =
      Function.update (Function.update L.prev b hd) (Function.update L.next b (L.next hd) hd) b :=
  rfl

@[simp] theorem unlink_next (L : Links α) (b : α) :
    (L.unlink b).next =
      Function.update L.next (Function.update L.prev (L.next b) (L.prev b) b) (L.next b) := rfl

@[simp] theorem unlink_prev (L : Links α) (b : α) :
    (L.unlink b).prev = Function.update L.prev (L.next b) (L.prev b) := rfl

end Links

/-- The loop `for (b = start; b != hd; b = step(b)) if (p(b)) return b;`, run for at most
`fuel` iterations. -/
def scan [DecidableEq α] (step : α → α) (hd : α) (p : α → Bool) : Nat → α → Option α
  | 0, _ => none
  | fuel + 1, b => if b = hd then none else if p b then some b else scan step hd p fuel (step b)

/-! ### Walking a chain -/

/-- Every pair of a list whose second element is the first match of a search has a first
element that fails the test. -/
theorem pairwise_find {p : α → Bool} {l : List α} {i : α} (hnd : l.Nodup)
    (h : l.find? p = some i) : l.Pairwise fun x y => y = i → p x = false := by
  induction l with
  | nil => simp at h
  | cons a l ih =>
    have ha := (List.nodup_cons.mp hnd).1
    rw [List.pairwise_cons]
    rw [List.find?_cons] at h
    cases hpa : p a with
    | true =>
      -- the match is `a` itself, which occurs nowhere later
      rw [hpa, Option.some.injEq] at h
      subst h
      exact ⟨fun y hy hya => absurd (hya ▸ hy) ha,
        List.pairwise_of_forall_mem_list fun _ _ y hy hya => absurd (hya ▸ hy) ha⟩
    | false =>
      rw [hpa] at h
      exact ⟨fun _ _ _ => rfl, ih (List.nodup_cons.mp hnd).2 h⟩

section Scan

variable [DecidableEq α] {step : α → α} {hd : α}

/-- Walking from `start` along a chain that ends at the sentinel finds what `List.find?`
finds in the chain's nodes before the sentinel, given one iteration more than there are
nodes. -/
theorem scan_eq_find (p : α → Bool) :
    ∀ {ys : List α} {start : α} {fuel : Nat},
      (start :: ys).IsChain (fun a b => step a = b) → (start :: ys).getLast? = some hd →
      hd ∉ (start :: ys).dropLast → ys.length < fuel →
      scan step hd p fuel start = (start :: ys).dropLast.find? p
  | [], start, fuel + 1, _, hlast, _, _ => by
    simp only [List.getLast?_singleton, Option.some.injEq] at hlast
    simp [scan, hlast]
  | y :: ys, start, fuel + 1, hc, hlast, hhd, hlen => by
    rw [List.isChain_cons_cons] at hc
    obtain ⟨hstep, hc⟩ := hc
    have hstart : start ≠ hd := fun h => hhd (by simp [h])
    have hlast' : (y :: ys).getLast? = some hd := by simpa using hlast
    have hhd' : hd ∉ (y :: ys).dropLast := by
      rw [List.dropLast_cons_cons] at hhd
      exact fun h => hhd (List.mem_cons_of_mem _ h)
    have hlen' : ys.length < fuel := by
      simp only [List.length_cons] at hlen
      omega
    rw [scan, if_neg hstart, List.dropLast_cons_cons, hstep, scan_eq_find p hc hlast' hhd' hlen']
    cases hp : p start <;> simp [hp]

end Scan

/-! ### Rings -/

namespace Links

section Ring

variable {L : Links α} {hd : α} {xs : List α}

theorem ring_nil (hn : L.next hd = hd) (hp : L.prev hd = hd) : L.Ring hd [] :=
  ⟨by simp, by simp [Link, hn, hp]⟩

theorem Ring.nodup_append (h : L.Ring hd xs) : (xs ++ [hd]).Nodup :=
  (List.perm_append_singleton hd xs).nodup_iff.mpr h.nodup

theorem Ring.hd_not_mem (h : L.Ring hd xs) : hd ∉ xs :=
  (List.nodup_cons.mp h.nodup).1

/-- The chain of a ring, with the sentinel's successor split off. -/
theorem Ring.chain_cons (h : L.Ring hd xs) : (hd :: (xs ++ [hd])).IsChain L.Link := by
  simpa only [List.cons_append] using h.chain

variable [DecidableEq α]

/-- The walk along `next` from the sentinel's successor is a search of `xs`. -/
theorem Ring.scan_next (h : L.Ring hd xs) (p : α → Bool) {fuel : Nat}
    (hfuel : xs.length < fuel) : scan L.next hd p fuel (L.next hd) = xs.find? p := by
  have hc : (hd :: (xs ++ [hd])).IsChain fun a b => L.next a = b :=
    h.chain_cons.imp fun _ _ => And.left
  obtain ⟨c, rest, hcr⟩ := List.exists_cons_of_ne_nil (List.append_ne_nil_of_right_ne_nil xs
    (List.cons_ne_nil hd []))
  rw [hcr, List.isChain_cons_cons] at hc
  rw [hc.1, scan_eq_find p hc.2 (by rw [← hcr]; simp) (by rw [← hcr]; simpa using h.hd_not_mem)
    (by have := congrArg List.length hcr; simp at this; omega)]
  rw [← hcr, List.dropLast_concat]

/-- The walk along `prev` from the sentinel's predecessor is a search of `xs` backwards. -/
theorem Ring.scan_prev (h : L.Ring hd xs) (p : α → Bool) {fuel : Nat}
    (hfuel : xs.length < fuel) : scan L.prev hd p fuel (L.prev hd) = xs.reverse.find? p := by
  have hc : (hd :: (xs.reverse ++ [hd])).IsChain fun a b => L.prev a = b := by
    have hrev : (hd :: xs ++ [hd]).reverse = hd :: (xs.reverse ++ [hd]) := by simp
    rw [← hrev, List.isChain_reverse]
    exact h.chain.imp fun _ _ => And.right
  obtain ⟨c, rest, hcr⟩ := List.exists_cons_of_ne_nil (List.append_ne_nil_of_right_ne_nil
    xs.reverse (List.cons_ne_nil hd []))
  rw [hcr, List.isChain_cons_cons] at hc
  rw [hc.1, scan_eq_find p hc.2 (by rw [← hcr]; simp)
    (by rw [← hcr]; simpa using h.hd_not_mem)
    (by have := congrArg List.length hcr; simp at this; omega)]
  rw [← hcr, List.dropLast_concat]

/-- Inserting a node that is not on the ring puts it first. -/
theorem Ring.pushFront (h : L.Ring hd xs) {b : α} (hb : b ∉ hd :: xs) :
    (L.pushFront hd b).Ring hd (b :: xs) := by
  have hbhd : b ≠ hd := fun e => hb (e ▸ List.mem_cons_self)
  have hbxs : b ∉ xs := fun e => hb (List.mem_cons_of_mem hd e)
  -- split the old chain after the sentinel's successor `c`
  obtain ⟨c, rest, hcr⟩ := List.exists_cons_of_ne_nil (List.append_ne_nil_of_right_ne_nil xs
    (List.cons_ne_nil hd []))
  have hnd : (c :: rest).Nodup := hcr ▸ h.nodup_append
  have hbc : b ∉ c :: rest := by rw [← hcr]; simpa [hbhd] using hbxs
  have hbc' : b ≠ c := fun e => hbc (by rw [e]; exact List.mem_cons_self)
  have hc := h.chain_cons
  rw [hcr, List.isChain_cons_cons] at hc
  obtain ⟨⟨hnext, hprev⟩, htail⟩ := hc
  have hnext₁ : Function.update L.next b (L.next hd) hd = c := by
    rw [Function.update_of_ne hbhd.symm, hnext]
  refine ⟨List.nodup_cons.mpr ⟨?_, List.nodup_cons.mpr ⟨hbxs, h.nodup.of_cons⟩⟩, ?_⟩
  · simpa [hbhd.symm] using h.hd_not_mem
  rw [List.cons_append, List.cons_append, hcr, List.isChain_cons_cons, List.isChain_cons_cons]
  refine ⟨⟨?_, ?_⟩, ⟨?_, ?_⟩, ?_⟩
  · simp
  · rw [pushFront_prev, hnext₁, Function.update_of_ne hbc', Function.update_self]
  · rw [pushFront_next, Function.update_of_ne hbhd, Function.update_self, hnext]
  · rw [pushFront_prev, hnext₁, Function.update_self]
  · -- every later link is untouched: its ends are neither `hd`'s old successor nor `b`
    refine htail.imp_of_mem_tail_imp fun x y hx hy ⟨hxy, hyx⟩ => ?_
    have hyc : y ≠ c := fun e => (List.nodup_cons.mp hnd).1 (e ▸ hy)
    have hxhd : x ≠ hd := by
      rintro rfl
      exact hyc (hxy.symm.trans hnext)
    have hxb : x ≠ b := fun e => hbc (e ▸ hx)
    have hyb : y ≠ b := fun e => hbc (e ▸ List.mem_cons_of_mem c hy)
    exact ⟨by rw [pushFront_next, Function.update_of_ne hxhd, Function.update_of_ne hxb, hxy],
      by rw [pushFront_prev, hnext₁, Function.update_of_ne hyc, Function.update_of_ne hyb, hyx]⟩

/-- Unlinking a node of the ring removes it. -/
theorem Ring.unlink {us vs : List α} {b : α} (h : L.Ring hd (us ++ b :: vs)) :
    (L.unlink b).Ring hd (us ++ vs) := by
  -- `a` is the node before `b` and `c` the node after it
  obtain ⟨a, front, haf⟩ : ∃ a front, hd :: us = front ++ [a] :=
    ⟨_, _, (List.dropLast_append_getLast (List.cons_ne_nil hd us)).symm⟩
  obtain ⟨c, rest, hcr⟩ := List.exists_cons_of_ne_nil (List.append_ne_nil_of_right_ne_nil vs
    (List.cons_ne_nil hd []))
  have hc := h.chain
  rw [show hd :: (us ++ b :: vs) ++ [hd] = (hd :: us) ++ b :: c :: rest by rw [← hcr]; simp,
    List.isChain_append, List.isChain_cons_cons] at hc
  obtain ⟨hleft, ⟨⟨hbn, -⟩, hright⟩, hjoin⟩ := hc
  have hab : L.Link a b := hjoin a (by rw [haf]; simp) b (by simp)
  -- what the ring's lack of duplicates says about the nodes around `b`
  have hnd := h.nodup_append
  rw [List.append_assoc, List.cons_append, hcr, List.nodup_append] at hnd
  obtain ⟨-, hbcr, hdisj⟩ := hnd
  have hbus : b ∉ us := fun hb => hdisj b hb b List.mem_cons_self rfl
  have hbrest : b ∉ c :: rest := (List.nodup_cons.mp hbcr).1
  have hcrest : c ∉ rest := (List.nodup_cons.mp (List.nodup_cons.mp hbcr).2).1
  have hbc : b ≠ c := fun e => hbrest (e ▸ List.mem_cons_self)
  have hprev : (L.unlink b).prev = Function.update L.prev c a := by
    rw [unlink_prev, hbn, hab.2]
  have hnext : (L.unlink b).next = Function.update L.next a c := by
    rw [unlink_next, hbn, Function.update_of_ne hbc, hab.2]
  refine ⟨h.nodup.sublist (((List.sublist_cons_self b vs).append_left us).cons_cons hd), ?_⟩
  rw [show hd :: (us ++ vs) ++ [hd] = (hd :: us) ++ c :: rest by rw [← hcr]; simp,
    List.isChain_append]
  refine ⟨?_, ?_, ?_⟩
  · -- links before `a` are untouched: `a`'s old successor was `b`, which is not in `us`
    refine hleft.imp_of_mem_tail_imp fun x y _ hy ⟨hxy, hyx⟩ => ?_
    have hxa : x ≠ a := by
      rintro rfl
      exact hbus (hab.1 ▸ hxy ▸ hy)
    have hyc : y ≠ c := fun e => hdisj y hy c (by simp) e
    exact ⟨by rw [hnext, Function.update_of_ne hxa, hxy],
      by rw [hprev, Function.update_of_ne hyc, hyx]⟩
  · refine hright.imp_of_mem_tail_imp fun x y _ hy ⟨hxy, hyx⟩ => ?_
    have hxa : x ≠ a := by
      rintro rfl
      exact hbrest (List.mem_cons_of_mem c (hab.1 ▸ hxy ▸ hy))
    have hyc : y ≠ c := fun e => hcrest (e ▸ hy)
    exact ⟨by rw [hnext, Function.update_of_ne hxa, hxy],
      by rw [hprev, Function.update_of_ne hyc, hyx]⟩
  · intro x hx y hy
    rw [haf, List.getLast?_concat, Option.mem_some_iff] at hx
    rw [List.head?_cons, Option.mem_some_iff] at hy
    subst hx hy
    exact ⟨by rw [hnext, Function.update_self], by rw [hprev, Function.update_self]⟩

/-- Unlinking a node and inserting it again after the sentinel moves it to the front. -/
theorem Ring.moveFront {us vs : List α} {b : α} (h : L.Ring hd (us ++ b :: vs)) :
    ((L.unlink b).pushFront hd b).Ring hd (b :: (us ++ vs)) := by
  refine h.unlink.pushFront ?_
  have hbhd : b ≠ hd := fun e => h.hd_not_mem (by simp [← e])
  have hb : b ∉ us ++ vs := (List.nodup_cons.mp (List.perm_middle.nodup_iff.mp h.nodup.of_cons)).1
  simpa [hbhd] using hb

/-- Inserting the nodes `bs` one after another right after the sentinel leaves them first,
in reverse order. -/
theorem Ring.foldl_pushFront {bs : List α} (h : L.Ring hd xs)
    (hbs : (hd :: (bs.reverse ++ xs)).Nodup) :
    (bs.foldl (fun L b => L.pushFront hd b) L).Ring hd (bs.reverse ++ xs) := by
  induction bs generalizing L xs with
  | nil => simpa using h
  | cons b bs ih =>
    have hbs' : (hd :: (bs.reverse ++ b :: xs)).Nodup := by simpa using hbs
    have hnd : (hd :: b :: xs).Nodup :=
      hbs'.sublist ((List.sublist_append_right bs.reverse (b :: xs)).cons_cons hd)
    have hb : b ∉ hd :: xs := by
      simp only [List.nodup_cons, List.mem_cons, not_or] at hnd
      simpa only [List.mem_cons, not_or] using ⟨fun e => hnd.1.1 e.symm, hnd.2.1⟩
    simpa using ih (h.pushFront hb) hbs'

end Ring

end Links

end DList
