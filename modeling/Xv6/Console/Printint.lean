import Mathlib.Data.Nat.Digits.Defs

/-!
# `printint`, in the kernel and in the user library

`console.c` and `printf.c` each have a `printint(xx, base, sign)` with the same body and their
own digit table, lowercase in the kernel and uppercase in the user library. The body takes the
magnitude of `xx` as an unsigned number (for a negative `xx` through `-xx`, which for `INT_MIN`
wraps back to `INT_MIN` and reads as `2^31`), stores its digits into `buf[16]` from the least
significant up, adds `'-'`, and emits the buffer backwards.

`digitLoop_eq` is the loop invariant: the loop leaves the digits of `x`, last first, exactly when
they fit in what is left of the buffer. The digits are those of core's `Nat.toDigits`, so that
`printint(xx, 10, 1)` emits `Int.repr` of `xx` and `printint(xx, 16, 0)` emits `Nat.toDigits 16`
of `xx` read as unsigned, each in at most 11 characters (`printint_canonical`).
-/

namespace Xv6.Printint

/-- The loop `do { buf[i++] = digits[x % base]; } while((x /= base) != 0);` on `buf[0..i)`, with
`room` what is left of `buf`: `none` for a store past its end. A digit past the end of the table
reads its terminating NUL. -/
def digitLoop (digits : List Char) (base : UInt32) : Nat → UInt32 → List Char → Option (List Char)
  | 0, _, _ => none
  | room + 1, x, buf =>
    let buf := buf ++ [digits.getD (x % base).toNat '\x00']
    if x / base = 0 then some buf else digitLoop digits base room (x / base) buf

/-- The body of both `printint`s with the digit table `digits`: what it emits, or `none` when it
would store past the end of `buf[16]`. The output loop `while(--i >= 0)` emits `buf` backwards. -/
def printDigits (digits : List Char) (xx base : Int32) (sign : Bool) : Option (List Char) :=
  let neg := sign && decide (xx < 0)
  let x : UInt32 := if neg then (-xx).toUInt32 else xx.toUInt32
  (digitLoop digits base.toUInt32 16 x []).bind fun buf =>
    (if neg then (if buf.length < 16 then some (buf ++ ['-']) else none) else some buf).map
      List.reverse

/-! ### The digit loop -/

section Loop

variable {digits : List Char} {base : UInt32} {f : Char → Char}

/-- The loop leaves the digits of `x` in `buf`, least significant first, exactly when there is
room for all of them. The table gives the digit `k` as `f` of core's `Nat.digitChar k`. -/
theorem digitLoop_eq (hb : 2 ≤ base.toNat)
    (htab : ∀ k < base.toNat, digits.getD k '\x00' = f (Nat.digitChar k)) (room : Nat) (x : UInt32)
    (buf : List Char) :
    digitLoop digits base room x buf =
      if (Nat.toDigits base.toNat x.toNat).length ≤ room
      then some (buf ++ ((Nat.toDigits base.toNat x.toNat).map f).reverse) else none := by
  induction room generalizing x buf with
  | zero => simp [digitLoop]
  | succ room ih =>
    have hd : (x % base).toNat = x.toNat % base.toNat := UInt32.toNat_mod x base
    have hq : (x / base).toNat = x.toNat / base.toNat := UInt32.toNat_div x base
    rw [digitLoop, hd, htab _ (Nat.mod_lt _ (by omega)), Nat.toDigits_eq_if (by omega)]
    by_cases hx : x.toNat < base.toNat
    · -- one digit: the loop stops
      have h0 : x / base = 0 := UInt32.toNat_inj.mp (by rw [hq, Nat.div_eq_of_lt hx]; rfl)
      simp [h0, hx, Nat.mod_eq_of_lt hx]
    · -- more digits: the quotient's are stored after this one
      have h0 : x / base ≠ 0 := fun h => by
        have := congrArg UInt32.toNat h
        rw [hq] at this
        exact hx (Nat.lt_of_div_eq_zero (by omega) this)
      rw [if_neg h0, if_neg hx, ih, hq]
      simp

/-- The whole body: the sign, if any, then the digits of the magnitude `x`, most significant
first, when they fit in `buf[16]`. -/
theorem printDigits_eq (hb : 2 ≤ base.toNat) (xx b : Int32) (hbase : b.toUInt32 = base)
    (htab : ∀ k < base.toNat, digits.getD k '\x00' = f (Nat.digitChar k)) (sign : Bool)
    (hfit : (Nat.toDigits base.toNat
      (if sign && decide (xx < 0) then (-xx).toUInt32 else xx.toUInt32).toNat).length + 1 ≤ 16) :
    printDigits digits xx b sign =
      some ((if sign && decide (xx < 0) then ['-'] else []) ++ (Nat.toDigits base.toNat
        (if sign && decide (xx < 0) then (-xx).toUInt32 else xx.toUInt32).toNat).map f) := by
  unfold printDigits
  dsimp only
  rw [hbase, digitLoop_eq hb htab, if_pos (by omega)]
  split
  · next hneg =>
    -- the sign takes one more byte of `buf`
    simp only [hneg, if_true] at hfit
    have hlen : ([] ++ ((Nat.toDigits base.toNat (-xx).toUInt32.toNat).map f).reverse).length
        < 16 := by
      simp only [List.nil_append, List.length_reverse, List.length_map]
      omega
    rw [Option.bind_some, if_pos hlen]
    simp
  · simp

end Loop

/-- No leading zeros: in a base of at most 16 digits, a digit string of `Nat.toDigits` starts
with `'0'` only for 0. -/
theorem eq_zero_of_toDigits_eq_cons {b : Nat} (hb : 2 ≤ b) (hb16 : b ≤ 16) :
    ∀ {n : Nat} {cs : List Char}, Nat.toDigits b n = '0' :: cs → n = 0 := by
  intro n
  induction n using Nat.strong_induction_on with
  | _ n ih =>
    intro cs h
    rw [Nat.toDigits_eq_if (by omega)] at h
    split at h
    · next hn =>
      have hzero : ∀ k < 16, Nat.digitChar k = '0' → k = 0 := by decide
      exact hzero n (by omega) (List.cons_eq_cons.mp h).1
    · next hn =>
      -- the leading digit is the quotient's, and the quotient is not 0
      obtain ⟨c, cs', hq⟩ := List.exists_cons_of_ne_nil (Nat.toDigits_ne_nil (n := n / b) (b := b))
      rw [hq, List.cons_append, List.cons_eq_cons] at h
      have := ih (n / b) (Nat.div_lt_self (by omega) (by omega)) (h.1 ▸ hq)
      have := (Nat.div_eq_zero_iff_lt (by omega)).mp this
      omega

/-- The magnitude `x` of `xx`: `-xx`, as unsigned, when `xx` is negative. -/
theorem toNat_magnitude (xx : Int32) :
    (if xx < 0 then (-xx).toUInt32 else xx.toUInt32).toNat = xx.toInt.natAbs := by
  have h := BitVec.toInt_eq_toNat_cond xx.toBitVec
  rw [Int32.toInt_toBitVec, Int32.toNat_toBitVec] at h
  have hlt := xx.toUInt32.toNat_lt
  split
  · next hneg =>
    rw [Int32.lt_iff_toInt_lt, Int32.toInt_zero] at hneg
    -- `-xx` wraps modulo `2^32`; for `INT_MIN` it is `2^31` again
    rw [Int32.toUInt32_neg, UInt32.toNat_neg]
    simp only [UInt32.size] at *
    split at h <;> omega
  · next hneg =>
    rw [Int32.lt_iff_toInt_lt, Int32.toInt_zero] at hneg
    split at h <;> omega

theorem toList_repr (i : Int) :
    i.repr.toList = if i < 0 then '-' :: Nat.toDigits 10 i.natAbs else Nat.toDigits 10 i.natAbs := by
  cases i with
  | ofNat m => simp [Int.repr, Nat.toList_repr]
  | negSucc m => simp [Int.repr, Nat.toList_repr]

end Xv6.Printint

namespace Xv6.Consoles

/-- `static char digits[] = "0123456789abcdef";` of `console.c`. -/
def digits : List Char := "0123456789abcdef".toList

/-- The kernel's `printint(xx, base, sign)`: the characters it passes to `consputc`. -/
def printint (xx base sign : Int32) : Option (List Char) :=
  Printint.printDigits digits xx base (sign != 0)

end Xv6.Consoles

namespace Xv6.Printf

/-- `static char digits[] = "0123456789ABCDEF";` of `printf.c`. -/
def digits : List Char := "0123456789ABCDEF".toList

/-- The user library's `printint(fd, xx, base, sgn)`: its `putc(fd, c)` calls, as the pairs
`(fd, c)`. -/
def printint (fd xx base sgn : Int32) : Option (List (Int32 × Char)) :=
  (Printint.printDigits digits xx base (sgn != 0)).map fun out => out.map fun c => (fd, c)

end Xv6.Printf

namespace Xv6.Printint

/-- The magnitude of an `int` has at most ten decimal digits, an `int` read as unsigned at most
eight hexadecimal ones. -/
theorem length_toDigits_decimal (xx : Int32) : (Nat.toDigits 10 xx.toInt.natAbs).length ≤ 10 := by
  rw [Nat.length_toDigits_le_iff (by decide) (by decide)]
  have h₁ := xx.le_toInt
  have h₂ := xx.toInt_lt
  omega

theorem length_toDigits_hex (xx : Int32) : (Nat.toDigits 16 xx.toUInt32.toNat).length ≤ 8 := by
  rw [Nat.length_toDigits_le_iff (by decide) (by decide)]
  exact xx.toUInt32.toNat_lt

variable {digits : List Char}

/-- `printint(xx, 10, 1)` with a table whose first ten digits are `0`..`9`: `Int.repr`. -/
theorem printDigits_decimal (htab : ∀ k < 10, digits.getD k '\x00' = Nat.digitChar k)
    (xx : Int32) : printDigits digits xx 10 true = some xx.toInt.repr.toList := by
  have h := @printDigits_eq digits 10 id (by decide) xx 10 rfl htab true
  simp only [Bool.true_and, decide_eq_true_eq, toNat_magnitude, List.map_id,
    UInt32.reduceToNat] at h
  rw [h (by have := length_toDigits_decimal xx; omega), toList_repr]
  have hiff : xx.toInt < 0 ↔ xx < 0 := by rw [Int32.lt_iff_toInt_lt, Int32.toInt_zero]
  by_cases hneg : xx < 0 <;> simp [hneg, hiff]

/-- `printint(xx, 16, 0)` with a table that gives the digit `k` as `f (Nat.digitChar k)`: the
hexadecimal digits of `xx` read as unsigned. -/
theorem printDigits_hex {f : Char → Char}
    (htab : ∀ k < 16, digits.getD k '\x00' = f (Nat.digitChar k)) (xx : Int32) :
    printDigits digits xx 16 false = some ((Nat.toDigits 16 xx.toUInt32.toNat).map f) := by
  have h := @printDigits_eq digits 16 f (by decide) xx 16 rfl htab false
  simp only [Bool.false_and, Bool.false_eq_true, if_false, List.nil_append,
    UInt32.reduceToNat] at h
  exact h (by have := length_toDigits_hex xx; omega)

/-- Both `printint`s print an `int` in canonical form: `printint(xx, 10, 1)` as its signed
decimal, `INT_MIN` included, and `printint(xx, 16, 0)` as the hexadecimal of its unsigned
reading, lowercase in the kernel and uppercase in the user library; neither with leading zeros,
and in at most 11 characters of `buf`. -/
theorem printint_canonical (fd xx : Int32) :
    Consoles.printint xx 10 1 = some xx.toInt.repr.toList ∧
    Printf.printint fd xx 10 1 = some (xx.toInt.repr.toList.map fun c => (fd, c)) ∧
    Consoles.printint xx 16 0 = some (Nat.toDigits 16 xx.toUInt32.toNat) ∧
    Printf.printint fd xx 16 0 =
      some ((Nat.toDigits 16 xx.toUInt32.toNat).map fun c => (fd, c.toUpper)) ∧
    (∀ cs, Nat.toDigits 10 xx.toInt.natAbs = '0' :: cs → xx.toInt = 0) ∧
    (∀ cs, Nat.toDigits 16 xx.toUInt32.toNat = '0' :: cs → xx.toUInt32.toNat = 0) ∧
    xx.toInt.repr.toList.length ≤ 11 ∧ (Nat.toDigits 16 xx.toUInt32.toNat).length ≤ 11 := by
  have hk : ∀ k < 16, Consoles.digits.getD k '\x00' = Nat.digitChar k := by decide
  have hu : ∀ k < 16, Printf.digits.getD k '\x00' = (Nat.digitChar k).toUpper := by decide
  have hu10 : ∀ k < 10, Printf.digits.getD k '\x00' = Nat.digitChar k := by decide
  refine ⟨printDigits_decimal (fun k h => hk k (by omega)) xx, ?_,
    (printDigits_hex (f := id) hk xx).trans (by rw [List.map_id]), ?_,
    fun cs h => Int.natAbs_eq_zero.mp (eq_zero_of_toDigits_eq_cons (by decide) (by decide) h),
    fun cs h => eq_zero_of_toDigits_eq_cons (by decide) (by decide) h, ?_,
    (length_toDigits_hex xx).trans (by decide)⟩
  · rw [Printf.printint, show ((1 : Int32) != 0) = true from rfl, printDigits_decimal hu10 xx]
    rfl
  · rw [Printf.printint, show ((0 : Int32) != 0) = false from rfl, printDigits_hex hu xx,
      Option.map_some, List.map_map]
    rfl
  · -- the sign and at most ten digits
    have := length_toDigits_decimal xx
    rw [toList_repr]
    split <;> simp <;> omega

end Xv6.Printint
