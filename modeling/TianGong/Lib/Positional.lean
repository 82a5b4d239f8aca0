/-
**Numbers by their places.**

A list of digits, the most significant first, is a number (`places`).

* `places_append`, `places_lt`: the number of digits in two parts, and its bound.
* `shiftRight_eq_iff`: two numbers shifted down agree exactly when their high bits do.
-/

import Mathlib.Data.Nat.Digits.Lemmas

namespace TianGong.Lib

open List

/-- The number of a list of digits. -/
def places (b : Nat) (digits : List Nat) : Nat := Nat.ofDigits b digits.reverse

variable {b : Nat}

@[simp] theorem places_nil : places b [] = 0 := rfl
@[simp] theorem places_singleton (d : Nat) : places b [d] = d := Nat.ofDigits_singleton

theorem places_append (first second : List Nat) :
    places b (first ++ second) = places b first * b ^ second.length + places b second := by
  rw [places, reverse_append, Nat.ofDigits_append, length_reverse, Nat.add_comm,
    Nat.mul_comm]
  rfl

theorem places_cons (d : Nat) (digits : List Nat) :
    places b (d :: digits) = d * b ^ digits.length + places b digits := by
  have one := places_append (b := b) [d] digits
  rwa [places_singleton] at one

/-- Reading digits from the first one on. -/
theorem foldl_places (n : Nat) (digits : List Nat) :
    digits.foldl (fun n d => n * b + d) n = n * b ^ digits.length + places b digits := by
  induction digits generalizing n with
  | nil => simp
  | cons d digits ih =>
    rw [foldl_cons, ih, places_cons, length_cons]
    ring

/-- **A number of digits fits its places.** -/
theorem places_lt {digits : List Nat} (base : 1 < b) (small : ∀ d ∈ digits, d < b) :
    places b digits < b ^ digits.length := by
  have fits := Nat.ofDigits_lt_base_pow_length base fun d isIn => small d (List.mem_reverse.mp isIn)
  rwa [length_reverse] at fits

/-- Leading zeros count nothing. -/
theorem places_zeros (k : Nat) (digits : List Nat) :
    places b (List.replicate k 0 ++ digits) = places b digits := by
  induction k with
  | zero => rfl
  | succ k ih => rw [replicate_succ, cons_append, places_cons, ih, Nat.zero_mul, Nat.zero_add]

/-- The last digits of a number. -/
theorem places_digits (v n : Nat) :
    places b ((range n).reverse.map fun i => v / b ^ i % b) = v % b ^ n := by
  induction n with
  | zero => exact (Nat.mod_one v).symm
  | succ n ih =>
    rw [range_succ, reverse_append, reverse_singleton, singleton_append, map_cons, places_cons, ih,
      length_map, length_reverse, length_range, Nat.mod_pow_succ, Nat.add_comm, Nat.mul_comm]

/-! ### Bits -/

/-- **Reading digits by shifts** reads the same number. -/
theorem foldl_shift {k : Nat} {digits : List Nat} (small : ∀ d ∈ digits, d < 2 ^ k) :
    digits.foldl (fun n d => n <<< k ||| d) 0 = places (2 ^ k) digits := by
  have general : ∀ n, digits.foldl (fun n d => n <<< k ||| d) n =
      digits.foldl (fun n d => n * 2 ^ k + d) n := by
    induction digits with
    | nil => exact fun n => rfl
    | cons d digits ih =>
      intro n
      rw [foldl_cons, foldl_cons, ih fun e isIn => small e (mem_cons_of_mem _ isIn),
        ← Nat.shiftLeft_add_eq_or_of_lt (small d mem_cons_self), Nat.shiftLeft_eq]
  rw [general, foldl_places, Nat.zero_mul, Nat.zero_add]

/-- **Two numbers shifted down agree exactly when their high bits do.** -/
theorem shiftRight_eq_iff (m n k : Nat) :
    m >>> k = n >>> k ↔ ∀ i, k ≤ i → m.testBit i = n.testBit i := by
  constructor
  · intro same i high
    have place := congrArg (fun value => value.testBit (i - k)) same
    simpa [Nat.testBit_shiftRight, Nat.add_sub_cancel' high] using place
  · intro high
    apply Nat.eq_of_testBit_eq
    intro i
    rw [Nat.testBit_shiftRight, Nat.testBit_shiftRight]
    exact high (k + i) (Nat.le_add_right k i)

end TianGong.Lib
