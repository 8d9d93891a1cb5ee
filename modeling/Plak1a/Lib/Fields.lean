import Mathlib.Algebra.Group.Nat.Defs

/-!
# Fields of words

A field of a word is a quotient and a remainder. Masks, shifts and unions of disjoint fields
are turned into arithmetic here, so that a packing and its inverse can be compared by linear
arithmetic alone.
-/

namespace Plak1a.Lib.Fields

/-- A mask of `len` bits from bit `lo` on keeps the field there. -/
theorem and_mask (n lo len : Nat) :
    n &&& (2 ^ len - 1) * 2 ^ lo = n / 2 ^ lo % 2 ^ len * 2 ^ lo := by
  apply Nat.eq_of_testBit_eq
  intro i
  rw [Nat.testBit_and, Nat.testBit_mul_two_pow, Nat.testBit_mul_two_pow,
    Nat.testBit_two_pow_sub_one, Nat.testBit_mod_two_pow, Nat.testBit_div_two_pow]
  by_cases hi : lo ≤ i
  · rw [Nat.sub_add_cancel hi]
    simp [hi, Bool.and_comm]
  · simp [hi]

/-- A field and what lies below it. -/
theorem or_eq_add {b k : Nat} (a : Nat) (hb : b < 2 ^ k) : a * 2 ^ k ||| b = a * 2 ^ k + b := by
  rw [Nat.mul_comm]
  exact (Nat.two_pow_add_eq_or_of_lt hb a).symm

variable {k mask : UInt32}

theorem toNat_and_mask (w : UInt32) (lo len : Nat) (hmask : mask.toNat = (2 ^ len - 1) * 2 ^ lo) :
    (w &&& mask).toNat = w.toNat / 2 ^ lo % 2 ^ len * 2 ^ lo := by
  rw [UInt32.toNat_and, hmask, and_mask]

theorem toNat_shiftRight (w : UInt32) (n : Nat) (hk : k.toNat = n) (hn : n < 32) :
    (w >>> k).toNat = w.toNat / 2 ^ n := by
  rw [UInt32.toNat_shiftRight, hk, Nat.mod_eq_of_lt hn, Nat.shiftRight_eq_div_pow]

theorem toNat_shiftLeft (w : UInt32) (n : Nat) (hk : k.toNat = n) (hn : n < 32) :
    (w <<< k).toNat = w.toNat * 2 ^ n % 2 ^ 32 := by
  rw [UInt32.toNat_shiftLeft, hk, Nat.mod_eq_of_lt hn, Nat.shiftLeft_eq]

end Plak1a.Lib.Fields
