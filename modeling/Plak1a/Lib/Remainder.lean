import Mathlib.Algebra.Polynomial.Div
import Mathlib.Algebra.Field.ZMod
import Mathlib.Tactic.LinearCombination
import Plak1a.Lib.ShiftRegister

/-!
# A shift register divides polynomials

Over the two-element field the contents of a register are a polynomial, the lowest bit its
highest coefficient, and a shift with feedback is a multiplication by `X` with the generator
taken off once if it goes in. So the register holds the remainder of the message that came in.
-/

namespace Plak1a.Lib.Remainder

open ShiftRegister
open scoped Polynomial
open Polynomial (X C)

variable {w : Nat} {p c : BitVec w}

def coefficient (b : Bool) : ZMod 2 := if b then 1 else 0

/-- The contents of a register. -/
noncomputable def polynomial (c : BitVec w) : (ZMod 2)[X] :=
  ∑ k ∈ Finset.range w, C (coefficient (c.getLsbD (w - 1 - k))) * X ^ k

/-- Bits as coefficients, the first one highest. -/
noncomputable def ofBits : List Bool → (ZMod 2)[X]
  | [] => 0
  | b :: bits => C (coefficient b) * X ^ bits.length + ofBits bits

/-- The divisor of a register with the feedback `p`. -/
noncomputable def generator (p : BitVec w) : (ZMod 2)[X] := X ^ w + polynomial p

theorem coefficient_xor (b b' : Bool) :
    coefficient (b ^^ b') = coefficient b + coefficient b' := by
  cases b <;> cases b' <;> decide

theorem coeff_polynomial (c : BitVec w) (k : Nat) :
    (polynomial c).coeff k = coefficient (decide (k < w) && c.getLsbD (w - 1 - k)) := by
  simp only [polynomial, Polynomial.finsetSum_coeff, Polynomial.coeff_C_mul_X_pow]
  rw [Finset.sum_ite_eq (Finset.range w) k]
  by_cases hk : k < w <;> simp [hk, coefficient]

theorem degree_polynomial_lt (c : BitVec w) : (polynomial c).degree < w := by
  rw [Polynomial.degree_lt_iff_coeff_zero]
  intro k hk
  rw [coeff_polynomial, decide_eq_false (Nat.not_lt.mpr hk)]
  rfl

theorem generator_monic (p : BitVec w) : (generator p).Monic :=
  Polynomial.monic_X_pow_add (degree_polynomial_lt p)

theorem polynomial_xor (c d : BitVec w) : polynomial (c ^^^ d) = polynomial c + polynomial d := by
  ext k
  rw [Polynomial.coeff_add, coeff_polynomial, coeff_polynomial, coeff_polynomial,
    BitVec.getLsbD_xor, Bool.and_xor_distrib_left, coefficient_xor]

/-- The bit that comes in is added at the highest place. -/
theorem polynomial_word (hw : 0 < w) (b : Bool) :
    polynomial (word w [b]) = C (coefficient b) * X ^ (w - 1) := by
  ext k
  rw [coeff_polynomial, Polynomial.coeff_C_mul_X_pow, getLsbD_word]
  by_cases hk : k = w - 1
  · subst k
    simp [show w - 1 < w from by omega, hw]
  · rw [if_neg hk]
    by_cases hlt : k < w
    · obtain ⟨j, hj⟩ : ∃ j, w - 1 - k = j + 1 := ⟨w - 2 - k, by omega⟩
      simp [hj, coefficient]
    · simp [hlt, coefficient]

/-- The highest coefficient falls out, and the generator goes in for it. -/
theorem polynomial_shift (hw : 0 < w) (p c : BitVec w) :
    polynomial (shift p c) = X * polynomial c + C (coefficient (c.getLsbD 0)) * generator p := by
  have hdouble : ∀ a : ZMod 2, a + a = 0 := by decide
  -- without feedback the places move up by one
  have hshift : polynomial (c >>> 1) =
      X * polynomial c + C (coefficient (c.getLsbD 0)) * X ^ w := by
    ext k
    rw [coeff_polynomial, Polynomial.coeff_add, Polynomial.coeff_C_mul_X_pow,
      BitVec.getLsbD_ushiftRight]
    cases k with
    | zero =>
      rw [Polynomial.coeff_X_mul_zero, if_neg (by omega), BitVec.getLsbD_of_ge c _ (by omega),
        Bool.and_false]
      rfl
    | succ k =>
      rw [Polynomial.coeff_X_mul, coeff_polynomial]
      by_cases hk : k + 1 < w
      · rw [show 1 + (w - 1 - (k + 1)) = w - 1 - k by omega, if_neg (by omega)]
        simp [hk, show k < w from by omega]
      · by_cases hlast : k + 1 = w
        · rw [if_pos hlast, show w - 1 - k = 0 by omega]
          simp [hk, show k < w from by omega, hdouble, coefficient]
        · simp [hk, hlast, show ¬ k < w from by omega, coefficient]
  cases hc : c.getLsbD 0 with
  | false =>
    rw [shift, hc, if_neg Bool.false_ne_true, hshift, hc]
    simp [coefficient]
  | true =>
    rw [shift, hc, if_pos rfl, polynomial_xor, hshift, hc, generator,
      show coefficient true = 1 from rfl, map_one, one_mul]
    ring

/-- What the register holds behind a message differs by a multiple of the generator from what
it held, moved up, and the message. -/
theorem polynomial_feed (hw : 0 < w) (p c : BitVec w) (bits : List Bool) :
    ∃ q, polynomial (feed p c bits) + generator p * q =
      X ^ bits.length * polynomial c + X ^ w * ofBits bits := by
  induction bits generalizing c with
  | nil => exact ⟨0, by simp [feed, ofBits]⟩
  | cons b bits ih =>
    obtain ⟨q, hq⟩ := ih (shift p (c ^^^ word w [b]))
    have hword : X * (X : (ZMod 2)[X]) ^ (w - 1) = X ^ w := by
      rw [← pow_succ', Nat.sub_add_cancel hw]
    rw [polynomial_shift hw, polynomial_xor, polynomial_word hw] at hq
    refine ⟨q - X ^ bits.length * C (coefficient ((c ^^^ word w [b]).getLsbD 0)), ?_⟩
    rw [feed, ofBits, List.length_cons, pow_succ]
    linear_combination hq + X ^ bits.length * C (coefficient b) * hword

/-- The register holds the remainder. -/
theorem feed_eq_remainder (hw : 0 < w) (p c : BitVec w) (bits : List Bool) :
    polynomial (feed p c bits) =
      (X ^ bits.length * polynomial c + X ^ w * ofBits bits) %ₘ generator p := by
  obtain ⟨q, hq⟩ := polynomial_feed hw p c bits
  have hdegree : (polynomial (feed p c bits)).degree < (generator p).degree := by
    rw [generator, Polynomial.degree_add_eq_left_of_degree_lt, Polynomial.degree_X_pow]
    · exact degree_polynomial_lt _
    · rw [Polynomial.degree_X_pow]
      exact degree_polynomial_lt p
  exact (Polynomial.div_modByMonic_unique q _ (generator_monic p) ⟨hq, hdegree⟩).2.symm

end Plak1a.Lib.Remainder
