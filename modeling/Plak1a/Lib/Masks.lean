import Mathlib.Logic.Basic

/-!
# Words bit by bit

A word is the set of its bits. What masks do to a register is said here one bit at a time,
and equality of words is equality of all bits.
-/

namespace Plak1a.Lib.Masks

def bit (w : UInt32) (i : Nat) : Bool := w.toBitVec.getLsbD i

theorem ext {v w : UInt32} (h : ∀ i < 32, bit v i = bit w i) : v = w :=
  UInt32.toBitVec_inj.mp (BitVec.eq_of_getLsbD_eq h)

variable (v w : UInt32) {i : Nat}

@[simp] theorem bit_zero (i : Nat) : bit 0 i = false := BitVec.getLsbD_zero
@[simp] theorem bit_and (i : Nat) : bit (v &&& w) i = (bit v i && bit w i) := BitVec.getLsbD_and
@[simp] theorem bit_or (i : Nat) : bit (v ||| w) i = (bit v i || bit w i) := BitVec.getLsbD_or

@[simp] theorem bit_not (hi : i < 32) : bit (~~~ w) i = !bit w i := by
  show (~~~ w.toBitVec).getLsbD i = _
  rw [BitVec.getLsbD_not, decide_eq_true hi, Bool.true_and]
  rfl

theorem bit_toNat (i : Nat) : bit w i = w.toNat.testBit i := rfl

/-- A number has no bit at its own place. -/
theorem bit_self : bit w w.toNat = false := Nat.testBit_lt_two_pow Nat.lt_two_pow_self

theorem shiftRight_and_one {k : UInt32} (hk : k.toNat < 32) :
    (w >>> k) &&& 1 = if bit w k.toNat then 1 else 0 := by
  have htoNat : ((w >>> k) &&& 1).toNat = (bit w k.toNat).toNat := by
    rw [UInt32.toNat_and, UInt32.toNat_shiftRight, Nat.mod_eq_of_lt hk, bit_toNat,
      Nat.toNat_testBit, Nat.shiftRight_eq_div_pow]
    exact Nat.and_one_is_mod _
  apply UInt32.toNat_inj.mp
  rw [htoNat]
  cases bit w k.toNat <;> rfl

/-- Masks are disjoint when no bit is in both. -/
theorem bit_of_disjoint {a b : UInt32} (hab : a &&& b = 0) (ha : bit a i = true) :
    bit b i = false := by
  have h : bit (a &&& b) i = bit 0 i := by rw [hab]
  rw [bit_and, bit_zero, ha, Bool.true_and] at h
  exact h

section
variable {a b : UInt32} (d : UInt32)

/-- One mask set and another one cleared: the bits of both are decided. -/
theorem or_and_compl_set (hab : a &&& b = 0) : (d ||| a) &&& ~~~ b &&& a = a := by
  apply ext
  intro i hi
  have h := bit_of_disjoint (i := i) hab
  simp only [bit_and, bit_or, bit_not b hi]
  grind

theorem or_and_compl_cleared : (d ||| a) &&& ~~~ b &&& b = 0 := by
  apply ext
  intro i hi
  simp only [bit_and, bit_not b hi, bit_zero]
  grind

/-- The bits of neither mask are kept. -/
theorem or_and_compl_frame : (d ||| a) &&& ~~~ b &&& ~~~ (a ||| b) = d &&& ~~~ (a ||| b) := by
  apply ext
  intro i hi
  simp only [bit_and, bit_or, bit_not _ hi]
  grind

/-- With `and` and `or` exchanged nothing of the old word is left. -/
theorem and_or_compl (hab : a &&& b = 0) : d &&& a ||| ~~~ b = ~~~ b := by
  apply ext
  intro i hi
  have h := bit_of_disjoint (i := i) hab
  simp only [bit_and, bit_or, bit_not _ hi]
  grind

end

end Plak1a.Lib.Masks
