import Mathlib.Data.List.GetD
import Mathlib.Data.List.Infix

/-!
# Shift registers with feedback

A register of `w` bits shifts to the right and takes in a polynomial where a one falls out; a
message enters bit by bit. Shifting is linear. Up to `w` bits act like the word they make up, so
that no two of the same length have the same effect if the polynomial has its highest bit set.
-/

namespace Plak1a.Lib.ShiftRegister

variable {w n : Nat} {p c d : BitVec w} {bits bits' pre post : List Bool}

/-- One place to the right. -/
def shift (p c : BitVec w) : BitVec w :=
  if c.getLsbD 0 then p ^^^ (c >>> 1) else c >>> 1

def shifts (p : BitVec w) : Nat → BitVec w → BitVec w
  | 0, c => c
  | n + 1, c => shifts p n (shift p c)

/-- Bits as a word, the first one lowest. -/
def word (w : Nat) (bits : List Bool) : BitVec w := (BitVec.ofBoolListLE bits).setWidth w

/-- The register after the bits have come in, first one first. -/
def feed (p : BitVec w) : BitVec w → List Bool → BitVec w
  | c, [] => c
  | c, b :: bits => feed p (shift p (c ^^^ word w [b])) bits

theorem shift_xor (p c d : BitVec w) : shift p (c ^^^ d) = shift p c ^^^ shift p d := by
  rw [shift, shift, shift, BitVec.getLsbD_xor, BitVec.ushiftRight_xor_distrib]
  cases c.getLsbD 0 <;> cases d.getLsbD 0
  · rfl
  · simp only [Bool.false_xor, if_true, Bool.false_eq_true, if_false]
    ac_rfl
  · simp only [Bool.xor_false, if_true, Bool.false_eq_true, if_false]
    ac_rfl
  · simp only [Bool.xor_self, Bool.false_eq_true, if_false, if_true]
    rw [BitVec.xor_comm p (c >>> 1), BitVec.xor_assoc, ← BitVec.xor_assoc p, BitVec.xor_self,
      BitVec.zero_xor]

theorem shifts_xor (p : BitVec w) (n : Nat) (c d : BitVec w) :
    shifts p n (c ^^^ d) = shifts p n c ^^^ shifts p n d := by
  induction n generalizing c d with
  | zero => rfl
  | succ n ih => rw [shifts, shift_xor, ih, shifts, shifts]

/-- Zeros fall out without effect. -/
theorem shifts_zeros (h : ∀ i < n, c.getLsbD i = false) : shifts p n c = c >>> n := by
  induction n generalizing c with
  | zero => rfl
  | succ n ih =>
    have hshift : shift p c = c >>> 1 := by
      rw [shift, h 0 (Nat.succ_pos n)]
      rfl
    rw [shifts, hshift, ih, ← BitVec.shiftRight_add, Nat.add_comm]
    intro i hi
    rw [BitVec.getLsbD_ushiftRight]
    exact h (1 + i) (by omega)

/-- Only the lowest bits decide what is fed back. -/
theorem shifts_of_low (h : ∀ i < n, c.getLsbD i = d.getLsbD i) :
    shifts p n c = shifts p n d ^^^ ((c ^^^ d) >>> n) := by
  have hzeros : shifts p n (c ^^^ d) = (c ^^^ d) >>> n := by
    apply shifts_zeros
    intro i hi
    rw [BitVec.getLsbD_xor, h i hi, Bool.xor_self]
  rw [← hzeros, shifts_xor, ← BitVec.xor_assoc, BitVec.xor_comm (shifts p n d), BitVec.xor_assoc,
    BitVec.xor_self, BitVec.xor_zero]

theorem getLsbD_word (w : Nat) (bits : List Bool) (i : Nat) :
    (word w bits).getLsbD i = (decide (i < w) && bits.getD i false) := by
  rw [word, BitVec.getLsbD_setWidth, BitVec.getLsbD_ofBoolListLE]

theorem word_cons (w : Nat) (b : Bool) (bits : List Bool) :
    word w (b :: bits) = word w [b] ^^^ (word w bits <<< 1) := by
  apply BitVec.eq_of_getLsbD_eq
  intro i hi
  rw [BitVec.getLsbD_xor, BitVec.getLsbD_shiftLeft, getLsbD_word, getLsbD_word, getLsbD_word]
  cases i with
  | zero => simp [hi]
  | succ i => simp [hi, Nat.lt_of_succ_lt hi]

theorem word_injective (h : bits.length ≤ w) (hlength : bits.length = bits'.length)
    (heq : word w bits = word w bits') : bits = bits' := by
  apply List.ext_getElem hlength
  intro i hi hi'
  have hbit := congrArg (fun c => c.getLsbD i) heq
  simp only [getLsbD_word, show i < w from by omega, decide_true, Bool.true_and,
    List.getD_eq_getElem _ _ hi, List.getD_eq_getElem _ _ hi'] at hbit
  exact hbit

theorem feed_append (p c : BitVec w) (pre post : List Bool) :
    feed p c (pre ++ post) = feed p (feed p c pre) post := by
  induction pre generalizing c with
  | nil => rfl
  | cons b pre ih => exact ih _

/-- A word's worth of bits can be added at once. -/
theorem feed_eq_shifts (p : BitVec w) (h : bits.length ≤ w) (c : BitVec w) :
    feed p c bits = shifts p bits.length (c ^^^ word w bits) := by
  induction bits generalizing c with
  | nil =>
    have hword : word w [] = 0#w := by
      apply BitVec.eq_of_getLsbD_eq
      intro i hi
      rw [getLsbD_word]
      simp
    rw [hword, BitVec.xor_zero]
    rfl
  | cons b bits ih =>
    rw [List.length_cons] at h
    -- the bits behind the first one fit below the highest place
    have hback : shift p (word w bits <<< 1) = word w bits := by
      have hlow : (word w bits <<< 1).getLsbD 0 = false := by
        rw [BitVec.getLsbD_shiftLeft]
        simp
      rw [shift, hlow, if_neg Bool.false_ne_true]
      apply BitVec.eq_of_getLsbD_eq
      intro i hi
      rw [BitVec.getLsbD_ushiftRight, BitVec.getLsbD_shiftLeft, getLsbD_word, getLsbD_word]
      by_cases hlast : 1 + i < w
      · simp [hi, hlast]
      · rw [List.getD_eq_default _ _ (show bits.length ≤ i from by omega), decide_eq_false hlast,
          Bool.false_and, Bool.false_and, Bool.and_false]
    rw [feed, ih (by omega), List.length_cons, shifts, word_cons w b bits, ← BitVec.xor_assoc,
      shift_xor p (c ^^^ word w [b]), hback]

/-- The highest bit afterwards tells the bit that fell out. -/
theorem shift_injective (hp : p.msb = true) (h : shift p c = shift p d) : c = d := by
  have hmsb : ∀ c : BitVec w, (shift p c).msb = c.getLsbD 0 := by
    intro c
    have hzero : (c >>> 1).msb = false := by
      rw [BitVec.msb_ushiftRight]
      simp
    rw [shift]
    cases hc : c.getLsbD 0 with
    | true => rw [if_pos rfl, BitVec.msb_xor, hp, hzero]; rfl
    | false => rw [if_neg Bool.false_ne_true, hzero]
  have hlow : c.getLsbD 0 = d.getLsbD 0 := by rw [← hmsb, h, hmsb]
  have hhigh : c >>> 1 = d >>> 1 := by
    rw [shift, shift, hlow] at h
    split at h
    · exact (BitVec.xor_right_inj p).mp h
    · exact h
  apply BitVec.eq_of_getLsbD_eq
  intro i hi
  cases i with
  | zero => exact hlow
  | succ i =>
    have hbit := congrArg (fun c => c.getLsbD i) hhigh
    simp only [BitVec.getLsbD_ushiftRight] at hbit
    rw [Nat.add_comm] at hbit
    exact hbit

theorem shifts_injective (hp : p.msb = true) (n : Nat) (h : shifts p n c = shifts p n d) :
    c = d := by
  induction n generalizing c d with
  | zero => exact h
  | succ n ih => exact shift_injective hp (ih h)

theorem feed_injective (hp : p.msb = true) (bits : List Bool) (h : feed p c bits = feed p d bits) :
    c = d := by
  induction bits generalizing c d with
  | nil => exact h
  | cons b bits ih => exact (BitVec.xor_left_inj _).mp (shift_injective hp (ih h))

/-- A change within `w` bits of a message is seen in the register. -/
theorem feed_burst (c : BitVec w) (pre post : List Bool) (hp : p.msb = true) (h : bits.length ≤ w)
    (hlength : bits.length = bits'.length) (hne : bits ≠ bits') :
    feed p c (pre ++ bits ++ post) ≠ feed p c (pre ++ bits' ++ post) := by
  intro heq
  rw [feed_append, feed_append p c (pre ++ bits')] at heq
  have hmid := feed_injective hp post heq
  rw [feed_append p c pre bits, feed_append p c pre bits', feed_eq_shifts p h,
    feed_eq_shifts p (show bits'.length ≤ w from hlength ▸ h), hlength] at hmid
  exact hne (word_injective h hlength ((BitVec.xor_right_inj _).mp (shifts_injective hp _ hmid)))

end Plak1a.Lib.ShiftRegister
