import Mathlib.Algebra.Group.Nat.Defs

/-!
# Words and their bytes

A 32-bit word in little-endian memory is its four bytes, lowest first. Two words are
equal when their bytes are, and the bitwise operations and rotations by whole bytes
act on the bytes one by one.
-/

namespace Plak1a.Lib.Bytes

/-- Byte `i` of a word, lowest first. -/
def byteOf (w : UInt32) (i : Nat) : UInt8 := (w >>> UInt32.ofNat (8 * i)).toUInt8

/-- A byte at its place in a word. -/
def shifted (b : UInt8) (i : Nat) : UInt32 := b.toUInt32 <<< UInt32.ofNat (8 * i)

/-- The two bytes at `p`. -/
def halfAt (m : Nat → UInt8) (p : Nat) : UInt16 :=
  (m p).toUInt16 + (m (p + 1)).toUInt16 <<< 8

/-- The four bytes at `p`. -/
def wordAt (m : Nat → UInt8) (p : Nat) : UInt32 :=
  shifted (m p) 0 ||| shifted (m (p + 1)) 1 ||| shifted (m (p + 2)) 2 ||| shifted (m (p + 3)) 3

/-- Rotation to the right by `r` bytes. -/
def rotateBytes (w : UInt32) (r : Nat) : UInt32 :=
  w >>> UInt32.ofNat (8 * r) ||| w <<< UInt32.ofNat (32 - 8 * r)

theorem byte_ext {b c : UInt8} (h : ∀ k < 8, b.toNat.testBit k = c.toNat.testBit k) : b = c := by
  rw [← UInt8.toNat_inj]
  apply Nat.eq_of_testBit_eq
  intro k
  by_cases hk : k < 8
  · exact h k hk
  · have hb := b.toNat_lt
    have hc := c.toNat_lt
    have hp : 2 ^ 8 ≤ 2 ^ k := Nat.pow_le_pow_right (by decide) (by omega)
    rw [Nat.testBit_lt_two_pow (by omega), Nat.testBit_lt_two_pow (by omega)]

theorem toNat_shift {n : Nat} (h : n < 32) : (UInt32.ofNat n).toNat % 32 = n := by
  rw [UInt32.toNat_ofNat']
  omega

theorem testBit_byteOf (w : UInt32) {i k : Nat} (hi : i < 4) (hk : k < 8) :
    (byteOf w i).toNat.testBit k = w.toNat.testBit (8 * i + k) := by
  rw [byteOf, UInt32.toNat_toUInt8, UInt32.toNat_shiftRight, toNat_shift (by omega),
    Nat.testBit_mod_two_pow, Nat.testBit_shiftRight]
  simp only [hk, decide_true, Bool.true_and]

theorem word_ext {w v : UInt32} (h : ∀ i < 4, byteOf w i = byteOf v i) : w = v := by
  rw [← UInt32.toNat_inj]
  apply Nat.eq_of_testBit_eq
  intro k
  by_cases hk : k < 32
  · have hb : (byteOf w (k / 8)).toNat.testBit (k % 8) =
        (byteOf v (k / 8)).toNat.testBit (k % 8) := by
      rw [h (k / 8) (by omega)]
    rw [testBit_byteOf w (by omega) (by omega), testBit_byteOf v (by omega) (by omega),
      show 8 * (k / 8) + k % 8 = k from by omega] at hb
    exact hb
  · have hw := w.toNat_lt
    have hv := v.toNat_lt
    have hp : 2 ^ 32 ≤ 2 ^ k := Nat.pow_le_pow_right (by decide) (by omega)
    rw [Nat.testBit_lt_two_pow (by omega), Nat.testBit_lt_two_pow (by omega)]

@[simp] theorem byteOf_and (w v : UInt32) (i : Nat) :
    byteOf (w &&& v) i = byteOf w i &&& byteOf v i := by
  simp only [byteOf, UInt32.shiftRight_and, UInt32.toUInt8_and]

@[simp] theorem byteOf_or (w v : UInt32) (i : Nat) :
    byteOf (w ||| v) i = byteOf w i ||| byteOf v i := by
  simp only [byteOf, UInt32.shiftRight_or, UInt32.toUInt8_or]

theorem byteOf_shifted (b : UInt8) {i j : Nat} (hi : i < 4) (hj : j < 4) :
    byteOf (shifted b j) i = if i = j then b else 0 := by
  apply byte_ext
  intro k hk
  have hb := b.toNat_lt
  rw [testBit_byteOf _ hi hk, shifted, UInt32.toNat_shiftLeft, toNat_shift (by omega),
    UInt8.toNat_toUInt32, Nat.testBit_mod_two_pow, Nat.testBit_shiftLeft]
  split
  · subst i
    simp only [Nat.le_add_right, Nat.add_sub_cancel_left, decide_true, Bool.true_and]
    simp only [show 8 * j + k < 32 from by omega, decide_true, Bool.true_and]
  · rw [show (0 : UInt8).toNat = 0 from rfl, Nat.zero_testBit]
    by_cases hle : 8 * j ≤ 8 * i + k
    · have hp : 2 ^ 8 ≤ 2 ^ (8 * i + k - 8 * j) := Nat.pow_le_pow_right (by decide) (by omega)
      rw [Nat.testBit_lt_two_pow (Nat.lt_of_lt_of_le hb hp), Bool.and_false, Bool.and_false]
    · simp only [ge_iff_le, hle, decide_false, Bool.false_and, Bool.and_false]

theorem byteOf_wordAt (m : Nat → UInt8) (p : Nat) {i : Nat} (hi : i < 4) :
    byteOf (wordAt m p) i = m (p + i) := by
  simp only [wordAt, byteOf_or]
  rw [byteOf_shifted _ hi (by decide), byteOf_shifted _ hi (by decide),
    byteOf_shifted _ hi (by decide), byteOf_shifted _ hi (by decide)]
  rcases i with _ | _ | _ | _ | i
  · simp
  · simp
  · simp
  · simp
  · omega

theorem byteOf_rotateBytes (w : UInt32) {r i : Nat} (hr : r < 4) (hi : i < 4) :
    byteOf (rotateBytes w r) i = byteOf w ((i + r) % 4) := by
  have hw := w.toNat_lt
  apply byte_ext
  intro k hk
  rw [testBit_byteOf _ hi hk, testBit_byteOf _ (by omega) hk, rotateBytes, UInt32.toNat_or,
    Nat.testBit_or, UInt32.toNat_shiftRight, UInt32.toNat_shiftLeft, toNat_shift (by omega),
    Nat.testBit_shiftRight, Nat.testBit_mod_two_pow, Nat.testBit_shiftLeft]
  rcases Nat.eq_zero_or_pos r with rfl | hpos
  · rw [show (UInt32.ofNat (32 - 8 * 0)).toNat % 32 = 0 from rfl, Nat.add_zero,
      Nat.mod_eq_of_lt hi]
    simp only [Nat.mul_zero, Nat.zero_add, Nat.sub_zero, ge_iff_le, Nat.zero_le, decide_true,
      Bool.true_and]
    simp only [show 8 * i + k < 32 from by omega, decide_true, Bool.true_and, Bool.or_self]
  · rw [toNat_shift (by omega)]
    by_cases hlt : i + r < 4
    · rw [Nat.mod_eq_of_lt hlt]
      simp only [show ¬ 8 * i + k ≥ 32 - 8 * r from by omega, decide_false, Bool.false_and,
        Bool.and_false, Bool.or_false]
      congr 1
      omega
    · have hp : 2 ^ 32 ≤ 2 ^ (8 * r + (8 * i + k)) := Nat.pow_le_pow_right (by decide) (by omega)
      rw [Nat.testBit_lt_two_pow (Nat.lt_of_lt_of_le hw hp), Bool.false_or]
      simp only [show 8 * i + k ≥ 32 - 8 * r from by omega, show 8 * i + k < 32 from by omega,
        decide_true, Bool.true_and]
      congr 1
      omega

theorem halfAt_of_bytes {m : Nat → UInt8} {p : Nat} {v : UInt16} (h₀ : m p = v.toUInt8)
    (h₁ : m (p + 1) = (v >>> 8).toUInt8) : halfAt m p = v := by
  have hv := v.toNat_lt
  rw [halfAt, h₀, h₁, ← UInt16.toNat_inj, UInt16.toNat_add, UInt16.toNat_shiftLeft,
    UInt8.toNat_toUInt16, UInt8.toNat_toUInt16, UInt16.toNat_toUInt8, UInt16.toNat_toUInt8,
    UInt16.toNat_shiftRight]
  simp only [show (8 : UInt16).toNat % 16 = 8 from rfl, Nat.shiftRight_eq_div_pow,
    Nat.shiftLeft_eq]
  omega

end Plak1a.Lib.Bytes
