import Plak1a.Lib.Fields
import Plak1a.Touchscreen.I2c

/-!
# Words in the buffer

A word that lies in the buffer with both of its bytes is found by its channel and gives its
result.
-/

namespace Plak1a.Touchscreen.GetAdc

open I2c Lib.Fields

variable {rxBuffer : Nat → UInt8} {conv : Converter}

theorem joined_toNat (rxBuffer : Nat → UInt8) (i : Nat) :
    (joined rxBuffer i).toNat = (rxBuffer i).toNat * 2 ^ 8 + (rxBuffer (i + 1)).toNat := by
  have hhigh := (rxBuffer i).toNat_lt
  have hshift : ((rxBuffer i).toUInt32 <<< 8).toNat = (rxBuffer i).toNat * 2 ^ 8 := by
    rw [toNat_shiftLeft _ 8 rfl (by decide), UInt8.toNat_toUInt32]
    omega
  rw [joined, UInt32.toNat_or, hshift, UInt8.toNat_toUInt32,
    or_eq_add _ (rxBuffer (i + 1)).toNat_lt]

theorem channelOf_eq (j : UInt32) : channelOf j = Int32.ofNat (j.toNat / 2 ^ 12 % 2 ^ 2) := by
  have htag : ((0x3000 &&& j) >>> 12).toNat = j.toNat / 2 ^ 12 % 2 ^ 2 := by
    rw [UInt32.and_comm, toNat_shiftRight _ 12 rfl (by decide), toNat_and_mask j 12 2 (by decide)]
    exact Nat.mul_div_cancel _ (by decide)
  rw [channelOf, ← UInt32.toInt32_ofNat', ← htag, UInt32.ofNat_toNat]

theorem toNat_byte_high (conv : Converter) (n k : Nat) :
    (conv.byte n (2 * k)).toNat = (conv.word n k).toNat / 2 ^ 8 := by
  have hlt := (conv.word n k).toNat_lt
  rw [Converter.byte, if_pos (by omega), show 2 * k / 2 = k from by omega, UInt16.toNat_toUInt8,
    UInt16.toNat_shiftRight, show (8 : UInt16).toNat % 16 = 8 from by decide,
    Nat.shiftRight_eq_div_pow]
  omega

theorem toNat_byte_low (conv : Converter) (n k : Nat) :
    (conv.byte n (2 * k + 1)).toNat = (conv.word n k).toNat % 2 ^ 8 := by
  rw [Converter.byte, if_neg (by omega), show (2 * k + 1) / 2 = k from by omega,
    UInt16.toNat_toUInt8]

/-- Both bytes of a word. -/
theorem joined_word {i n k : Nat} (hhigh : rxBuffer i = conv.byte n (2 * k))
    (hlow : rxBuffer (i + 1) = conv.byte n (2 * k + 1)) :
    (joined rxBuffer i).toNat = (conv.word n k).toNat := by
  rw [joined_toNat, hhigh, hlow, toNat_byte_high, toNat_byte_low]
  omega

theorem field_of_joined {j : UInt32} {n k : Nat} (h : j.toNat = (conv.word n k).toNat) :
    j &&& 0x0FFC = (conv.field n k).toUInt32 := by
  apply UInt32.toNat_inj.mp
  rw [UInt16.toNat_toUInt32, Converter.field, UInt32.toNat_and, UInt16.toNat_and, h]
  rfl

theorem channelOf_of_joined {j : UInt32} {n k : Nat} (h : j.toNat = (conv.word n k).toNat) :
    channelOf j = Int32.ofNat (conv.channel n k) := by
  rw [channelOf_eq, h, Converter.channel]

/-- A result other than -1 is that of a word with the channel. -/
theorem getAdc_found {channel : Int32} (h : getAdc rxBuffer channel ≠ -1) :
    ∃ w < 4, channelOf (joined rxBuffer (2 * w)) = channel ∧
      getAdc rxBuffer channel = joined rxBuffer (2 * w) &&& 0x0FFC := by
  rw [getAdc] at h ⊢
  split at h
  next i hfind =>
    have hchannel : channelOf (joined rxBuffer i) = channel := by simpa using List.find?_some hfind
    have hmem := List.mem_of_find?_eq_some hfind
    obtain ⟨w, hw, rfl⟩ : ∃ w < 4, i = 2 * w := ⟨i / 2, by grind⟩
    exact ⟨w, hw, hchannel, rfl⟩
  next => exact absurd rfl h

/-- The first word with the channel gives the result. -/
theorem getAdc_first {channel : Int32} {w : Nat} (hw : w < 4)
    (hchannel : channelOf (joined rxBuffer (2 * w)) = channel)
    (hbefore : ∀ v < w, channelOf (joined rxBuffer (2 * v)) ≠ channel) :
    getAdc rxBuffer channel = joined rxBuffer (2 * w) &&& 0x0FFC := by
  have hfind : [0, 2, 4, 6].find? (fun i => channelOf (joined rxBuffer i) = channel) =
      some (2 * w) := by
    have hsplit : ∀ w < 4, [0, 2, 4, 6] =
        (List.range w).map (2 * ·) ++ 2 * w :: (List.range' (w + 1) (3 - w)).map (2 * ·) := by
      decide
    refine List.find?_eq_some_iff_append.mpr ⟨decide_eq_true hchannel, _, _, hsplit w hw, ?_⟩
    intro a ha
    obtain ⟨v, hv, rfl⟩ := List.mem_map.mp ha
    rw [decide_eq_false (hbefore v (List.mem_range.mp hv))]
    rfl
  rw [getAdc, hfind]

end Plak1a.Touchscreen.GetAdc
