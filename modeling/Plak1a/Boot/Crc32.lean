import Mathlib.Data.List.GetD
import Plak1a.Lib.Remainder

/-!
# The boot loader's `crc32`

`uLong` has 32 bits on this machine. The code reads a table, eight bytes a round, where a
register takes in single bits; the register holds the remainder of a division of polynomials
over the two-element field.
-/

namespace Plak1a.Boot.Crc32

open Lib.ShiftRegister Lib.Remainder
open scoped Polynomial
open Polynomial (X)

/-- `crc_table` -/
def crcTable : List UInt32 :=
  [0x00000000, 0x77073096, 0xee0e612c, 0x990951ba, 0x076dc419, 0x706af48f, 0xe963a535, 0x9e6495a3,
  0x0edb8832, 0x79dcb8a4, 0xe0d5e91e, 0x97d2d988, 0x09b64c2b, 0x7eb17cbd, 0xe7b82d07, 0x90bf1d91,
  0x1db71064, 0x6ab020f2, 0xf3b97148, 0x84be41de, 0x1adad47d, 0x6ddde4eb, 0xf4d4b551, 0x83d385c7,
  0x136c9856, 0x646ba8c0, 0xfd62f97a, 0x8a65c9ec, 0x14015c4f, 0x63066cd9, 0xfa0f3d63, 0x8d080df5,
  0x3b6e20c8, 0x4c69105e, 0xd56041e4, 0xa2677172, 0x3c03e4d1, 0x4b04d447, 0xd20d85fd, 0xa50ab56b,
  0x35b5a8fa, 0x42b2986c, 0xdbbbc9d6, 0xacbcf940, 0x32d86ce3, 0x45df5c75, 0xdcd60dcf, 0xabd13d59,
  0x26d930ac, 0x51de003a, 0xc8d75180, 0xbfd06116, 0x21b4f4b5, 0x56b3c423, 0xcfba9599, 0xb8bda50f,
  0x2802b89e, 0x5f058808, 0xc60cd9b2, 0xb10be924, 0x2f6f7c87, 0x58684c11, 0xc1611dab, 0xb6662d3d,
  0x76dc4190, 0x01db7106, 0x98d220bc, 0xefd5102a, 0x71b18589, 0x06b6b51f, 0x9fbfe4a5, 0xe8b8d433,
  0x7807c9a2, 0x0f00f934, 0x9609a88e, 0xe10e9818, 0x7f6a0dbb, 0x086d3d2d, 0x91646c97, 0xe6635c01,
  0x6b6b51f4, 0x1c6c6162, 0x856530d8, 0xf262004e, 0x6c0695ed, 0x1b01a57b, 0x8208f4c1, 0xf50fc457,
  0x65b0d9c6, 0x12b7e950, 0x8bbeb8ea, 0xfcb9887c, 0x62dd1ddf, 0x15da2d49, 0x8cd37cf3, 0xfbd44c65,
  0x4db26158, 0x3ab551ce, 0xa3bc0074, 0xd4bb30e2, 0x4adfa541, 0x3dd895d7, 0xa4d1c46d, 0xd3d6f4fb,
  0x4369e96a, 0x346ed9fc, 0xad678846, 0xda60b8d0, 0x44042d73, 0x33031de5, 0xaa0a4c5f, 0xdd0d7cc9,
  0x5005713c, 0x270241aa, 0xbe0b1010, 0xc90c2086, 0x5768b525, 0x206f85b3, 0xb966d409, 0xce61e49f,
  0x5edef90e, 0x29d9c998, 0xb0d09822, 0xc7d7a8b4, 0x59b33d17, 0x2eb40d81, 0xb7bd5c3b, 0xc0ba6cad,
  0xedb88320, 0x9abfb3b6, 0x03b6e20c, 0x74b1d29a, 0xead54739, 0x9dd277af, 0x04db2615, 0x73dc1683,
  0xe3630b12, 0x94643b84, 0x0d6d6a3e, 0x7a6a5aa8, 0xe40ecf0b, 0x9309ff9d, 0x0a00ae27, 0x7d079eb1,
  0xf00f9344, 0x8708a3d2, 0x1e01f268, 0x6906c2fe, 0xf762575d, 0x806567cb, 0x196c3671, 0x6e6b06e7,
  0xfed41b76, 0x89d32be0, 0x10da7a5a, 0x67dd4acc, 0xf9b9df6f, 0x8ebeeff9, 0x17b7be43, 0x60b08ed5,
  0xd6d6a3e8, 0xa1d1937e, 0x38d8c2c4, 0x4fdff252, 0xd1bb67f1, 0xa6bc5767, 0x3fb506dd, 0x48b2364b,
  0xd80d2bda, 0xaf0a1b4c, 0x36034af6, 0x41047a60, 0xdf60efc3, 0xa867df55, 0x316e8eef, 0x4669be79,
  0xcb61b38c, 0xbc66831a, 0x256fd2a0, 0x5268e236, 0xcc0c7795, 0xbb0b4703, 0x220216b9, 0x5505262f,
  0xc5ba3bbe, 0xb2bd0b28, 0x2bb45a92, 0x5cb36a04, 0xc2d7ffa7, 0xb5d0cf31, 0x2cd99e8b, 0x5bdeae1d,
  0x9b64c2b0, 0xec63f226, 0x756aa39c, 0x026d930a, 0x9c0906a9, 0xeb0e363f, 0x72076785, 0x05005713,
  0x95bf4a82, 0xe2b87a14, 0x7bb12bae, 0x0cb61b38, 0x92d28e9b, 0xe5d5be0d, 0x7cdcefb7, 0x0bdbdf21,
  0x86d3d2d4, 0xf1d4e242, 0x68ddb3f8, 0x1fda836e, 0x81be16cd, 0xf6b9265b, 0x6fb077e1, 0x18b74777,
  0x88085ae6, 0xff0f6a70, 0x66063bca, 0x11010b5c, 0x8f659eff, 0xf862ae69, 0x616bffd3, 0x166ccf45,
  0xa00ae278, 0xd70dd2ee, 0x4e048354, 0x3903b3c2, 0xa7672661, 0xd06016f7, 0x4969474d, 0x3e6e77db,
  0xaed16a4a, 0xd9d65adc, 0x40df0b66, 0x37d83bf0, 0xa9bcae53, 0xdebb9ec5, 0x47b2cf7f, 0x30b5ffe9,
  0xbdbdf21c, 0xcabac28a, 0x53b39330, 0x24b4a3a6, 0xbad03605, 0xcdd70693, 0x54de5729, 0x23d967bf,
  0xb3667a2e, 0xc4614ab8, 0x5d681b02, 0x2a6f2b94, 0xb40bbe37, 0xc30c8ea1, 0x5a05df1b, 0x2d02ef8d]

/-- `DO1` -/
def do1 (crc : UInt32) (b : UInt8) : UInt32 :=
  crcTable.getD ((crc ^^^ b.toUInt32) &&& 0xff).toNat 0 ^^^ (crc >>> 8)

/-- `DO8` -/
def do8 (crc : UInt32) (buf : List UInt8) : UInt32 := (buf.take 8).foldl do1 crc

/-- The loops of `crc32`: eight bytes in each round of the first one, then the rest one by one. -/
def crcLoop : (rounds : Nat) → UInt32 → List UInt8 → UInt32
  | 0, crc, buf => buf.foldl do1 crc
  | rounds + 1, crc, buf => crcLoop rounds (do8 crc buf) (buf.drop 8)

def crc32 (crc : UInt32) (buf : List UInt8) : UInt32 :=
  crcLoop (buf.length / 8) (crc ^^^ 0xffffffff) buf ^^^ 0xffffffff

/-- The terms of the polynomial in `make_crc_table`. -/
def terms : List UInt32 := [0, 1, 2, 4, 5, 7, 8, 10, 11, 12, 16, 22, 23, 26]

def poly : UInt32 := terms.foldl (fun poly n => poly ||| (1 : UInt32) <<< (31 - n)) 0

/-- A round of the inner loop of `make_crc_table`. -/
def shiftOnce (c : UInt32) : UInt32 := if c &&& 1 ≠ 0 then poly ^^^ (c >>> 1) else c >>> 1

/-- The table that `make_crc_table` makes for `DYNAMIC_CRC_TABLE`. -/
def makeCrcTable : List UInt32 :=
  (List.range 256).map fun n => Nat.iterate shiftOnce 8 (UInt32.ofNat n)

/-- The bits of a byte in the order in which they are sent, the lowest first. -/
def bits (b : UInt8) : List Bool := (List.range 8).map b.toBitVec.getLsbD

def message (buf : List UInt8) : List Bool := buf.flatMap bits

/-- The register starts and ends complemented; the message comes in bit by bit. -/
def bitByBit (crc : UInt32) (buf : List UInt8) : UInt32 :=
  ⟨feed poly.toBitVec (crc ^^^ 0xffffffff).toBitVec (message buf)⟩ ^^^ 0xffffffff

/-- The polynomial of the code: the terms, and `X ^ 32`. -/
noncomputable def crcPolynomial : (ZMod 2)[X] := X ^ 32 + (terms.map fun n => X ^ n.toNat).sum

/-- What a sum stands for: the register before it is complemented. -/
noncomputable def register (crc : UInt32) : (ZMod 2)[X] :=
  polynomial (crc ^^^ 0xffffffff).toBitVec

variable {crc : UInt32} {buf buf' : List UInt8} {i : Nat}

/-- The table of the source is the one that is made. -/
theorem crcTable_eq : crcTable = makeCrcTable := by decide +kernel

theorem shiftOnce_toBitVec (c : UInt32) :
    (shiftOnce c).toBitVec = shift poly.toBitVec c.toBitVec := by
  have hlow : c &&& 1 ≠ 0 ↔ c.toBitVec.getLsbD 0 = true := by
    rw [ne_eq, ← UInt32.toNat_inj, UInt32.toNat_and, BitVec.getLsbD, UInt32.toNat_toBitVec,
      Nat.testBit_zero, decide_eq_true_iff]
    show ¬ c.toNat &&& 1 = 0 ↔ c.toNat % 2 = 1
    rw [Nat.and_one_is_mod]
    omega
  rw [shiftOnce, shift]
  by_cases h : c &&& 1 ≠ 0
  · rw [if_pos h, if_pos (hlow.mp h)]
    rfl
  · rw [if_neg h, if_neg (fun hb => h (hlow.mpr hb))]
    rfl

theorem iterate_toBitVec (n : Nat) (c : UInt32) :
    (Nat.iterate shiftOnce n c).toBitVec = shifts poly.toBitVec n c.toBitVec := by
  induction n generalizing c with
  | zero => rfl
  | succ n ih => rw [Function.iterate_succ_apply, ih, shiftOnce_toBitVec, shifts]

theorem crcTable_getD (h : i < 256) :
    (crcTable.getD i 0).toBitVec = shifts poly.toBitVec 8 (BitVec.ofNat 32 i) := by
  have hlength : i < makeCrcTable.length := by
    rw [makeCrcTable, List.length_map, List.length_range]
    exact h
  rw [crcTable_eq, List.getD_eq_getElem _ _ hlength]
  simp only [makeCrcTable, List.getElem_map, List.getElem_range, iterate_toBitVec]
  rfl

theorem getLsbD_ff (k : Nat) : (0xff : UInt32).toBitVec.getLsbD k = decide (k < 8) := by
  rw [BitVec.getLsbD, show (0xff : UInt32).toBitVec.toNat = 2 ^ 8 - 1 from rfl,
    Nat.testBit_two_pow_sub_one]

theorem do1_toBitVec (crc : UInt32) (b : UInt8) :
    (do1 crc b).toBitVec = shifts poly.toBitVec 8 (crc ^^^ b.toUInt32).toBitVec := by
  have hindex : ((crc ^^^ b.toUInt32) &&& 0xff).toNat < 256 := by
    rw [UInt32.toNat_and]
    exact Nat.lt_of_le_of_lt Nat.and_le_right (by decide)
  have hlow : ∀ k < 8, (crc ^^^ b.toUInt32).toBitVec.getLsbD k =
      ((crc ^^^ b.toUInt32) &&& 0xff).toBitVec.getLsbD k := by
    intro k hk
    rw [UInt32.toBitVec_and, BitVec.getLsbD_and, getLsbD_ff, decide_eq_true hk, Bool.and_true]
  have hrest : ((crc ^^^ b.toUInt32).toBitVec ^^^ ((crc ^^^ b.toUInt32) &&& 0xff).toBitVec) >>> 8 =
      (crc >>> 8).toBitVec := by
    apply BitVec.eq_of_getLsbD_eq
    intro k _
    have hbyte : b.toUInt32.toBitVec.getLsbD (8 + k) = false := by
      rw [UInt8.toBitVec_toUInt32, BitVec.getLsbD_setWidth, BitVec.getLsbD_of_ge b.toBitVec]
      · exact Bool.and_false _
      · omega
    rw [UInt32.toBitVec_shiftRight, BitVec.getLsbD_ushiftRight, BitVec.getLsbD_xor,
      UInt32.toBitVec_and, BitVec.getLsbD_and, getLsbD_ff, UInt32.toBitVec_xor, BitVec.getLsbD_xor,
      hbyte, decide_eq_false (show ¬ 8 + k < 8 by omega), Bool.and_false, Bool.xor_false,
      Bool.xor_false]
    exact (BitVec.getLsbD_ushiftRight crc.toBitVec 8 k).symm
  rw [shifts_of_low hlow, hrest, do1, UInt32.toBitVec_xor, crcTable_getD hindex]
  congr 2
  exact BitVec.ofNat_toNat ..

theorem bits_length (b : UInt8) : (bits b).length = 8 := by
  rw [bits, List.length_map, List.length_range]

theorem word_bits (b : UInt8) : word 32 (bits b) = b.toUInt32.toBitVec := by
  apply BitVec.eq_of_getLsbD_eq
  intro k hk
  rw [getLsbD_word, decide_eq_true hk, Bool.true_and, UInt8.toBitVec_toUInt32,
    BitVec.getLsbD_setWidth, decide_eq_true hk, Bool.true_and, bits]
  by_cases h : k < 8
  · rw [List.getD_eq_getElem _ _ (by rw [List.length_map, List.length_range]; exact h),
      List.getElem_map, List.getElem_range]
  · rw [List.getD_eq_default _ _ (by rw [List.length_map, List.length_range]; omega),
      BitVec.getLsbD_of_ge b.toBitVec k (by omega)]

theorem feed_bits (crc : UInt32) (b : UInt8) :
    feed poly.toBitVec crc.toBitVec (bits b) = (do1 crc b).toBitVec := by
  rw [feed_eq_shifts poly.toBitVec (by rw [bits_length]; decide), bits_length, word_bits,
    do1_toBitVec, UInt32.toBitVec_xor]

theorem feed_message (crc : UInt32) (buf : List UInt8) :
    feed poly.toBitVec crc.toBitVec (message buf) = (buf.foldl do1 crc).toBitVec := by
  induction buf generalizing crc with
  | nil => rfl
  | cons b buf ih =>
    rw [message, List.flatMap_cons, feed_append, feed_bits, List.foldl_cons, ← ih]
    rfl

theorem crcLoop_eq (rounds : Nat) (crc : UInt32) (buf : List UInt8) :
    crcLoop rounds crc buf = buf.foldl do1 crc := by
  induction rounds generalizing crc buf with
  | zero => rfl
  | succ rounds ih => rw [crcLoop, ih, do8, ← List.foldl_append, List.take_append_drop]

/-- The table and the rounds of eight bytes do what the single bits do. -/
theorem crc32_eq_bitByBit (crc : UInt32) (buf : List UInt8) :
    crc32 crc buf = bitByBit crc buf := by
  rw [crc32, bitByBit, crcLoop_eq, feed_message]

example : crc32 0 [0x31, 0x32, 0x33, 0x34, 0x35, 0x36, 0x37, 0x38, 0x39] = 0xCBF43926 := by
  decide +kernel

/-- Parts of a buffer can be summed one after the other. -/
theorem crc32_append (crc : UInt32) (buf buf' : List UInt8) :
    crc32 crc (buf ++ buf') = crc32 (crc32 crc buf) buf' := by
  have hcancel : ∀ c : UInt32, c ^^^ 0xffffffff ^^^ 0xffffffff = c := fun c => by
    rw [UInt32.xor_assoc, UInt32.xor_self, UInt32.xor_zero]
  rw [crc32, crc32, crc32, crcLoop_eq, crcLoop_eq, crcLoop_eq, List.foldl_append, hcancel]

theorem message_length (buf : List UInt8) : (message buf).length = 8 * buf.length := by
  induction buf with
  | nil => rfl
  | cons b buf ih =>
    rw [message, List.flatMap_cons, List.length_append, bits_length, List.length_cons, Nat.mul_add,
      Nat.add_comm]
    exact congrArg (· + 8) ih

theorem coefficients_poly : ∀ k < 32, coefficient (poly.toBitVec.getLsbD (31 - k)) =
    (terms.map fun n => if k = n.toNat then (1 : ZMod 2) else 0).sum := by decide +kernel

theorem generator_poly : generator poly.toBitVec = crcPolynomial := by
  have hterms : ∀ n ∈ terms, n.toNat < 32 := by simp [terms]
  have hpolynomial : polynomial poly.toBitVec = (terms.map fun n => X ^ n.toNat).sum := by
    ext k
    rw [coeff_polynomial, Polynomial.coeff_list_sum_map]
    simp only [Polynomial.coeff_X_pow]
    by_cases hk : k < 32
    · rw [decide_eq_true hk, Bool.true_and]
      exact coefficients_poly k hk
    · rw [decide_eq_false hk, Bool.false_and]
      refine (List.sum_eq_zero fun x hx => ?_).symm
      obtain ⟨n, hn, rfl⟩ := List.mem_map.mp hx
      have hlt := hterms n hn
      exact if_neg (by omega)
  rw [generator, crcPolynomial, hpolynomial]

theorem register_crc32 (crc : UInt32) (buf : List UInt8) :
    register (crc32 crc buf) =
      (X ^ (message buf).length * register crc + X ^ 32 * ofBits (message buf)) %ₘ
        crcPolynomial := by
  have hfeed : crc32 crc buf ^^^ 0xffffffff =
      ⟨feed poly.toBitVec (crc ^^^ 0xffffffff).toBitVec (message buf)⟩ := by
    rw [crc32_eq_bitByBit, bitByBit, UInt32.xor_assoc, UInt32.xor_self, UInt32.xor_zero]
  rw [register, hfeed, feed_eq_remainder (by decide), generator_poly, register]

/-- The table of the source is the one that is made from the polynomial, and the sum of a buffer
in two parts stands for the remainder of all its bits behind the start value. -/
theorem crc32_parts (crc : UInt32) (buf buf' : List UInt8) :
    crcTable = makeCrcTable ∧
      register (crc32 (crc32 crc buf) buf') =
        (X ^ (8 * (buf ++ buf').length) * register crc + X ^ 32 * ofBits (message (buf ++ buf'))) %ₘ
          crcPolynomial := by
  rw [← crc32_append, ← message_length]
  exact ⟨crcTable_eq, register_crc32 crc (buf ++ buf')⟩

/-- Two buffers of one length whose bits in this order are the same but for 32 consecutive
ones. -/
def Burst (buf buf' : List UInt8) : Prop :=
  buf.length = buf'.length ∧ ∃ i, (message buf).take i = (message buf').take i ∧
    (message buf).drop (i + 32) = (message buf').drop (i + 32)

theorem message_injective (hlength : buf.length = buf'.length) (h : message buf = message buf') :
    buf = buf' := by
  induction buf generalizing buf' with
  | nil => exact (List.length_eq_zero_iff.mp hlength.symm).symm
  | cons b buf ih =>
    cases buf' with
    | nil => cases hlength
    | cons b' buf' =>
      rw [message, message, List.flatMap_cons, List.flatMap_cons] at h
      obtain ⟨hbits, hrest⟩ := List.append_inj h ((bits_length b).trans (bits_length b').symm)
      have hbyte : b.toUInt32.toBitVec = b'.toUInt32.toBitVec := by
        rw [← word_bits, ← word_bits, hbits]
      rw [UInt8.toUInt32_inj.mp (UInt32.toBitVec_inj.mp hbyte),
        ih (Nat.succ.inj hlength) hrest]

/-- A change of a buffer within 32 consecutive bits changes its sum. -/
theorem crc32_detects (h : Burst buf buf') (hne : buf ≠ buf') :
    crc32 crc buf ≠ crc32 crc buf' := by
  obtain ⟨hlength, i, hpre, hpost⟩ := h
  have hsplit : ∀ buf : List UInt8, message buf =
      (message buf).take i ++ ((message buf).drop i).take 32 ++ (message buf).drop (i + 32) := by
    intro buf
    rw [← List.drop_drop, List.append_assoc, List.take_append_drop, List.take_append_drop]
  have hbits : (message buf).length = (message buf').length := by
    rw [message_length, message_length, hlength]
  have hdiffer : ((message buf).drop i).take 32 ≠ ((message buf').drop i).take 32 := by
    intro heq
    apply hne (message_injective hlength _)
    rw [hsplit buf, hsplit buf', hpre, heq, hpost]
  have hpoly : poly.toBitVec.msb = true := by decide
  have hregister := feed_burst (crc ^^^ 0xffffffff).toBitVec ((message buf).take i)
    ((message buf).drop (i + 32)) hpoly (List.length_take_le 32 _)
    (by rw [List.length_take, List.length_take, List.length_drop, List.length_drop, hbits]) hdiffer
  intro heq
  apply hregister
  rw [← hsplit buf, hpre, hpost, ← hsplit buf']
  rw [crc32_eq_bitByBit, crc32_eq_bitByBit] at heq
  exact congrArg UInt32.toBitVec ((UInt32.xor_left_inj _).mp heq)

/-- Two bytes exchanged in the middle of a buffer. -/
theorem crc32_detects_exchange : crc32 0 [0x70, 0x61, 0x3d, 0x31, 0x32, 0x33, 0x34, 0x00] ≠
    crc32 0 [0x70, 0x3d, 0x61, 0x31, 0x32, 0x33, 0x34, 0x00] :=
  crc32_detects ⟨rfl, 8, rfl, rfl⟩ (by decide)

end Plak1a.Boot.Crc32
