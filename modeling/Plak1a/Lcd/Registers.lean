import Plak1a.Lcd.Et0320fb

/-!
# Which register a read gives

A write presents its register encoded, a read as it is, and the panel decodes both: the
read goes to the register with about half the number. Repeated, this leads to register 0
from everywhere, so reads can be right about all registers only if the registers are all
alike.
-/

namespace Plak1a.Lcd.Registers

open Ili9320 Et0320fb

/-- The register the panel takes a number on the bus for. -/
def misread (regno : UInt16) : UInt16 := wordOf regno.toUInt32

/-- A read gives the value of the register just written, and of any other what it held. -/
def RoundTrips (p : RegisterFile) (regno value : UInt16) : Prop :=
  (readreg regno (writereg regno value.toUInt32 p)).1 = value.toUInt32 ∧
    ∀ r, r ≠ regno →
      (readreg r (writereg regno value.toUInt32 p)).1 = (p.regs r).toUInt32

variable {p : RegisterFile} {regno value r : UInt16}

theorem writereg_regs (p : RegisterFile) (regno value : UInt16) :
    (writereg regno value.toUInt32 p).regs = Function.update p.regs regno value := by
  show Function.update p.regs (wordOf (convert16To18 regno.toUInt32))
    (wordOf (convert16To18 value.toUInt32)) = _
  rw [wordOf_convert16To18, wordOf_convert16To18]

theorem readreg_fst (r : UInt16) (p : RegisterFile) :
    (readreg r p).1 = (p.regs (misread r)).toUInt32 := lcdTo16Bit_convert16To18 _

theorem toNat_misread (r : UInt16) :
    (misread r).toNat = r.toNat / 2 ^ 10 % 2 ^ 8 * 2 ^ 8 + r.toNat / 2 ^ 1 % 2 ^ 8 := by
  rw [misread, toNat_wordOf, toNat_lcdTo16Bit, UInt16.toNat_toUInt32]

theorem misread_lt (h : r ≠ 0) : (misread r).toNat < r.toNat := by
  have hpos : r.toNat ≠ 0 := fun h0 => h (UInt16.toNat_inj.mp h0)
  have hhigh := Nat.mod_le (r.toNat / 2 ^ 10) (2 ^ 8)
  have hlow := Nat.mod_le (r.toNat / 2 ^ 1) (2 ^ 8)
  rw [toNat_misread]
  omega

theorem misread_zero : misread 0 = 0 := by decide

theorem misread_eq_iff : misread r = r ↔ r = 0 := by
  constructor
  · intro h
    by_contra h0
    have hlt := misread_lt h0
    rw [h] at hlt
    exact Nat.lt_irrefl _ hlt
  · intro h
    rw [h, misread_zero]

/-- What is the same in every register and the one it is misread as is the same in all. -/
theorem eq_zero_of_misread {f : UInt16 → UInt16} (h : ∀ r, f (misread r) = f r) (r : UInt16) :
    f r = f 0 := by
  induction hn : r.toNat using Nat.strongRecOn generalizing r with
  | _ n ih =>
    by_cases h0 : r = 0
    · rw [h0]
    · rw [← h r]
      exact ih _ (hn ▸ misread_lt h0) _ rfl

theorem roundTrips_iff_misread : RoundTrips p regno value ↔
    ∀ r, Function.update p.regs regno value (misread r) =
      Function.update p.regs regno value r := by
  unfold RoundTrips
  simp only [readreg_fst, writereg_regs, UInt16.toUInt32_inj]
  constructor
  · intro h r
    by_cases hr : r = regno
    · rw [hr, h.1, Function.update_self]
    · rw [h.2 r hr, Function.update_of_ne hr]
  · intro h
    refine ⟨?_, fun r hr => ?_⟩
    · rw [h regno, Function.update_self]
    · rw [h r, Function.update_of_ne hr]

/-- A write and all reads behind it round-trip exactly if every other register holds the
value already; and the reads of a register are right, whatever the registers hold and
whatever is written, exactly if it is register 0. -/
theorem roundTrips_iff (p : RegisterFile) (regno value : UInt16) :
    (RoundTrips p regno value ↔ ∀ r, r ≠ regno → p.regs r = value) ∧
    ∀ r : UInt16, (∀ (q : RegisterFile) (written v : UInt16),
      (readreg r (writereg written v.toUInt32 q)).1 =
        (Function.update q.regs written v r).toUInt32) ↔ r = 0 := by
  refine ⟨?_, fun r => ?_⟩
  · rw [roundTrips_iff_misread]
    constructor
    · intro h r hr
      have hreg := eq_zero_of_misread h regno
      rw [Function.update_self] at hreg
      have hother := eq_zero_of_misread h r
      rw [Function.update_of_ne hr] at hother
      exact hother.trans hreg.symm
    · intro h r
      have hall : ∀ r, Function.update p.regs regno value r = value := by
        intro r
        by_cases hr : r = regno
        · rw [hr, Function.update_self]
        · rw [Function.update_of_ne hr, h r hr]
      rw [hall, hall]
  · constructor
    · intro h
      by_contra h0
      have hne : misread r ≠ r := fun heq => h0 (misread_eq_iff.mp heq)
      have hread := h ⟨0, fun _ => 0⟩ r 1
      rw [readreg_fst, writereg_regs, Function.update_self, Function.update_of_ne hne] at hread
      exact absurd (UInt16.toUInt32_inj.mp hread) (show (0 : UInt16) ≠ 1 by decide)
    · intro h q written v
      rw [readreg_fst, writereg_regs, h, misread_zero]

/-- Register 2 is read as register 1, whose encoding its number is. -/
theorem registerTwo_misread :
    ¬ RoundTrips ⟨0, fun _ => 0⟩ 2 0x0700 ∧ convert16To18 1 = (2 : UInt16).toUInt32 := by
  refine ⟨fun h => ?_, by decide⟩
  have hread := h.1
  revert hread
  decide

end Plak1a.Lcd.Registers
