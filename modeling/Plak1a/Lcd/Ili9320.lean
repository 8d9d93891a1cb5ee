import Mathlib.Logic.Function.Basic
import Plak1a.Lib.Fields
import Plak1a.Lib.Ring

/-!
# The ILI9320 behind its 18-bit bus

The panel takes 16-bit words from the lines 17 to 10 and 8 to 1 of the bus and keeps the
pixels of its GRAM as all 18 lines give them. The window is the whole screen, so that the
address counter advances along a line, then to the next one, and from the last pixel to the
first. The counter takes over the address of the registers 0x20 and 0x21 when 0x21 is written,
as the datasheet says of RM = 0. The two encodings have the same text in both display drivers.
-/

namespace Plak1a.Lcd.Ili9320

open Lib.Fields

def columns : Nat := 240

def rows : Nat := 320

def cells : Nat := columns * rows

def convert16To18 (val : UInt32) : UInt32 :=
  let vl : UInt32 := (val <<< 1) &&& 0x1fe
  let vh : UInt32 := (val <<< 2) &&& 0x3fc00
  vh ||| vl

/-- `LCDTO16Bit` -/
def lcdTo16Bit (v : UInt32) : UInt32 :=
  let low : UInt32 := (v >>> 1) &&& 0xff
  let high : UInt32 := (v >>> 2) &&& 0xff00
  low ||| high

/-- The word the panel takes from the bus. -/
def wordOf (bus : UInt32) : UInt16 :=
  (bus >>> 10).toUInt8.toUInt16 <<< 8 ||| (bus >>> 1).toUInt8.toUInt16

/-- The 18 lines of the bus -/
def lines (bus : UInt32) : UInt32 := bus &&& 0x3ffff

/-- `column` is the address in register 0x20, and `counter` the cell the next pixel goes to,
counted along the lines. -/
structure Panel where
  index : UInt16
  column : Nat
  counter : Nat
  counter_lt : counter < cells
  gram : Nat → UInt32

namespace Panel

/-- A write to the index register, at `regs`. -/
def writeIndex (bus : UInt32) (p : Panel) : Panel := { p with index := wordOf bus }

/-- The horizontal address, register 0x20, is only kept; it has 8 bits. -/
def setColumn (v : Nat) (p : Panel) : Panel := { p with column := v % 2 ^ 8 }

/-- With the vertical address, register 0x21, the whole address goes to the counter. The window
is not left. -/
def setRow (v : Nat) (p : Panel) : Panel :=
  { p with
    counter := v % 2 ^ 9 % rows * columns + p.column % columns
    counter_lt := by
      simp only [cells, columns, rows]
      omega }

/-- A pixel, register 0x22. -/
def store (bus : UInt32) (p : Panel) : Panel :=
  { p with
    gram := Function.update p.gram p.counter (lines bus)
    counter := (p.counter + 1) % cells
    counter_lt := Nat.mod_lt _ (by decide) }

/-- A write to the register the index selects, at `regs + 4`; the others do not concern the
GRAM. -/
def writeData (bus : UInt32) (p : Panel) : Panel :=
  if p.index = 0x20 then p.setColumn (wordOf bus).toNat
  else if p.index = 0x21 then p.setRow (wordOf bus).toNat
  else if p.index = 0x22 then p.store bus
  else p

/-- The first `n` of some words, written one after the other. -/
def writeWords (words : Nat → UInt32) : Nat → Panel → Panel
  | 0, p => p
  | n + 1, p => (writeWords words n p).writeData (words n)

end Panel

theorem toNat_convert16To18 (val : UInt32) :
    (convert16To18 val).toNat = val.toNat / 2 ^ 8 % 2 ^ 8 * 2 ^ 10 + val.toNat % 2 ^ 8 * 2 := by
  have hlow : ((val <<< 1) &&& 0x1fe).toNat = val.toNat % 2 ^ 8 * 2 := by
    rw [toNat_and_mask _ 1 8 rfl, toNat_shiftLeft _ 1 rfl (by decide)]
    omega
  have hhigh : ((val <<< 2) &&& 0x3fc00).toNat = val.toNat / 2 ^ 8 % 2 ^ 8 * 2 ^ 10 := by
    rw [toNat_and_mask _ 10 8 rfl, toNat_shiftLeft _ 2 rfl (by decide)]
    omega
  unfold convert16To18
  dsimp only
  rw [UInt32.toNat_or, hlow, hhigh, or_eq_add _ (by omega)]

theorem toNat_lcdTo16Bit (v : UInt32) :
    (lcdTo16Bit v).toNat = v.toNat / 2 ^ 10 % 2 ^ 8 * 2 ^ 8 + v.toNat / 2 ^ 1 % 2 ^ 8 := by
  have hlow : ((v >>> 1) &&& 0xff).toNat = v.toNat / 2 ^ 1 % 2 ^ 8 := by
    rw [toNat_and_mask _ 0 8 rfl, toNat_shiftRight _ 1 rfl (by decide)]
    omega
  have hhigh : ((v >>> 2) &&& 0xff00).toNat = v.toNat / 2 ^ 10 % 2 ^ 8 * 2 ^ 8 := by
    rw [toNat_and_mask _ 8 8 rfl, toNat_shiftRight _ 2 rfl (by decide)]
    omega
  rw [lcdTo16Bit, UInt32.toNat_or, hlow, hhigh, Nat.or_comm, or_eq_add _ (by omega)]

/-- The panel reads a word as the driver reads one of the panel. -/
theorem toNat_wordOf (bus : UInt32) : (wordOf bus).toNat = (lcdTo16Bit bus).toNat := by
  have hhigh : ((bus >>> 10).toUInt8.toUInt16 <<< 8).toNat =
      bus.toNat / 2 ^ 10 % 2 ^ 8 * 2 ^ 8 := by
    rw [UInt16.toNat_shiftLeft, UInt8.toNat_toUInt16, UInt32.toNat_toUInt8,
      toNat_shiftRight _ 10 rfl (by decide), show (8 : UInt16).toNat % 16 = 8 from rfl,
      Nat.shiftLeft_eq]
    omega
  have hlow : (bus >>> 1).toUInt8.toUInt16.toNat = bus.toNat / 2 ^ 1 % 2 ^ 8 := by
    rw [UInt8.toNat_toUInt16, UInt32.toNat_toUInt8, toNat_shiftRight _ 1 rfl (by decide)]
  rw [toNat_lcdTo16Bit, wordOf, UInt16.toNat_or, hhigh, hlow, or_eq_add _ (by omega)]

/-- The panel decodes what `Convert16To18` encodes. -/
theorem wordOf_convert16To18 (v : UInt16) : wordOf (convert16To18 v.toUInt32) = v := by
  have hv := v.toNat_lt
  rw [← UInt16.toNat_inj, toNat_wordOf, toNat_lcdTo16Bit, toNat_convert16To18,
    UInt16.toNat_toUInt32]
  omega

theorem lcdTo16Bit_convert16To18 (v : UInt16) :
    lcdTo16Bit (convert16To18 v.toUInt32) = v.toUInt32 := by
  have hv := v.toNat_lt
  rw [← UInt32.toNat_inj, toNat_lcdTo16Bit, toNat_convert16To18, UInt16.toNat_toUInt32]
  omega

theorem toNat_lines (bus : UInt32) : (lines bus).toNat = bus.toNat % 2 ^ 18 := by
  rw [lines, toNat_and_mask _ 0 18 rfl]
  omega

namespace Panel

variable {p : Panel} {bus : UInt32} {n j : Nat}

theorem index_writeIndex {v : UInt16} (h : bus = convert16To18 v.toUInt32) (p : Panel) :
    (p.writeIndex bus).index = v := by
  rw [h]
  exact wordOf_convert16To18 v

theorem writeData_of_column (h : p.index = 0x20) (bus : UInt32) :
    p.writeData bus = { p with column := (wordOf bus).toNat % 2 ^ 8 } := by
  rw [writeData, if_pos h]
  rfl

theorem counter_writeRow (h : p.index = 0x21) (hbus : wordOf bus = 0) :
    (p.writeData bus).counter = p.column % columns := by
  rw [writeData, h, if_neg (by decide), if_pos rfl, hbus]
  show 0 % 2 ^ 9 % rows * columns + _ = _
  rw [Nat.zero_mod, Nat.zero_mod, Nat.zero_mul, Nat.zero_add]

theorem writeData_of_gram (h : p.index = 0x22) (bus : UInt32) : p.writeData bus = p.store bus := by
  rw [writeData, h]
  rfl

/-- The pixels go to the cells from the counter on. -/
theorem writeWords_spec (words : Nat → UInt32) (h : p.index = 0x22) (hn : n ≤ cells) :
    (p.writeWords words n).index = 0x22 ∧
      (p.writeWords words n).counter = (p.counter + n) % cells ∧
      ∀ i < n, (p.writeWords words n).gram ((p.counter + i) % cells) = lines (words i) := by
  induction n with
  | zero =>
    refine ⟨h, (Nat.mod_eq_of_lt p.counter_lt).symm, fun i hi => ?_⟩
    exact absurd hi (Nat.not_lt_zero i)
  | succ n ih =>
    obtain ⟨hindex, hcounter, hgram⟩ := ih (Nat.le_of_succ_le hn)
    rw [writeWords, writeData_of_gram hindex]
    refine ⟨hindex, ?_, fun i hi => ?_⟩
    · show (_ + 1) % cells = _
      rw [hcounter, Nat.mod_add_mod, Nat.add_assoc]
    · show Function.update _ _ _ _ = _
      rw [hcounter]
      by_cases hlast : i = n
      · rw [hlast, Function.update_self]
      · have hne : (p.counter + i) % cells ≠ (p.counter + n) % cells := fun heq =>
          hlast (Lib.Ring.slot_injective p.counter_lt (by omega) hn heq)
        rw [Function.update_of_ne hne]
        exact hgram i (by omega)

/-- A transfer of a whole screen fills every cell. -/
theorem writeWords_all (words : Nat → UInt32) (h : p.index = 0x22) (hj : j < cells) :
    (p.writeWords words cells).gram j = lines (words ((j + (cells - p.counter)) % cells)) := by
  obtain ⟨_, _, hgram⟩ := writeWords_spec words h (Nat.le_refl cells)
  have hcell : (p.counter + (j + (cells - p.counter)) % cells) % cells = j := by
    have hc := p.counter_lt
    rw [Nat.add_mod_mod, show p.counter + (j + (cells - p.counter)) = j + cells by omega,
      Nat.add_mod_right, Nat.mod_eq_of_lt hj]
  have hcells := hgram ((j + (cells - p.counter)) % cells) (Nat.mod_lt _ (by decide))
  rwa [hcell] at hcells

end Panel

end Plak1a.Lcd.Ili9320
