import Plak1a.Lcd.Ili9320
import Plak1a.Lcd.Ili932x
import Plak1a.Lib.Run

/-!
# A transfer of the whole buffer

`ili932x_write_gram` writes the horizontal address twice and the vertical one never, so that
the address counter takes over neither and the transfer begins where it stands. The picture
is shown moved on by that many cells.
-/

namespace Plak1a.Lcd.Gram

open Lib.Fields Lib.Run Ili9320 Ili932x

/-- `ili932x_write_reg` -/
def writeReg (reg : UInt8) (data : UInt16) (p : Panel) : Panel :=
  (p.writeIndex (convert16To18 reg.toUInt32)).writeData (convert16To18 data.toUInt32)

/-- `ILI9325_GRAM_HADDR` -/
def gramHaddr : UInt8 := 0x20

/-- `ILI9325_GRAM_DATA` -/
def gramData : UInt32 := 0x22

/-- `ili932x_write_gram` -/
def writeGram (buf : Nat → UInt8) (size : Nat) (p : Panel) : Panel :=
  let p := writeReg gramHaddr 0 p
  let p := writeReg gramHaddr 0 p
  let p := p.writeIndex (convert16To18 gramData)
  p.writeWords (fun i => writePixel (pixelAt buf i)) (size / 2)

/-- The cell has 6 bits for each colour, of which those of the pixel are the highest. -/
structure Expands (cell : UInt32) (pixel : UInt16) : Prop where
  width : cell.toNat < 2 ^ 18
  red : cell.toNat / 2 ^ 13 = pixel.toNat / 2 ^ 11
  green : cell.toNat / 2 ^ 6 % 2 ^ 6 = pixel.toNat / 2 ^ 5 % 2 ^ 6
  blue : cell.toNat / 2 % 2 ^ 5 = pixel.toNat % 2 ^ 5

/-- The panel shows the buffer. -/
def Shows (p : Panel) (buf : Nat → UInt8) : Prop :=
  ∀ row < rows, ∀ column < columns,
    Expands (p.gram (row * columns + column)) (pixelAt buf (row * columns + column))

/-- The picture is the same when it is moved on by `n` cells, those at the end coming in at the
top. -/
def Repeats (buf : Nat → UInt8) (n : Nat) : Prop :=
  ∀ j < cells, pixelAt buf ((j + (cells - n)) % cells) = pixelAt buf j

variable {p : Panel} {buf : Nat → UInt8} {size j : Nat}

theorem toNat_writePixel (pixel : UInt16) : (writePixel pixel).toNat =
    pixel.toNat / 2 ^ 11 * 2 ^ 13 + (1 * 2 ^ 12 + (pixel.toNat % 2 ^ 11 * 2 ^ 1 + 1)) := by
  have hpixel := pixel.toNat_lt
  have hred : ((pixel.toUInt32 &&& 0xf800) <<< 2).toNat = pixel.toNat / 2 ^ 11 * 2 ^ 13 := by
    rw [toNat_shiftLeft _ 2 rfl (by decide), toNat_and_mask _ 11 5 rfl, UInt16.toNat_toUInt32]
    omega
  have hrest : ((pixel.toUInt32 &&& 0x7ff) <<< 1).toNat = pixel.toNat % 2 ^ 11 * 2 ^ 1 := by
    rw [toNat_shiftLeft _ 1 rfl (by decide), toNat_and_mask _ 0 11 rfl, UInt16.toNat_toUInt32]
    omega
  have hlow : (0x01001 : UInt32).toNat = 1 * 2 ^ 12 ||| 1 := by decide
  unfold writePixel
  dsimp only
  rw [UInt32.toNat_or, UInt32.toNat_or, hred, hrest, hlow, Nat.or_assoc,
    Nat.or_comm (1 * 2 ^ 12), ← Nat.or_assoc (_ % _ * _), or_eq_add (_ % _) (by decide),
    Nat.or_comm _ (1 * 2 ^ 12), or_eq_add 1 (by omega), or_eq_add _ (by omega)]

theorem expands_writePixel (sent pixel : UInt16) :
    Expands (lines (writePixel sent)) pixel ↔ sent = pixel := by
  have hsent := sent.toNat_lt
  have hpixel := pixel.toNat_lt
  have hcell : (lines (writePixel sent)).toNat =
      sent.toNat / 2 ^ 11 * 2 ^ 13 + (1 * 2 ^ 12 + (sent.toNat % 2 ^ 11 * 2 ^ 1 + 1)) := by
    rw [toNat_lines, toNat_writePixel]
    omega
  constructor
  · intro h
    obtain ⟨_, hred, hgreen, hblue⟩ := h
    rw [hcell] at hred hgreen hblue
    rw [← UInt16.toNat_inj]
    omega
  · intro h
    subst h
    constructor
    · rw [hcell]
      omega
    · rw [hcell]
      omega
    · rw [hcell]
      omega
    · rw [hcell]
      omega

theorem index_writeReg (p : Panel) :
    (p.writeIndex (convert16To18 gramHaddr.toUInt32)).index = 0x20 :=
  Panel.index_writeIndex (by decide) p

/-- The counter and the GRAM are kept. -/
theorem writeReg_haddr (p : Panel) :
    writeReg gramHaddr 0 p = { p with index := 0x20, column := 0 } := by
  rw [writeReg, Panel.writeData_of_column (index_writeReg p)]
  have hindex := index_writeReg p
  simp only [Panel.writeIndex] at hindex ⊢
  rw [hindex]
  rfl

/-- The panel of the update, which keeps the words as they are sent, and the panel itself. -/
structure Agrees (s : State) (p : Panel) : Prop where
  counter : s.gram = p.counter
  gram : ∀ j, lines (s.panel j) = p.gram j

variable {s : State} {n : Nat}

theorem Agrees.setHaddr (h : Agrees s p) : Agrees s.setHaddr (writeReg gramHaddr 0 p) := by
  rw [writeReg_haddr]
  exact ⟨h.counter, h.gram⟩

theorem Agrees.writeData (h : Agrees s p) (hindex : p.index = 0x22) (w : UInt32) :
    Agrees (s.writeData w) (p.writeData w) := by
  rw [Panel.writeData_of_gram hindex]
  constructor
  · show (s.gram + 1) % cells = (p.counter + 1) % cells
    rw [h.counter]
  · intro j
    show lines (Function.update s.panel s.gram w j) = Function.update p.gram p.counter (lines w) j
    rw [h.counter]
    by_cases hj : j = p.counter
    · rw [hj, Function.update_self, Function.update_self]
    · rw [Function.update_of_ne hj, Function.update_of_ne hj]
      exact h.gram j

/-- The steps for the first pixels, when nothing comes between them. -/
theorem exec_writeWords (delay : Nat) (hw : s.worker = .writeGram 0) (h : Agrees s p)
    (hindex : p.index = 0x22) (hn : n ≤ pixels) :
    ∃ t, exec (step delay) s (List.replicate n .update) = some t ∧ t.worker = .writeGram n ∧
      t.buffer = s.buffer ∧
      Agrees t (p.writeWords (fun i => writePixel (pixelAt s.buffer i)) n) := by
  induction n with
  | zero => exact ⟨s, rfl, hw, rfl, h⟩
  | succ n ih =>
    obtain ⟨t, ht, hworker, hbuffer, hagrees⟩ := ih (Nat.le_of_succ_le hn)
    have hstep : step delay t .update =
        some { t.writeData (writePixel (pixelAt t.buffer n)) with
          worker := .writeGram (n + 1) } := by
      show t.updateStep delay = _
      unfold State.updateStep
      rw [hworker]
      exact if_pos hn
    have hwords := (Panel.writeWords_spec (fun i => writePixel (pixelAt s.buffer i)) hindex
      (Nat.le_of_succ_le hn)).1
    have hnext := hagrees.writeData hwords (writePixel (pixelAt t.buffer n))
    rw [hbuffer] at hstep hnext
    have hrun : exec (step delay) s (List.replicate (n + 1) .update) =
        some { t.writeData (writePixel (pixelAt s.buffer n)) with
          worker := .writeGram (n + 1) } := by
      rw [List.replicate_succ', exec_append_of_exec ht, exec_cons_of_step hstep]
      rfl
    exact ⟨_, hrun, rfl, hbuffer, hnext.counter, hnext.gram⟩

/-- An update that nothing disturbs sends the pixels as one call does. -/
theorem exec_writeGram (delay : Nat) (hsize : size / 2 = pixels) (hw : s.worker = .testChange)
    (hchange : s.change = true) (h : Agrees s p) :
    ∃ t, exec (step delay) s (List.replicate (pixels + 1) .update) = some t ∧
      t.worker = .writeGram pixels ∧ t.buffer = s.buffer ∧
      Agrees t (writeGram s.buffer size p) := by
  have hstep : step delay s .update = some { s.setHaddr.setHaddr with worker := .writeGram 0 } := by
    show s.updateStep delay = _
    unfold State.updateStep
    rw [hw]
    exact if_pos hchange
  have hstart : Agrees { s.setHaddr.setHaddr with worker := .writeGram 0 }
      ((writeReg gramHaddr 0 (writeReg gramHaddr 0 p)).writeIndex (convert16To18 gramData)) :=
    ⟨h.setHaddr.setHaddr.counter, h.setHaddr.setHaddr.gram⟩
  obtain ⟨t, ht, hworker, hbuffer, hagrees⟩ := exec_writeWords delay rfl hstart
    (Panel.index_writeIndex (by decide) _) (Nat.le_refl pixels)
  refine ⟨t, ?_, hworker, hbuffer, ?_⟩
  · rw [List.replicate_succ, exec_cons_of_step hstep]
    exact ht
  · unfold writeGram
    dsimp only
    rw [hsize]
    exact hagrees

theorem gram_writeGram (hsize : size / 2 = cells) (hj : j < cells) :
    (writeGram buf size p).gram j = lines (writePixel
      (pixelAt buf ((j + (cells - p.counter)) % cells))) := by
  unfold writeGram
  dsimp only
  rw [hsize, Panel.writeWords_all _ _ hj, writeReg_haddr, writeReg_haddr]
  · rfl
  · exact Panel.index_writeIndex (by decide) _

theorem cell_lt {row column : Nat} (hrow : row < rows) (hcolumn : column < columns) :
    row * columns + column < cells := by
  simp only [rows, columns, cells] at hrow hcolumn ⊢
  omega

theorem shows_iff_repeats (p : Panel) (buf : Nat → UInt8) (hsize : size / 2 = cells) :
    Shows (writeGram buf size p) buf ↔ Repeats buf p.counter := by
  have hcell : ∀ j < cells, Expands ((writeGram buf size p).gram j) (pixelAt buf j) ↔
      pixelAt buf ((j + (cells - p.counter)) % cells) = pixelAt buf j := by
    intro j hj
    rw [gram_writeGram hsize hj, expands_writePixel]
  constructor
  · intro h j hj
    have hrow : j / columns < rows := by
      simp only [rows, columns, cells] at hj ⊢
      omega
    have hshown := h (j / columns) hrow (j % columns) (Nat.mod_lt _ (by decide))
    rw [Nat.div_add_mod'] at hshown
    exact (hcell j hj).mp hshown
  · intro h row hrow column hcolumn
    have hlt := cell_lt hrow hcolumn
    exact (hcell _ hlt).mpr (h _ hlt)

/-- A picture with one pixel set -/
def corner : Nat → UInt8 := fun k => if k = 0 then 1 else 0

theorem pixelAt_corner {i : Nat} (h : i ≠ 0) : pixelAt corner i = 0 := by
  rw [pixelAt, Lib.Bytes.halfAt, corner, corner, if_neg (by omega), if_neg (by omega)]
  rfl

theorem not_repeats_corner (hn : n < cells) (h : n ≠ 0) : ¬ Repeats corner n := by
  intro hall
  have hpixel := hall n hn
  rw [Nat.add_sub_cancel' (Nat.le_of_lt hn), Nat.mod_self, pixelAt_corner h] at hpixel
  exact absurd hpixel (by decide)

theorem repeats_zero (buf : Nat → UInt8) : Repeats buf 0 := by
  intro j hj
  rw [Nat.sub_zero, Nat.add_mod_right, Nat.mod_eq_of_lt hj]

/-- A transfer of the whole buffer shows it exactly if it is the same when moved on by the cells
in front of the address counter; every buffer is shown from the first cell only. -/
theorem writeGram_shows_iff (p : Panel) :
    (∀ buf, Shows (writeGram buf fbSize p) buf ↔ Repeats buf p.counter) ∧
      ((∀ buf, Shows (writeGram buf fbSize p) buf) ↔ p.counter = 0) := by
  have hsize : fbSize / 2 = cells := by decide
  refine ⟨fun buf => shows_iff_repeats p buf hsize, ?_⟩
  constructor
  · intro h
    by_contra hfar
    exact not_repeats_corner p.counter_lt hfar ((shows_iff_repeats p corner hsize).mp (h corner))
  · intro h buf
    rw [shows_iff_repeats p buf hsize, h]
    exact repeats_zero buf

/-- With the counter one pixel further a picture of one pixel is enough. -/
theorem secondCell_rotated :
    ¬ Shows (writeGram corner fbSize ⟨0, 0, 1, by decide, fun _ => 0⟩) corner := by
  rw [shows_iff_repeats _ _ (by decide)]
  exact not_repeats_corner (by decide) (by decide)

end Plak1a.Lcd.Gram
