import Plak1a.Lcd.Et0320fb

/-!
# Where a drawn pixel shows

Generic code packs pixels of 18 bits and starts a line every 480 bytes; the refresh sends a
word of 32 bits for a pixel, of which the panel takes 18. The two layouts meet in the first
pixel of the screen and in 4 bits of the second.
-/

namespace Plak1a.Lcd.Layout

open Ili9320 Et0320fb

/-- A bit of the screen memory -/
def bitAt (screen : Nat → UInt32) (k : Nat) : Bool := (screen (k / 32)).toNat.testBit (k % 32)

/-- The bit that pixel `(x, y)` starts at, for generic code. -/
def bitOffset (x y : Nat) : Nat := y * fix.lineLength * 8 + x * hwinit.bitsPerPixel

/-- The pixel gets a new value and everything else is kept. -/
structure SetsPixel (x y : Nat) (screen screen' : Nat → UInt32) : Prop where
  kept : ∀ k, k < bitOffset x y ∨ bitOffset x y + hwinit.bitsPerPixel ≤ k →
    bitAt screen' k = bitAt screen k
  set : ∃ i < hwinit.bitsPerPixel,
    bitAt screen' (bitOffset x y + i) ≠ bitAt screen (bitOffset x y + i)

/-- A drawing operation, with what generic code does for it. -/
inductive Drawing
  | fillrect (sysFillrect : (Nat → UInt32) → Nat → UInt32)
  | copyarea (sysCopyarea : (Nat → UInt32) → Nat → UInt32)
  | imageblit (sysImageblit : (Nat → UInt32) → Nat → UInt32)

namespace Drawing

def draw : Drawing → Display → Display
  | .fillrect sys => Et0320fb.fillrect sys
  | .copyarea sys => Et0320fb.copyarea sys
  | .imageblit sys => Et0320fb.imageblit sys

/-- The screen memory behind an operation. -/
def screen : Drawing → (Nat → UInt32) → Nat → UInt32
  | .fillrect sys => sys
  | .copyarea sys => sys
  | .imageblit sys => sys

theorem draw_eq (op : Drawing) (d : Display) :
    op.draw d = dpyUpdate { d with screen := op.screen d.screen } := by
  cases op <;> rfl

end Drawing

/-- The panel shows the screen memory, a word for a cell. -/
def Shows (d : Display) : Prop := ∀ j < cells, d.panel.gram j = lines (d.screen j)

/-- The display after some drawing operations. -/
def drawAll (ops : List Drawing) (d : Display) : Display := ops.foldl (fun d op => op.draw d) d

variable {screen screen' : Nat → UInt32} {j x y : Nat} {d : Display} {ops : List Drawing}

/-- Both addresses are set before the first word is sent, the vertical one last. -/
theorem counter_rewound (p : Panel) :
    (((((p.writeIndex (convert16To18 0x20)).writeData 0).writeIndex (convert16To18 0x21)).writeData
      0).writeIndex (convert16To18 0x22)).counter = 0 := by
  show (Panel.writeData 0 _).counter = 0
  have hbus : wordOf 0 = 0 := by decide
  rw [Panel.counter_writeRow _ hbus]
  · show (Panel.writeData 0 _).column % columns = 0
    rw [Panel.writeData_of_column (Panel.index_writeIndex (by decide) _), hbus]
    rfl
  · exact Panel.index_writeIndex (by decide) _

theorem dpyUpdate_eq (d : Display) : dpyUpdate d = ⟨d.screen,
    (((((d.panel.writeIndex (convert16To18 0x20)).writeData 0).writeIndex
      (convert16To18 0x21)).writeData 0).writeIndex (convert16To18 0x22)).writeWords d.screen
        screenSize⟩ := rfl

theorem shows_mk {p : Panel} (h : ∀ j < cells, p.gram j = lines (screen j)) :
    Shows ⟨screen, p⟩ := h

theorem shows_dpyUpdate (d : Display) : Shows (dpyUpdate d) := by
  rw [dpyUpdate_eq, show screenSize = cells from rfl]
  apply shows_mk
  intro j hj
  rw [Panel.writeWords_all _ _ hj]
  · rw [counter_rewound, Nat.sub_zero, Nat.add_mod_right, Nat.mod_eq_of_lt hj]
  · exact Panel.index_writeIndex (by decide) _

theorem screen_draw (op : Drawing) (d : Display) :
    (op.draw d).screen = op.screen d.screen := by
  rw [op.draw_eq, dpyUpdate_eq]

theorem shows_draw (op : Drawing) (d : Display) : Shows (op.draw d) := by
  rw [op.draw_eq]
  exact shows_dpyUpdate _

/-- From the first drawing on the panel shows the screen memory. -/
theorem shows_drawAll (h : ops ≠ []) (d : Display) : Shows (drawAll ops d) := by
  rw [← List.dropLast_concat_getLast h, drawAll, List.foldl_append]
  exact shows_draw _ _

theorem lines_ne_iff (a b : UInt32) :
    lines a ≠ lines b ↔ ∃ i < 18, a.toNat.testBit i ≠ b.toNat.testBit i := by
  rw [Ne, ← UInt32.toNat_inj, toNat_lines, toNat_lines]
  constructor
  · intro hne
    by_contra hsame
    apply hne
    apply Nat.eq_of_testBit_eq
    intro i
    rw [Nat.testBit_mod_two_pow, Nat.testBit_mod_two_pow]
    by_cases hi : i < 18
    · have hbit : a.toNat.testBit i = b.toNat.testBit i :=
        by_contra fun hdiff => hsame ⟨i, hi, hdiff⟩
      rw [hbit]
    · rw [decide_eq_false hi, Bool.false_and, Bool.false_and]
  · intro h heq
    obtain ⟨i, hi, hdiff⟩ := h
    have hbit : (a.toNat % 2 ^ 18).testBit i = (b.toNat % 2 ^ 18).testBit i := by rw [heq]
    rw [Nat.testBit_mod_two_pow, Nat.testBit_mod_two_pow, decide_eq_true hi, Bool.true_and,
      Bool.true_and] at hbit
    exact hdiff hbit

/-- A cell changes with the 18 lowest bits of its word. -/
theorem cell_changes_iff : lines (screen' j) ≠ lines (screen j) ↔
    ∃ i < 18, bitAt screen' (32 * j + i) ≠ bitAt screen (32 * j + i) := by
  have hbit : ∀ s : Nat → UInt32, ∀ i < 18, bitAt s (32 * j + i) = (s j).toNat.testBit i := by
    intro s i hi
    rw [bitAt, Nat.mul_add_div (by decide), Nat.mul_add_mod, Nat.div_eq_of_lt (by omega),
      Nat.mod_eq_of_lt (by omega), Nat.add_zero]
  rw [lines_ne_iff]
  constructor
  · intro h
    obtain ⟨i, hi, hne⟩ := h
    refine ⟨i, hi, ?_⟩
    rwa [hbit _ i hi, hbit _ i hi]
  · intro h
    obtain ⟨i, hi, hne⟩ := h
    refine ⟨i, hi, ?_⟩
    rwa [hbit _ i hi, hbit _ i hi] at hne

/-- What changes of the memory is of the pixel. -/
theorem SetsPixel.changed {k : Nat} (h : SetsPixel x y screen screen')
    (hk : bitAt screen' k ≠ bitAt screen k) :
    3840 * y + 18 * x ≤ k ∧ k < 3840 * y + 18 * x + 18 := by
  have hoffset : bitOffset x y = 3840 * y + 18 * x := by
    show y * 480 * 8 + x * 18 = _
    omega
  have hkept := mt (h.kept k) hk
  rw [hoffset, show hwinit.bitsPerPixel = 18 from rfl] at hkept
  omega

/-- The pixel shows in its own cell, and there alone, for the first pixel, and for the second
if one of its 4 highest bits changes. -/
theorem SetsPixel.alone_iff (h : SetsPixel x y screen screen') (hx : x < columns)
    (hy : y < rows) :
    (∀ j < cells, lines (screen' j) ≠ lines (screen j) ↔ j = y * columns + x) ↔
      (x = 0 ∧ y = 0) ∨ (x = 1 ∧ y = 0 ∧ ∃ i, 14 ≤ i ∧ i < 18 ∧
        bitAt screen' (bitOffset 1 0 + i) ≠ bitAt screen (bitOffset 1 0 + i)) := by
  simp only [cell_changes_iff, columns, rows] at hx hy ⊢
  constructor
  · intro hall
    obtain ⟨i, hi, hne⟩ := (hall (y * 240 + x) (by rw [cells, columns, rows]; omega)).mpr rfl
    have hk := h.changed hne
    have hy0 : y = 0 := by omega
    subst hy0
    by_cases hx0 : x = 0
    · exact Or.inl ⟨hx0, rfl⟩
    · have hx1 : x = 1 := by omega
      subst hx1
      refine Or.inr ⟨rfl, rfl, 14 + i, by omega, by omega, ?_⟩
      rwa [show bitOffset 1 0 + (14 + i) = 32 * (0 * 240 + 1) + i by
        show 18 + (14 + i) = _
        omega]
  · intro hpixel j _
    rcases hpixel with ⟨hx0, hy0⟩ | ⟨hx1, hy0, i, hlo, hhi, hne⟩
    · subst hx0 hy0
      constructor
      · intro hcell
        obtain ⟨i, hi, hne⟩ := hcell
        have hk := h.changed hne
        omega
      · intro hj
        obtain ⟨i, hi, hne⟩ := h.set
        subst hj
        refine ⟨i, hi, ?_⟩
        rwa [show bitOffset 0 0 = 32 * (0 * 240 + 0) from rfl] at hne
    · subst hx1 hy0
      constructor
      · intro hcell
        obtain ⟨i, hi, hne⟩ := hcell
        have hk := h.changed hne
        omega
      · intro hj
        subst hj
        refine ⟨i - 14, by omega, ?_⟩
        rwa [show 32 * (0 * 240 + 1) + (i - 14) = bitOffset 1 0 + i by
          show _ = 18 + i
          omega]

/-- In every state a run of drawings leads to: a further one that sets pixel `(x, y)` alone
changes the cell of that pixel alone exactly if it is the first pixel, or the second and one
of its 4 highest bits changes. -/
theorem draw_changes_iff (ops : List Drawing) (d : Display) (op : Drawing) (x y : Nat)
    (hops : ops ≠ []) (hx : x < columns) (hy : y < rows)
    (hset : SetsPixel x y (drawAll ops d).screen (op.screen (drawAll ops d).screen)) :
    (∀ j < cells, (op.draw (drawAll ops d)).panel.gram j ≠ (drawAll ops d).panel.gram j ↔
        j = y * columns + x) ↔
      (x = 0 ∧ y = 0) ∨ (x = 1 ∧ y = 0 ∧ ∃ i, 14 ≤ i ∧ i < 18 ∧
        bitAt (op.screen (drawAll ops d).screen) (bitOffset 1 0 + i) ≠
          bitAt (drawAll ops d).screen (bitOffset 1 0 + i)) := by
  rw [← hset.alone_iff hx hy]
  have hcell : ∀ j < cells, (op.draw (drawAll ops d)).panel.gram j ≠
      (drawAll ops d).panel.gram j ↔
      lines (op.screen (drawAll ops d).screen j) ≠ lines ((drawAll ops d).screen j) := by
    intro j hj
    rw [shows_draw op _ j hj, screen_draw, shows_drawAll hops d j hj]
  constructor
  · intro h j hj
    rw [← hcell j hj]
    exact h j hj
  · intro h j hj
    rw [hcell j hj]
    exact h j hj

/-- A display of which nothing is drawn yet. -/
def blank : Display where
  screen := fun _ => 0
  panel := { index := 0, column := 0, counter := 0, counter_lt := by decide, gram := fun _ => 0 }

/-- The first pixel of a line in white; every line starts a word. -/
def whiten (y : Nat) : Drawing := .fillrect fun screen => Function.update screen (120 * y) 0x3ffff

theorem screen_blank (sys : (Nat → UInt32) → Nat → UInt32) :
    (drawAll [.fillrect sys] blank).screen = sys fun _ => 0 :=
  screen_draw (.fillrect sys) blank

theorem screen_whiten (y w : Nat) :
    (whiten y).screen (fun _ => 0) w = if w = 120 * y then 0x3ffff else 0 := by
  unfold whiten Drawing.screen
  exact Function.update_apply _ _ _ _

theorem whiten_setsPixel (y : Nat) :
    SetsPixel 0 y (fun _ => 0) ((whiten y).screen fun _ => 0) := by
  have hoffset : bitOffset 0 y = 32 * (120 * y) := by
    show y * 480 * 8 + 0 * 18 = _
    omega
  constructor
  · intro k hk
    rw [hoffset, show hwinit.bitsPerPixel = 18 from rfl] at hk
    rw [bitAt, screen_whiten]
    by_cases hword : k / 32 = 120 * y
    · have hlow : (0x3ffff : UInt32).toNat < 2 ^ (k % 32) :=
        Nat.lt_of_lt_of_le (show _ < 2 ^ 18 by decide) (Nat.pow_le_pow_right (by decide) (by omega))
      rw [if_pos hword, Nat.testBit_lt_two_pow hlow]
      exact (Nat.zero_testBit _).symm
    · rw [if_neg hword]
      rfl
  · refine ⟨0, by decide, ?_⟩
    rw [hoffset, Nat.add_zero, bitAt, screen_whiten, bitAt, Nat.mul_div_cancel_left _ (by decide),
      Nat.mul_mod_right, if_pos rfl]
    decide

/-- The first pixel of the screen shows where it should. -/
theorem firstPixel_alone :
    SetsPixel 0 0 (drawAll [.fillrect id] blank).screen
        ((whiten 0).screen (drawAll [.fillrect id] blank).screen) ∧
      ∀ j < cells, ((whiten 0).draw (drawAll [.fillrect id] blank)).panel.gram j ≠
        (drawAll [.fillrect id] blank).panel.gram j ↔ j = 0 * columns + 0 := by
  have hset : SetsPixel 0 0 (drawAll [.fillrect id] blank).screen
      ((whiten 0).screen (drawAll [.fillrect id] blank).screen) := by
    rw [screen_blank]
    exact whiten_setsPixel 0
  exact ⟨hset, (draw_changes_iff [.fillrect id] blank (whiten 0) 0 0 (by decide) (by decide)
    (by decide) hset).mpr (Or.inl ⟨rfl, rfl⟩)⟩

/-- The first pixel of the second line shows in the middle of the first. -/
theorem secondLine_misplaced :
    SetsPixel 0 1 (drawAll [.fillrect id] blank).screen
        ((whiten 1).screen (drawAll [.fillrect id] blank).screen) ∧
      ((whiten 1).draw (drawAll [.fillrect id] blank)).panel.gram 120 ≠
        (drawAll [.fillrect id] blank).panel.gram 120 ∧
      ¬ ∀ j < cells, ((whiten 1).draw (drawAll [.fillrect id] blank)).panel.gram j ≠
        (drawAll [.fillrect id] blank).panel.gram j ↔ j = 1 * columns + 0 := by
  have hnil : [Drawing.fillrect id] ≠ [] := List.cons_ne_nil _ _
  have hshows := shows_drawAll hnil blank
  have hdrawn := shows_draw (whiten 1) (drawAll [.fillrect id] blank)
  rw [Shows, screen_draw, screen_blank] at hdrawn
  rw [Shows, screen_blank] at hshows
  have hchanges : ((whiten 1).draw (drawAll [.fillrect id] blank)).panel.gram 120 ≠
      (drawAll [.fillrect id] blank).panel.gram 120 := by
    rw [hdrawn 120 (by decide), hshows 120 (by decide)]
    decide
  rw [screen_blank]
  refine ⟨whiten_setsPixel 1, hchanges, fun h => ?_⟩
  exact absurd ((h 120 (by decide)).mp hchanges) (by decide)

end Plak1a.Lcd.Layout
