import Plak1a.Lcd.Et0320fb

/-!
# The pseudo palette

A component has 16 bits and a field 6, so that the shift by `18 - length` keeps only the
4 highest bits. The palette has 16 entries and the test lets `regno` be 16.
-/

namespace Plak1a.Lcd.Palette

open Lib.Fields Ili9320 Et0320fb

structure Colour where
  red : UInt16
  green : UInt16
  blue : UInt16

/-- 0.30, 0.59 and 0.11 of the components, in 256ths -/
def gray (c : Colour) : Nat := (c.red.toNat * 77 + c.green.toNat * 151 + c.blue.toNat * 28) / 2 ^ 8

/-- The components that are to be shown, red, green and blue. -/
def components (grayscale : UInt32) (c : Colour) : Nat × Nat × Nat :=
  if grayscale ≠ 0 then (gray c, gray c, gray c)
  else (c.red.toNat, c.green.toNat, c.blue.toNat)

/-- The highest bits of a component at their place in the word. -/
def placed (component : Nat) (f : FbBitfield) : Nat :=
  component / 2 ^ (16 - f.length.toNat) * 2 ^ f.offset.toNat

/-- The word for a colour in the fields `et0320fb_hwinit` sets. -/
def packed (grayscale : UInt32) (c : Colour) : Nat :=
  let shown := components grayscale c
  placed shown.1 hwinit.red + placed shown.2.1 hwinit.green + placed shown.2.2 hwinit.blue

/-- `et0320fb_setcolreg` with the settings of `et0320fb_hwinit`, for either grayscale. -/
def setcolregOf (grayscale regno : UInt32) (c : Colour) (palette : Nat → UInt32) :
    Int × (Nat → UInt32) :=
  setcolreg fix { hwinit with grayscale := grayscale } regno c.red.toUInt32 c.green.toUInt32
    c.blue.toUInt32 palette

/-- The call fails and leaves the memory alone, or stores the colour in its entry only. -/
def StoresColour (grayscale regno : UInt32) (c : Colour) (palette : Nat → UInt32) : Prop :=
  let r := setcolregOf grayscale regno c palette
  (r.1 = -einval ∧ r.2 = palette) ∨
  (r.1 = 0 ∧ regno < 16 ∧ (r.2 regno.toNat).toNat = packed grayscale c ∧
    ∀ i, i ≠ regno.toNat → r.2 i = palette i)

variable {grayscale regno : UInt32} {c : Colour} {palette : Nat → UInt32}

theorem toNat_gray (c : Colour) :
    ((c.red.toUInt32 * 77 + c.green.toUInt32 * 151 + c.blue.toUInt32 * 28) >>> 8).toNat =
      gray c := by
  have hr := c.red.toNat_lt
  have hg := c.green.toNat_lt
  have hb := c.blue.toNat_lt
  rw [toNat_shiftRight _ 8 rfl (by decide), gray]
  congr 1
  rw [UInt32.toNat_add, UInt32.toNat_add, UInt32.toNat_mul, UInt32.toNat_mul, UInt32.toNat_mul,
    UInt16.toNat_toUInt32, UInt16.toNat_toUInt32, UInt16.toNat_toUInt32,
    show (77 : UInt32).toNat = 77 from rfl, show (151 : UInt32).toNat = 151 from rfl,
    show (28 : UInt32).toNat = 28 from rfl]
  omega

theorem gray_lt (c : Colour) : gray c < 2 ^ 16 := by
  have hr := c.red.toNat_lt
  have hg := c.green.toNat_lt
  have hb := c.blue.toNat_lt
  rw [gray]
  omega

/-- Three components of 16 bits as the code packs them. -/
theorem toNat_packing {r g b : UInt32} (hr : r.toNat < 2 ^ 16) (hg : g.toNat < 2 ^ 16)
    (hb : b.toNat < 2 ^ 16) :
    (((r >>> (18 - 6)) <<< 12 ||| (g >>> (18 - 6)) <<< 6 ||| (b >>> (18 - 6)) <<< 0) &&&
      0xFFFFFF : UInt32).toNat =
      r.toNat / 2 ^ 12 * 2 ^ 12 + g.toNat / 2 ^ 12 * 2 ^ 6 + b.toNat / 2 ^ 12 := by
  have hred : ((r >>> (18 - 6)) <<< 12).toNat = r.toNat / 2 ^ 12 * 2 ^ 12 := by
    rw [toNat_shiftLeft _ 12 rfl (by decide), toNat_shiftRight _ 12 rfl (by decide)]
    omega
  have hgreen : ((g >>> (18 - 6)) <<< 6).toNat = g.toNat / 2 ^ 12 * 2 ^ 6 := by
    rw [toNat_shiftLeft _ 6 rfl (by decide), toNat_shiftRight _ 12 rfl (by decide)]
    omega
  have hblue : ((b >>> (18 - 6)) <<< 0).toNat = b.toNat / 2 ^ 12 := by
    rw [toNat_shiftLeft _ 0 rfl (by decide), toNat_shiftRight _ 12 rfl (by decide)]
    omega
  have hor : r.toNat / 2 ^ 12 * 2 ^ 12 ||| g.toNat / 2 ^ 12 * 2 ^ 6 ||| b.toNat / 2 ^ 12 =
      r.toNat / 2 ^ 12 * 2 ^ 12 + g.toNat / 2 ^ 12 * 2 ^ 6 + b.toNat / 2 ^ 12 := by
    rw [Nat.or_assoc, or_eq_add (g.toNat / 2 ^ 12) (by omega), or_eq_add _ (by omega),
      Nat.add_assoc]
  rw [toNat_and_mask _ 0 24 rfl, UInt32.toNat_or, UInt32.toNat_or, hred, hgreen, hblue, hor]
  omega

theorem setcolregOf_refused (h : 16 < regno) :
    setcolregOf grayscale regno c palette = (-einval, palette) := by
  unfold setcolregOf setcolreg
  dsimp only
  split
  · rfl
  · exact if_pos (show fix.visual = fbVisualTruecolor from rfl)

/-- The entry gets the 4 highest bits of each component. -/
theorem setcolregOf_stored (grayscale : UInt32) (c : Colour) (palette : Nat → UInt32)
    (h : ¬ 16 < regno) :
    ∃ value : UInt32, setcolregOf grayscale regno c palette =
        (0, Function.update palette regno.toNat value) ∧
      value.toNat = (components grayscale c).1 / 2 ^ 12 * 2 ^ 12 +
        (components grayscale c).2.1 / 2 ^ 12 * 2 ^ 6 + (components grayscale c).2.2 / 2 ^ 12 := by
  have hsmall : ¬ paletteSize ≤ regno := fun hle => h (UInt32.lt_of_lt_of_le (by decide) hle)
  unfold setcolregOf setcolreg components
  dsimp only
  rw [if_neg hsmall, if_pos (show fix.visual = fbVisualTruecolor from rfl), if_neg h]
  by_cases hgray : grayscale ≠ 0
  · simp only [if_pos hgray]
    have hlt : ((c.red.toUInt32 * 77 + c.green.toUInt32 * 151 + c.blue.toUInt32 * 28) >>> 8).toNat <
        2 ^ 16 := by
      rw [toNat_gray]
      exact gray_lt c
    refine ⟨_, rfl, ?_⟩
    rw [← toNat_gray]
    exact toNat_packing hlt hlt hlt
  · simp only [if_neg hgray]
    refine ⟨_, rfl, ?_⟩
    rw [← UInt16.toNat_toUInt32, ← UInt16.toNat_toUInt32, ← UInt16.toNat_toUInt32]
    exact toNat_packing (by simp only [UInt16.toNat_toUInt32]; exact c.red.toNat_lt)
      (by simp only [UInt16.toNat_toUInt32]; exact c.green.toNat_lt)
      (by simp only [UInt16.toNat_toUInt32]; exact c.blue.toNat_lt)

/-- The 4 highest bits are the 6 highest only where those are 0. -/
theorem packing_eq_iff (r g b : Nat) :
    r / 2 ^ 12 * 2 ^ 12 + g / 2 ^ 12 * 2 ^ 6 + b / 2 ^ 12 =
        r / 2 ^ 10 * 2 ^ 12 + g / 2 ^ 10 * 2 ^ 6 + b / 2 ^ 10 ↔
      r < 2 ^ 10 ∧ g < 2 ^ 10 ∧ b < 2 ^ 10 := by
  have hquarter : ∀ n, n / 2 ^ 12 ≤ n / 2 ^ 10 ∧ (n / 2 ^ 12 = n / 2 ^ 10 ↔ n < 2 ^ 10) :=
    fun n => ⟨by omega, by omega⟩
  obtain ⟨hr', hr⟩ := hquarter r
  obtain ⟨hg', hg⟩ := hquarter g
  obtain ⟨hb', hb⟩ := hquarter b
  rw [← hr, ← hg, ← hb]
  omega

/-- A call stores the right colour, or nothing, exactly if it is for an entry behind number
16, or for one before it with a colour that 6 bits for each component show as black. -/
theorem storesColour_iff (grayscale regno : UInt32) (c : Colour) (palette : Nat → UInt32) :
    StoresColour grayscale regno c palette ↔
      16 < regno ∨ (regno < 16 ∧ (components grayscale c).1 < 2 ^ 10 ∧
        (components grayscale c).2.1 < 2 ^ 10 ∧ (components grayscale c).2.2 < 2 ^ 10) := by
  unfold StoresColour
  dsimp only
  by_cases h : 16 < regno
  · rw [setcolregOf_refused h]
    exact iff_of_true (Or.inl ⟨rfl, rfl⟩) (Or.inl h)
  · obtain ⟨value, hcall, hvalue⟩ := setcolregOf_stored grayscale c palette h
    have hpacked : packed grayscale c = (components grayscale c).1 / 2 ^ 10 * 2 ^ 12 +
        (components grayscale c).2.1 / 2 ^ 10 * 2 ^ 6 + (components grayscale c).2.2 / 2 ^ 10 := by
      show _ + _ + _ / 2 ^ 10 * 2 ^ 0 = _
      rw [Nat.pow_zero, Nat.mul_one]
      rfl
    rw [hcall, or_iff_right h]
    dsimp only
    rw [Function.update_self, hvalue, hpacked, packing_eq_iff]
    constructor
    · intro hstores
      rcases hstores with ⟨hret, _⟩ | ⟨_, hregno, hcolour, _⟩
      · exact absurd hret (by decide)
      · exact ⟨hregno, hcolour⟩
    · intro hstores
      obtain ⟨hregno, hcolour⟩ := hstores
      exact Or.inr ⟨rfl, hregno, hcolour, fun i hi => Function.update_of_ne hi _ _⟩

/-- White in entry 0 is stored as a dark grey, and entry 16 is behind the palette. -/
theorem white_misstored :
    ¬ StoresColour 0 0 ⟨0xffff, 0xffff, 0xffff⟩ (fun _ => 0) ∧
      ¬ StoresColour 0 16 ⟨0, 0, 0⟩ (fun _ => 0) := by
  unfold StoresColour
  constructor
  · intro h
    rcases h with ⟨hret, _⟩ | ⟨_, _, hvalue, _⟩
    · revert hret
      decide
    · revert hvalue
      decide
  · intro h
    rcases h with ⟨hret, _⟩ | ⟨_, hregno, _⟩
    · revert hret
      decide
    · revert hregno
      decide

end Plak1a.Lcd.Palette
