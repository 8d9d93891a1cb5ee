import Plak1a.Lcd.Ili9320

/-!
# The et0320fb display driver

The driver reaches the registers of the panel through `writel` and `readl`, sends all of the
screen memory to the GRAM after each drawing operation, and keeps the colours of the console
in a pseudo palette. The screen memory is taken as its 32-bit words; what generic code draws
into it is a parameter.
-/

namespace Plak1a.Lcd.Et0320fb

open Ili9320

/-- The registers of a panel that keeps what is written to them. -/
structure RegisterFile where
  index : UInt16
  regs : UInt16 → UInt16

namespace RegisterFile

def writeIndex (bus : UInt32) (p : RegisterFile) : RegisterFile := { p with index := wordOf bus }

def writeData (bus : UInt32) (p : RegisterFile) : RegisterFile :=
  { p with regs := Function.update p.regs p.index (wordOf bus) }

/-- The panel drives the bus with the encoded contents. -/
def readData (p : RegisterFile) : UInt32 := convert16To18 (p.regs p.index).toUInt32

end RegisterFile

/-- `et0320fb_writereg` -/
def writereg (regno : UInt16) (value : UInt32) (p : RegisterFile) : RegisterFile :=
  (p.writeIndex (convert16To18 regno.toUInt32)).writeData (convert16To18 value)

/-- `et0320fb_readreg`; the index is not encoded. -/
def readreg (regno : UInt16) (p : RegisterFile) : UInt32 × RegisterFile :=
  let p := p.writeIndex regno.toUInt32
  (lcdTo16Bit p.readData, p)

structure FbFix where
  visual : UInt32
  /-- in bytes -/
  lineLength : Nat

structure FbBitfield where
  offset : UInt32
  length : UInt32

structure FbVar where
  xres : Nat
  yres : Nat
  bitsPerPixel : Nat
  red : FbBitfield
  green : FbBitfield
  blue : FbBitfield
  grayscale : UInt32

/-- `FB_VISUAL_TRUECOLOR` -/
def fbVisualTruecolor : UInt32 := 2

/-- `et0320fb_fix` -/
def fix : FbFix where
  visual := fbVisualTruecolor
  lineLength := 240 * 2

/-- What `et0320fb_hwinit` sets of `info->var`. -/
def hwinit : FbVar where
  xres := 240
  yres := 320
  bitsPerPixel := 18
  red := ⟨12, 6⟩
  green := ⟨6, 6⟩
  blue := ⟨0, 6⟩
  grayscale := 0

/-- `info->screen_size`, from `et0320fb_probe` -/
def screenSize : Nat := 240 * 320

/-- The screen memory and the panel. -/
structure Display where
  screen : Nat → UInt32
  panel : Panel

/-- `et0320fb_dpy_update`; the two addresses are written without encoding, both being 0. -/
def dpyUpdate (d : Display) : Display :=
  let p := (d.panel.writeIndex (convert16To18 0x20)).writeData 0
  let p := (p.writeIndex (convert16To18 0x21)).writeData 0
  let p := p.writeIndex (convert16To18 0x22)
  { d with panel := p.writeWords d.screen screenSize }

/-- A drawing operation of generic code and the refresh behind it. -/
def drawWith (sys : (Nat → UInt32) → Nat → UInt32) (d : Display) : Display :=
  dpyUpdate { d with screen := sys d.screen }

/-- `et0320fb_fillrect` -/
def fillrect (sysFillrect : (Nat → UInt32) → Nat → UInt32) : Display → Display :=
  drawWith sysFillrect

/-- `et0320fb_copyarea` -/
def copyarea (sysCopyarea : (Nat → UInt32) → Nat → UInt32) : Display → Display :=
  drawWith sysCopyarea

/-- `et0320fb_imageblit` -/
def imageblit (sysImageblit : (Nat → UInt32) → Nat → UInt32) : Display → Display :=
  drawWith sysImageblit

/-- `ET0320_PALETTE_SIZE` -/
def paletteSize : UInt32 := 256

def einval : Int := 22

/-- `et0320fb_setcolreg`; `palette` are the words of memory from the pseudo palette on. -/
def setcolreg (fix : FbFix) (var : FbVar) (regno red green blue : UInt32)
    (palette : Nat → UInt32) : Int × (Nat → UInt32) :=
  if paletteSize ≤ regno then (-einval, palette)
  else
    let gray : UInt32 := (red * 77 + green * 151 + blue * 28) >>> 8
    let red := if var.grayscale ≠ 0 then gray else red
    let green := if var.grayscale ≠ 0 then gray else green
    let blue := if var.grayscale ≠ 0 then gray else blue
    if fix.visual = fbVisualTruecolor then
      if 16 < regno then (-einval, palette)
      else
        let red := red >>> (18 - var.red.length)
        let green := green >>> (18 - var.green.length)
        let blue := blue >>> (18 - var.blue.length)
        let value := red <<< var.red.offset ||| green <<< var.green.offset |||
          blue <<< var.blue.offset
        let value := value &&& 0xFFFFFF
        (0, Function.update palette regno.toNat value)
    else (0, palette)

end Plak1a.Lcd.Et0320fb
