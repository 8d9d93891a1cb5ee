import Mathlib.Data.List.Basic

/-!
# The sector table of the boot loader's flash driver

`flash_get_size` and `flash_get_offsets` for the lpc2294 board: `CONFIG_LPC` is set and
`CFG_FLASH_WORD_SIZE` is `unsigned short`, which keeps the lower half of the identification
words. `read` gives what the bank answers in autoselect mode, which the function enters
before it reads for the first time and leaves with its last write.
-/

namespace Plak1a.Flash.Info

def cfgMaxFlashSect : Nat := 135

def flashUnknown : UInt32 := 0xFFFF

def flashVendMask : UInt32 := 0xFFFF0000
def flashTypeMask : UInt32 := 0x0000FFFF
def flashBType : UInt32 := 0x0001

def flashManAmd : UInt32 := 0x00000000
def flashManFuj : UInt32 := 0x00010000
def flashManStm : UInt32 := 0x00040000
def flashManSst : UInt32 := 0x00100000
def flashManAtm : UInt32 := 0x00600000

def flashAm400T : UInt32 := 0x0002
def flashAm400B : UInt32 := 0x0003
def flashAm800T : UInt32 := 0x0004
def flashAm800B : UInt32 := 0x0005
def flashAm160T : UInt32 := 0x0006
def flashAm160B : UInt32 := 0x0007
def flashAm320T : UInt32 := 0x0008
def flashAm320B : UInt32 := 0x0009
def flashAmdl322T : UInt32 := 0x0010
def flashAmdl322B : UInt32 := 0x0011
def flashAmdl323T : UInt32 := 0x0012
def flashAmdl323B : UInt32 := 0x0013
def flashAmdl324T : UInt32 := 0x0014
def flashAmdl324B : UInt32 := 0x0015
def flashSst800A : UInt32 := 0x0044
def flashSst160A : UInt32 := 0x0046
def flashStmw320DT : UInt32 := 0x0052
def flashAm640U : UInt32 := 0x0090
def flashAtbv642DT : UInt32 := 0x00F2

/-- A case of the switch over the manufacturer word. -/
structure Manufacturer where
  manufact : UInt16
  man : UInt32

def manufacturers : List Manufacturer :=
  [⟨0x001F, flashManAtm⟩, ⟨0x0001, flashManAmd⟩, ⟨0x0004, flashManFuj⟩, ⟨0x00BF, flashManSst⟩,
    ⟨0x0020, flashManStm⟩]

/-- A case of the switch over the device word. -/
structure Device where
  id : UInt16
  type : UInt32
  sectorCount : Nat
  size : UInt32

def devices : List Device :=
  [⟨0x01D2, flashAtbv642DT, 135, 0x00800000⟩,
    ⟨0x22B9, flashAm400T, 11, 0x00080000⟩,
    ⟨0x22BA, flashAm400B, 11, 0x00080000⟩,
    ⟨0x22DA, flashAm800T, 19, 0x00100000⟩,
    ⟨0x225B, flashAm800B, 19, 0x00100000⟩,
    ⟨0x22C4, flashAm160T, 35, 0x00200000⟩,
    ⟨0x2249, flashAm160B, 35, 0x00200000⟩,
    ⟨0x22CA, flashStmw320DT, 67, 0x00400000⟩,
    ⟨0x22F6, flashAm320T, 71, 0x00400000⟩,
    ⟨0x22F9, flashAm320B, 71, 0x00400000⟩,
    ⟨0x2255, flashAmdl322T, 71, 0x00400000⟩,
    ⟨0x2256, flashAmdl322B, 71, 0x00400000⟩,
    ⟨0x2250, flashAmdl323T, 71, 0x00400000⟩,
    ⟨0x2253, flashAmdl323B, 71, 0x00400000⟩,
    ⟨0x22D7, flashAm640U, 128, 0x00800000⟩,
    ⟨0x2781, flashSst800A, 16, 0x00100000⟩,
    -- `CONFIG_LPC` doubles the size of this one.
    ⟨0x2782, flashSst160A, 32, 0x00400000⟩]

def manufacturer (value : UInt16) : Option Manufacturer :=
  manufacturers.find? (·.manufact = value)

def device (value : UInt16) : Option Device := devices.find? (·.id = value)

/-- A fill loop over `start`: the entries written so far, in order, and its variable `base`. -/
structure Cursor where
  base : UInt32
  start : List UInt32

/-- `n` rounds of `info->start[i] = base; base += step; ++i`. -/
def Cursor.up (step : UInt32) : Nat → Cursor → Cursor
  | 0, c => c
  | n + 1, c => up step n ⟨c.base + step, c.start ++ [c.base]⟩

/-- `n` rounds of `base -= step; --i; info->start[i] = base`. -/
def Cursor.down (step : UInt32) : Nat → Cursor → Cursor
  | 0, c => c
  | n + 1, c => down step n ⟨c.base - step, (c.base - step) :: c.start⟩

/-- `n << 10` -/
def kib (n : UInt32) : UInt32 := n <<< (10 : UInt32)

/-- All sectors of one size, which `CONFIG_LPC` doubles. -/
def uniform (base : UInt32) (count : Nat) : List UInt32 :=
  (List.range count).map fun i => base + UInt32.ofNat (i * 0x00020000)

/-- 8 x 8k boot sectors, then 64k regular sectors. -/
def bottomBoot8 (base : UInt32) (count : Nat) : List UInt32 :=
  (((Cursor.mk base []).up (kib 8) 8).up (kib 64) (count - 8)).start

/-- From the top, 8 x 8k boot sectors, then 64k regular sectors. -/
def topBoot8 (base size : UInt32) (count : Nat) : List UInt32 :=
  (((Cursor.mk (base + size) []).down (kib 8) 8).down (kib 64) (count - 8)).start

/-- From the top, 1 x 16k, 2 x 8k and 1 x 32k boot sectors, then 64k regular sectors. -/
def topBootStm (base size : UInt32) (count : Nat) : List UInt32 :=
  let c := (Cursor.mk (base + size) []).down (kib 16) 1
  let c := (c.down (kib 8) 2).down (kib 32) 1
  (c.down (kib 64) (count - 4)).start

/-- The offsets for the bottom boot block type. -/
def bottomBoot (base : UInt32) (count : Nat) : List UInt32 :=
  [base + 0x00000000, base + 0x00004000, base + 0x00006000, base + 0x00008000] ++
    (List.range' 4 (count - 4)).map fun i => base + UInt32.ofNat (i * 0x00010000) - 0x00030000

/-- The offsets for the top boot block type. -/
def topBoot (base size : UInt32) (count : Nat) : List UInt32 :=
  ((List.range (count - 3)).map fun i => base + UInt32.ofNat (i * 0x00010000)) ++
    [base + size - 0x00008000, base + size - 0x00006000, base + size - 0x00004000]

/-- `flash_info_t` -/
structure FlashInfo where
  size : UInt32
  sectorCount : Nat
  flashId : UInt32
  start : List UInt32
  protect : List UInt8

/-- The table as `flash_get_offsets` writes it. -/
def offsetsTable (base : UInt32) (info : FlashInfo) : List UInt32 :=
  let type := info.flashId &&& flashTypeMask
  if info.flashId &&& flashVendMask = flashManSst ∨ type = flashAm640U then
    uniform base info.sectorCount
  else if type = flashAmdl322B ∨ type = flashAmdl323B ∨ type = flashAm320B ∨
      type = flashAmdl324B then
    bottomBoot8 base info.sectorCount
  else if type = flashAmdl322T ∨ type = flashAmdl323T ∨ type = flashAm320T ∨
      type = flashAtbv642DT then
    topBoot8 base info.size info.sectorCount
  else if info.flashId &&& flashBType ≠ 0 then bottomBoot base info.sectorCount
  else topBoot base info.size info.sectorCount

/-- `flash_get_offsets` -/
def flashGetOffsets (base : UInt32) (info : FlashInfo) : FlashInfo :=
  { info with start := offsetsTable base info }

/-- The table as `flash_get_size` writes it, with a branch of its own for `FLASH_STMW320DT`. -/
def sizeTable (base : UInt32) (info : FlashInfo) : List UInt32 :=
  let type := info.flashId &&& flashTypeMask
  if info.flashId &&& flashVendMask = flashManSst ∨ type = flashAm640U then
    uniform base info.sectorCount
  else if type = flashAmdl322B ∨ type = flashAmdl323B ∨ type = flashAm320B ∨
      type = flashAmdl324B then
    bottomBoot8 base info.sectorCount
  else if type = flashAmdl322T ∨ type = flashAmdl323T ∨ type = flashAm320T ∨
      type = flashAmdl324T ∨ type = flashAtbv642DT then
    topBoot8 base info.size info.sectorCount
  else if type = flashStmw320DT then topBootStm base info.size info.sectorCount
  else if info.flashId &&& flashBType ≠ 0 then bottomBoot base info.sectorCount
  else topBoot base info.size info.sectorCount

/-- `addr2[n]` is at `addr + wordOffset n`. -/
def wordOffset (n : UInt32) : UInt32 := 2 * n

/-- The protection that `flash_get_size` reads at the start of a sector. -/
def protection (read : UInt32 → UInt16) (flashId start : UInt32) : UInt8 :=
  if flashId &&& flashVendMask = flashManSst then 0
  else (read (start + wordOffset 2) &&& 1).toUInt8

/-- `flash_get_size`: the size, and `info` afterwards. -/
def flashGetSize (read : UInt32 → UInt16) (base : UInt32) (info : FlashInfo) :
    UInt32 × FlashInfo :=
  match manufacturer (read (base + wordOffset 0)) with
  | none => (0, { info with flashId := flashUnknown, sectorCount := 0, size := 0 })
  | some m =>
    match device (read (base + wordOffset 1)) with
    | none => (0, { info with flashId := flashUnknown })
    | some d =>
      let info :=
        { info with flashId := m.man + d.type, sectorCount := d.sectorCount, size := d.size }
      let start := sizeTable base info
      (info.size, { info with start, protect := start.map (protection read info.flashId) })

end Plak1a.Flash.Info
