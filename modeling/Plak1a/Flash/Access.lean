import Plak1a.Flash.EraseTrace
import Plak1a.Flash.Programmed

/-!
# The functions of the boot loader over its flash driver

`flash_write` and `flash_protect`, and the address ranges that the commands `erase` and
`protect` and `saveenv` go through. There is one bank, and `CFG_FLASH_PROTECTION` is not set: a
sector is protected by a flag in the table.
-/

namespace Plak1a.Flash.Access

open Info Bank Erase WriteBuff

/-- `info->start[0] + info->size - 1` -/
def bankEnd (info : FlashInfo) : UInt32 := sectorStart info 0 + info.size - 1

/-- The last address of a sector. -/
def sectorEnd (info : FlashInfo) (sect : Nat) : UInt32 :=
  if sect + 1 = info.sectorCount then bankEnd info else sectorStart info (sect + 1) - 1

/-- `addr2info`: whether there is a bank of the address. -/
def addr2info (info : FlashInfo) (addr : UInt32) : Bool :=
  info.flashId ≠ flashUnknown ∧ sectorStart info 0 ≤ addr ∧ addr ≤ bankEnd info

/-- The test of a sector; the end of the last one is taken from the bank. -/
def hits (info : FlashInfo) (addr last : UInt32) (sect : Nat) : Bool :=
  let eAddr :=
    if sect + 1 = info.sectorCount then sectorStart info 0 + info.size
    else sectorStart info (sect + 1)
  sectorStart info sect ≤ last ∧ addr < eAddr ∧ isProtected info sect

/-- `flash_write`: the result and the flash afterwards. -/
def flashWrite (info : FlashInfo) (ram : Memory) (src : Nat) (addr cnt : UInt32)
    (flash : Memory) : Nat × Memory :=
  let last := addr + cnt - 1
  if cnt = 0 then (0, flash)
  else if !addr2info info addr || !addr2info info last then (8, flash)
  else if (List.range info.sectorCount).any (hits info addr last) then (4, flash)
  else
    let len := sectorStart info 0 + info.size - addr
    let len := if len > cnt then cnt else len
    writeBuff ram src addr.toNat len.toNat flash

def flagProtectSet : UInt32 := 0x01
def flagProtectClear : UInt32 := 0x02

/-- A round of the loop of `flash_protect`. -/
def protectSector (flag first last : UInt32) (info : FlashInfo) (sect : Nat) : FlashInfo :=
  if first ≤ sectorEnd info sect ∧ sectorStart info sect ≤ last then
    if flag &&& flagProtectClear ≠ 0 then { info with protect := info.protect.set sect 0 }
    else if flag &&& flagProtectSet ≠ 0 then { info with protect := info.protect.set sect 1 }
    else info
  else info

def flashProtect (flag first last : UInt32) (info : FlashInfo) : FlashInfo :=
  if info.sectorCount = 0 ∨ info.size = 0 ∨ last < first then info
  else if info.flashId = flashUnknown ∨ last < sectorStart info 0 ∨ first > bankEnd info then info
  else (List.range info.sectorCount).foldl (protectSector flag first last) info

/-- `s_first[0]` and `s_last[0]` -/
structure Selection where
  sFirst : Int
  sLast : Int

/-- A round of the loop over the sectors. -/
def fillSector (info : FlashInfo) (first last : UInt32) (s : Selection) (sect : Nat) : Selection :=
  if first > sectorEnd info sect then s
  else if last < sectorStart info sect then s
  else
    { sFirst := if first = sectorStart info sect then sect else s.sFirst
      sLast := if last = sectorEnd info sect then sect else s.sLast }

/-- What `flash_fill_sect_ranges` gives back. -/
structure Ranges where
  rcode : Nat
  selection : Selection
  count : Int

def flashFillSectRanges (info : FlashInfo) (first last : UInt32) : Ranges :=
  if last < first ∨ info.flashId = flashUnknown then ⟨0, ⟨-1, -1⟩, 0⟩
  else
    let sEnd : Int := info.sectorCount - 1
    let s := (List.range info.sectorCount).foldl (fillSector info first last) ⟨-1, -1⟩
    if 0 ≤ s.sFirst then
      if s.sLast < 0 ∧ ¬last > bankEnd info then ⟨1, s, 0⟩
      else
        let s := if s.sLast < 0 then { s with sLast := sEnd } else s
        if s.sLast < s.sFirst then ⟨1, s, 0⟩
        else ⟨0, s, s.sLast - s.sFirst + 1⟩
    else if sectorStart info 0 ≤ first ∧ first < bankEnd info then ⟨1, s, 0⟩
    else if 0 ≤ s.sLast then ⟨1, s, 0⟩
    else ⟨0, s, 0⟩

/-- `flash_sect_erase` -/
def flashSectErase (polls : Nat) (op : Operation) (info : FlashInfo) (first last : UInt32) :
    Outcome :=
  let r := flashFillSectRanges info first last
  if r.count ≠ 0 ∧ r.rcode = 0 then
    if 0 ≤ r.selection.sFirst then flashErase polls op info r.selection.sFirst r.selection.sLast
    else ⟨[], some 0, true⟩
  else if r.rcode = 0 then ⟨[], some 1, true⟩
  else ⟨[], some r.rcode, true⟩

/-- `for (i=s_first[bank]; i<=s_last[bank]; ++i) info->protect[i] = p` -/
def protectSectors (p : UInt8) (s : Selection) (info : FlashInfo) : FlashInfo :=
  { info with protect := (sectors s.sFirst s.sLast).foldl (fun l i => l.set i p) info.protect }

/-- `flash_sect_protect`: the result, and the table afterwards. -/
def flashSectProtect (p : UInt8) (info : FlashInfo) (first last : UInt32) : Nat × FlashInfo :=
  let r := flashFillSectRanges info first last
  if r.count ≠ 0 ∧ r.rcode = 0 then
    if info.flashId = flashUnknown then (0, info)
    else if 0 ≤ r.selection.sFirst ∧ r.selection.sFirst ≤ r.selection.sLast then
      (0, protectSectors p r.selection info)
    else (0, info)
  else if r.rcode = 0 then (1, info)
  else (r.rcode, info)

end Plak1a.Flash.Access
