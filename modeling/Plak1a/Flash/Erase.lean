import Plak1a.Flash.Bank
import Plak1a.Flash.Info

/-!
# `flash_erase` of the boot loader's flash driver

The trace holds the writes to the bank; the fixed waits after each erase command, the
interrupt flag and the messages leave none. The status that the last loop looks at is that of
the erase of the last sector.
-/

namespace Plak1a.Flash.Erase

open Info Bank

def isProtected (info : FlashInfo) (sect : Nat) : Bool := info.protect.getD sect 0 ≠ 0

def sectorStart (info : FlashInfo) (sect : Nat) : UInt32 := info.start.getD sect 0

/-- The five writes that make the bank accept an erase command. -/
def unlock (info : FlashInfo) : List Cycle :=
  let addr0 := sectorStart info 0 + wordOffset cfgFlashAddr0
  let addr1 := sectorStart info 0 + wordOffset cfgFlashAddr1
  [.command addr0 0x00AA, .command addr1 0x0055, .command addr0 0x0080, .command addr0 0x00AA,
    .command addr1 0x0055]

/-- A round of the loop that starts the erases. -/
def eraseSector (info : FlashInfo) (sFirst sect : Nat) : List Cycle :=
  if isProtected info sect then []
  else if info.flashId &&& flashVendMask = flashManSst then
    unlock info ++ [.command (sectorStart info sect) 0x0050]
  else if sect = sFirst ∨ info.flashId &&& flashTypeMask = flashAtbv642DT then
    unlock info ++ [.command (sectorStart info sect) 0x0030]
  else [.command (sectorStart info sect) 0x0030]

/-- `for (sect = s_first; sect <= s_last; sect++)` -/
def sectors (sFirst sLast : Int) : List Nat :=
  List.range' sFirst.toNat (sLast + 1 - sFirst).toNat

/-- The sector that was started last; `none` for -1. -/
def lSect (info : FlashInfo) (sFirst sLast : Int) : Option Nat :=
  ((sectors sFirst sLast).filter fun sect => !isProtected info sect).getLast?

/-- `flash_erase`, up to `polls` rounds of the wait for the last erase `op`. -/
def flashErase (polls : Nat) (op : Operation) (info : FlashInfo) (sFirst sLast : Int) : Outcome :=
  if sFirst < 0 ∨ sFirst > sLast then ⟨[], some 1, true⟩
  else if info.flashId = flashUnknown then ⟨[], some 1, true⟩
  else
    let cycles := (sectors sFirst sLast).flatMap (eraseSector info sFirst.toNat)
    let done := cycles ++ [resetBank (sectorStart info 0)]
    if lSect info sFirst sLast = none then ⟨done, some 0, true⟩
    else
      match wait cfgFlashEraseTout polls op.done op.timer with
      | none => ⟨cycles, none, false⟩
      | some i =>
        if op.done i then ⟨done, some 0, true⟩
        -- The timeout returns without the reset.
        else ⟨cycles, some 1, op.finishedBy (2 * i + 1)⟩

end Plak1a.Flash.Erase
