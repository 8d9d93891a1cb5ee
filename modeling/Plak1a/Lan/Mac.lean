import Mathlib.Logic.Function.Basic
import Plak1a.Lib.Countdown

/-!
# The MAC and PHY registers of the LAN9118

The registers of the MAC are reached through a command and a data register of the chip,
those of the PHY through two registers of the MAC. The chip is taken as the values its
registers will be read with, each register in its own order, so that nothing is assumed
about it. What the driver stores and the commands the MAC was given are kept in a log, a
command with the outcome of the wait behind it. The delays read registers that nothing
else reads and are left out. Both copies of the driver have the same text here.
-/

namespace Plak1a.Lan.Mac

open Lib.Countdown

def macTimeout : Nat := 200

def phyTimeout : Nat := 200

def phyAddr : UInt32 := 1

/-- `MAC_RD_CMD` -/
def macRdCmd (reg : UInt32) : UInt32 := (reg &&& 0xFF) ||| (0x80000000 ||| 0x40000000)

/-- `MAC_WR_CMD` -/
def macWrCmd (reg : UInt32) : UInt32 := (reg &&& 0xFF) ||| 0x80000000

def macMiiacc : UInt32 := 0x6

def macMiidata : UInt32 := 0x7

/-- `MAC_MII_RD_CMD` -/
def macMiiRdCmd (addr reg : UInt32) : UInt32 := ((addr &&& 0x1f) <<< 11) ||| ((reg &&& 0x1f) <<< 6)

/-- `MAC_MII_WR_CMD` -/
def macMiiWrCmd (addr reg : UInt32) : UInt32 :=
  ((addr &&& 0x1f) <<< 11) ||| ((reg &&& 0x1f) <<< 6) ||| 0x2

/-- The test of `MAC_CSR_CMD_CSR_BUSY` -/
def csrBusy (cmd : UInt32) : Bool := cmd &&& 0x80000000 ≠ 0

/-- The test of `MAC_MIIACC_MII_BUSY` -/
def miiBusy (miiacc : UInt32) : Bool := miiacc &&& 0x1 ≠ 0

inductive Register
  | idRev
  | irqCfg
  | intSts
  | intEn
  | byteTest
  | fifoInt
  | rxCfg
  | txCfg
  | hwCfg
  | pwrMgmt
  | gpioCfg
  | macCsrCmd
  | macCsrData
  | afcCfg
deriving DecidableEq

inductive Access
  | store (r : Register) (v : UInt32)
  /-- a read command; no data if the wait for it timed out -/
  | macRead (cmd : UInt32) (data : Option UInt32)
  /-- a write command behind its data; not `done` if the wait for it timed out -/
  | macWrite (data cmd : UInt32) (done : Bool)
deriving DecidableEq

/-- The values the registers will be read with, and what has been done, in order. -/
structure Chip where
  reads : Register → Nat → UInt32
  log : List Access

namespace Chip

/-- A read of a register of the chip. -/
def read (r : Register) (c : Chip) : UInt32 × Chip :=
  (c.reads r 0, { c with reads := Function.update c.reads r fun n => c.reads r (n + 1) })

def note (a : Access) (c : Chip) : Chip := { c with log := c.log ++ [a] }

/-- A write to a register of the chip. -/
def store (r : Register) (v : UInt32) (c : Chip) : Chip := c.note (.store r v)

/-- `*MAC_CSR_CMD & MAC_CSR_CMD_CSR_BUSY` -/
def pollCsr (c : Chip) : Bool × Chip :=
  let r := c.read .macCsrCmd
  (csrBusy r.1, r.2)

/-- `true` is a timeout. -/
def macBusy (reqTO : Nat) (c : Chip) : Bool × Chip :=
  let r := countdown pollCsr reqTO c
  (r.1 = -1, r.2)

def getMacReg (reg : UInt32) (c : Chip) : UInt32 × Chip :=
  let r := c.pollCsr
  if r.1 then (0xffffffff, r.2)
  else
    let b := r.2.macBusy macTimeout
    if b.1 then (0xffffffff, b.2.note (.macRead (macRdCmd reg) none))
    else
      let d := b.2.read .macCsrData
      (d.1, d.2.note (.macRead (macRdCmd reg) (some d.1)))

def setMacReg (reg value : UInt32) (c : Chip) : Bool × Chip :=
  let r := c.pollCsr
  if r.1 then (false, r.2)
  else
    let b := r.2.macBusy macTimeout
    (!b.1, b.2.note (.macWrite value (macWrCmd reg) !b.1))

/-- `GetMacReg(MAC_MIIACC) & MAC_MIIACC_MII_BUSY` -/
def pollMii (c : Chip) : Bool × Chip :=
  let r := c.getMacReg macMiiacc
  (miiBusy r.1, r.2)

/-- `true` is a timeout. -/
def phyBusy (reqTO : Nat) (c : Chip) : Bool × Chip :=
  let r := countdown pollMii reqTO c
  (r.1 = -1, r.2)

def getPhyReg (reg : UInt8) (c : Chip) : UInt16 × Chip :=
  let m := c.pollMii
  if m.1 then (0, m.2)
  else
    let w := m.2.setMacReg macMiiacc (macMiiRdCmd phyAddr reg.toUInt32)
    let b := w.2.phyBusy phyTimeout
    if b.1 then (0xffff, b.2)
    else
      let d := b.2.getMacReg macMiidata
      (d.1.toUInt16, d.2)

/-- The results of the two writes are not looked at. -/
def setPhyReg (reg : UInt8) (value : UInt16) (c : Chip) : Bool × Chip :=
  let m := c.pollMii
  if m.1 then (false, m.2)
  else
    let w := m.2.setMacReg macMiidata value.toUInt32
    let w := w.2.setMacReg macMiiacc (macMiiWrCmd phyAddr reg.toUInt32)
    let b := w.2.phyBusy phyTimeout
    if b.1 then (false, b.2) else (true, b.2)

end Chip

end Plak1a.Lan.Mac
