import Plak1a.Lan.Mac

/-!
# `lan9118_open` of the two LAN9118 drivers

The chip is woken, its MAC is set up and its PHY is reset and made to negotiate; the result
is the value of `RetVal` at the end. The copy under `lan` asks the chip for its identity
first. The two loops over the PHY count a timeout down and judge its end differently: the
one for the reset by what is left in the counter, the one for the negotiation by another
reading.
-/

namespace Plak1a.Lan.Open

open Mac Lib.Countdown

def phyAnTimeout : Nat := 10

def phyBcr : UInt8 := 0x0

def phyBsr : UInt8 := 0x1

def phyId1 : UInt8 := 0x2

def phyId2 : UInt8 := 0x3

def phyAnar : UInt8 := 0x4

def phyAnlpar : UInt8 := 0x5

def phyPhyscsr : UInt8 := 0x1F

def phyBcrRst : UInt16 := 0x8000

def macCr : UInt32 := 0x1

def macAddrh : UInt32 := 0x2

def macAddrl : UInt32 := 0x3

def macFlow : UInt32 := 0x8

/-- `!(*PWR_MGMT & PWR_MGMT_PME_READY)` -/
def pollReady (c : Chip) : Bool × Chip :=
  let r := c.read .pwrMgmt
  (r.1 &&& 0x1 = 0, r.2)

/-- From the reset of the chip to the answer whether its PHY is running. -/
def wake (c : Chip) : Bool × Chip :=
  let r := (c.store .hwCfg 0x00000001).read .pwrMgmt
  if r.1 &&& 0x00030000 = 0 then (true, r.2)
  else
    let p := countdown pollReady phyTimeout (r.2.store .byteTest 0x0)
    let q := pollReady p.2
    (!q.1, q.2)

/-- What the two copies set up differently. -/
structure Settings where
  broadcast : UInt32 → UInt32
  fifoInt : UInt32

def setMacAddr (macAddr : Nat → UInt8) (c : Chip) : Chip :=
  let byte (i : Nat) := (macAddr i).toUInt32
  let macAddrhValue := byte 5 <<< 8 ||| byte 4
  let macAddrlValue := byte 3 <<< 24 ||| byte 2 <<< 16 ||| byte 1 <<< 8 ||| byte 0
  if macAddrhValue ≠ 0 ∨ macAddrlValue ≠ 0 then
    let c := (c.setMacReg macAddrh macAddrhValue).2
    (c.setMacReg macAddrl macAddrlValue).2
  else c

/-- `SetMacReg(MAC_CR, f(GetMacReg(MAC_CR)))` -/
def updateMacCr (f : UInt32 → UInt32) (c : Chip) : Chip :=
  let r := c.getMacReg macCr
  (r.2.setMacReg macCr (f r.1)).2

/-- `*r = f(*r)` -/
def updateRegister (r : Register) (f : UInt32 → UInt32) (c : Chip) : Chip :=
  let v := c.read r
  v.2.store r (f v.1)

/-- From the FIFO sizes to the interrupts. -/
def setup (s : Settings) (macAddr : Nat → UInt8) (c : Chip) : Chip :=
  let c := c.store .hwCfg 0x00040000
  let c := c.store .afcCfg 0x008c46af
  let c := c.store .gpioCfg 0x70700000
  let c := c.store .intEn 0x0
  let c := c.store .intSts 0xffffffff
  let c := c.store .irqCfg 0x00000001
  let c := (c.setMacReg macFlow 0xffff0002).2
  let c := setMacAddr macAddr c
  let c := c.store .txCfg (0x00008000 ||| 0x00004000)
  let c := c.store .rxCfg 0x00008000
  let c := updateRegister .hwCfg (fun v => v &&& 0x000F0000 ||| 0x00100000) c
  let c := c.store .fifoInt 0xFF000000
  let c := updateRegister .intEn (· ||| 0x00000200) c
  let c := updateMacCr
    (fun v => s.broadcast ((v ||| (0x00000008 ||| 0x10000000)) &&& ~~~0x00040000)) c
  let c := c.store .rxCfg 0x00000000
  let c := updateMacCr (· ||| 0x00000004) c
  let c := updateRegister .fifoInt (fun v => v &&& 0xffff0000 ||| s.fifoInt) c
  let c := updateRegister .intEn (· ||| (0x00000008 ||| 0x00004000)) c
  updateRegister .intEn (· ||| 0x00800000) c

/-- `(GetPhyReg(PHY_ID1) == PHY_ID1_…) && (GetPhyReg(PHY_ID2) == PHY_ID2_…)` -/
def phyIdIs (id1 id2 : UInt16) (c : Chip) : Bool × Chip :=
  let a := c.getPhyReg phyId1
  if a.1 = id1 then
    let b := a.2.getPhyReg phyId2
    (b.1 = id2, b.2)
  else (false, a.2)

/-- The LAN9118 or the LAN9218. -/
def knownPhy (c : Chip) : Bool × Chip :=
  let a := phyIdIs 0x0007 0xC0D1 c
  if a.1 then a else phyIdIs 0x0007 0xC0C3 a.2

/-- `GetPhyReg(PHY_BCR) & PHY_BCR_RST` -/
def pollReset (c : Chip) : Bool × Chip :=
  let r := c.getPhyReg phyBcr
  (r.1 &&& phyBcrRst ≠ 0, r.2)

def updatePhyReg (reg : UInt8) (f : UInt16 → UInt16) (c : Chip) : Chip :=
  let r := c.getPhyReg reg
  (r.2.setPhyReg reg (f r.1)).2

def startNegotiation (c : Chip) : Chip :=
  let c := updatePhyReg phyAnar
    (fun anar => anar &&& ~~~0x0C00 ||| 0x0C00 ||| (0x0040 ||| 0x0020 ||| 0x0100 ||| 0x0080)) c
  let c := updatePhyReg phyBcr (· ||| (0x2000 ||| 0x0100)) c
  updatePhyReg phyBcr (· ||| (0x1000 ||| 0x0200)) c

/-- `(GetPhyReg(PHY_BSR) & PHY_BSR_ANC) == 0` -/
def pollNegotiation (c : Chip) : Bool × Chip :=
  let r := c.getPhyReg phyBsr
  (r.1 &&& 0x0020 = 0, r.2)

/-- Whether the negotiation completes. -/
def negotiate (c : Chip) : Bool × Chip :=
  let p := countdown pollNegotiation phyAnTimeout (startNegotiation c)
  let q := pollNegotiation p.2
  (!q.1, q.2)

/-- `(GetPhyReg(PHY_BSR) & PHY_BSR_LINK_STATUS) != 0` -/
def linkUp (c : Chip) : Bool × Chip :=
  let r := c.getPhyReg phyBsr
  (r.1 &&& 0x0004 ≠ 0, r.2)

/-- The reading of the speed that is only reported, and full duplex for the MAC. -/
def setDuplex (c : Chip) : Chip :=
  let c := (c.getPhyReg phyPhyscsr).2
  let a := c.getPhyReg phyAnar
  let b := a.2.getPhyReg phyAnlpar
  if (a.1 &&& b.1) &&& 0x0140 ≠ 0 then updateMacCr (· ||| 0x00100000) b.2 else b.2

/-- The negotiation and the link behind it. -/
def connect (c : Chip) : Bool × Chip :=
  let n := negotiate c
  if !n.1 then (false, n.2)
  else
    let l := linkUp n.2
    if !l.1 then (false, l.2) else (true, setDuplex l.2)

/-- Behind `SetPhyReg(PHY_BCR, PHY_BCR_RST)`. -/
def resetPhy (c : Chip) : Chip := (c.setPhyReg phyBcr phyBcrRst).2

/-- `/* Initialize PHY parameters */`; an unknown PHY is left as it is. -/
def initPhy (c : Chip) : Bool × Chip :=
  let k := knownPhy c
  if k.1 then
    let r := countdown pollReset phyTimeout (resetPhy k.2)
    if r.1 = 0 then (false, r.2) else connect r.2
  else (true, k.2)

/-- Everything behind the identity of the chip. -/
def openChip (s : Settings) (macAddr : Nat → UInt8) (c : Chip) : Bool × Chip :=
  let w := wake c
  if !w.1 then (false, w.2) else initPhy (setup s macAddr w.2)

/-- The copy under `uip-1.0` -/
def uipSettings : Settings := ⟨(· &&& ~~~0x00000800), 0x00000101⟩

/-- The copy under `lan` -/
def lanSettings : Settings := ⟨(· ||| 0x00000800), 0x00000001⟩

/-- The values of `*ID_REV & ID_REV_ID_MASK` that the copy under `lan` goes on with. -/
def chips : List UInt32 :=
  [0x01180000, 0x01170000, 0x01160000, 0x01150000, 0x118a0000, 0x117a0000, 0x116a0000, 0x115a0000,
    0x92100000, 0x92110000, 0x92200000, 0x92210000]

/-- `lan9118_open` under `uip-1.0` -/
def uipOpen (macAddr : Nat → UInt8) (c : Chip) : Bool × Chip := openChip uipSettings macAddr c

/-- `lan9118_open` under `lan` -/
def lanOpen (macAddr : Nat → UInt8) (c : Chip) : Bool × Chip :=
  let r := c.read .idRev
  if (r.1 &&& 0xFFFF0000) ∈ chips then openChip lanSettings macAddr r.2 else (false, r.2)

end Plak1a.Lan.Open
