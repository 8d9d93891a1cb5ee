import Plak1a.Lib.Memory

/-!
# The TFTP client of the boot loader

`CFG_DIRECT_FLASH_TFTP` and `CONFIG_TFTP_PORT` are not set. A packet is the payload of a UDP
datagram with its ports. What the console shows is left out.
-/

namespace Plak1a.Net.Tftp

open Lib

abbrev Memory := Nat → UInt8

structure Packet where
  dest : UInt16
  src : UInt16
  bytes : List UInt8
deriving DecidableEq

def tftpRrq : UInt16 := 1
def tftpData : UInt16 := 3
def tftpAck : UInt16 := 4
def tftpError : UInt16 := 5
def tftpOack : UInt16 := 6

inductive TftpState where
  | rrq | data | tooLarge | badMagic | oack
deriving DecidableEq

/-- `NetState`; `again` from a call of `NetStartAgain` on, which gives up the handlers. -/
inductive NetState where
  | going | success | again
deriving DecidableEq

structure Client where
  serverPort : UInt16
  ourPort : UInt16
  timeoutCount : Nat
  block : UInt32
  lastBlock : UInt32
  blockWrap : UInt32
  blockWrapOffset : UInt32
  state : TftpState
  net : NetState
  xferSize : UInt32
  mem : Memory

def timeoutMax : Nat := 10
def tftpBlockSize : UInt32 := 512
def tftpSequenceSize : UInt32 := 65536

/-- `htons` -/
def htons (n : UInt16) : List UInt8 := [(n >>> 8).toUInt8, n.toUInt8]

/-- `ntohs` of two bytes -/
def ntohs (hi lo : UInt8) : UInt16 := (hi.toUInt16 <<< 8) ||| lo.toUInt16

/-- What `strcpy` appends. -/
def cstr (s : List UInt8) : List UInt8 := s ++ [0]

/-- `octet` -/
def octet : List UInt8 := [0x6f, 0x63, 0x74, 0x65, 0x74]

/-- `timeout` -/
def timeout : List UInt8 := [0x74, 0x69, 0x6d, 0x65, 0x6f, 0x75, 0x74]

/-- `File too large` -/
def fileTooLarge : List UInt8 :=
  [0x46, 0x69, 0x6c, 0x65, 0x20, 0x74, 0x6f, 0x6f, 0x20, 0x6c, 0x61, 0x72, 0x67, 0x65]

/-- `File has bad magic` -/
def fileHasBadMagic : List UInt8 :=
  [0x46, 0x69, 0x6c, 0x65, 0x20, 0x68, 0x61, 0x73, 0x20, 0x62, 0x61, 0x64, 0x20, 0x6d, 0x61, 0x67,
    0x69, 0x63]

/-- `TftpSend`: the packet that the state calls for. -/
def tftpSend (filename : List UInt8) (c : Client) : Packet where
  dest := c.serverPort
  src := c.ourPort
  bytes := match c.state with
    | .rrq => htons tftpRrq ++ cstr filename ++ cstr octet ++ cstr timeout ++ cstr [0x35]
    | .data | .oack => htons tftpAck ++ htons c.block.toUInt16
    | .tooLarge => htons tftpError ++ htons 3 ++ cstr fileTooLarge
    | .badMagic => htons tftpError ++ htons 2 ++ cstr fileHasBadMagic

/-- `store_block` -/
def storeBlock (loadAddr block : UInt32) (src : List UInt8) (c : Client) : Client :=
  let offset := block * tftpBlockSize + c.blockWrapOffset
  let newsize := offset + UInt32.ofNat src.length
  { c with
    mem := Memory.store c.mem (loadAddr + offset).toNat src
    xferSize := if c.xferSize < newsize then newsize else c.xferSize }

/-- A number 0 means a wrap around of the counter. -/
def countWrap (c : Client) : Client :=
  if c.block = 0 then
    { c with
      blockWrap := c.blockWrap + 1
      blockWrapOffset := c.blockWrapOffset + tftpBlockSize * tftpSequenceSize }
  else c

/-- The first block is received. -/
def firstBlock (src : UInt16) (c : Client) : Client :=
  { c with
    state := .data, serverPort := src, lastBlock := 0, blockWrap := 0, blockWrapOffset := 0 }

/-- A block that is not the same one again. -/
def newBlock (filename : List UInt8) (loadAddr : UInt32) (data : List UInt8) (c : Client) :
    Client × List Packet :=
  let c := { c with lastBlock := c.block }
  let c := storeBlock loadAddr (c.block - 1) data c
  let sent := [tftpSend filename c]
  if data.length < tftpBlockSize.toNat then ({ c with net := .success }, sent) else (c, sent)

/-- The case `TFTP_DATA`. -/
def dataBlock (filename : List UInt8) (loadAddr : UInt32) (n src : UInt16) (data : List UInt8)
    (c : Client) : Client × List Packet :=
  let c := countWrap { c with block := n.toUInt32 }
  let first := c.state = .rrq ∨ c.state = .oack
  let c := if first then firstBlock src c else c
  if first ∧ c.block ≠ 1 then ({ c with net := .again }, [])
  else if c.block = c.lastBlock then (c, [])
  else newBlock filename loadAddr data c

/-- `TftpHandler` -/
def tftpHandler (filename : List UInt8) (loadAddr : UInt32) (p : Packet) (c : Client) :
    Client × List Packet :=
  if p.dest ≠ c.ourPort then (c, [])
  else if c.state ≠ .rrq ∧ p.src ≠ c.serverPort then (c, [])
  else
    match p.bytes with
    | b₀ :: b₁ :: pkt =>
      let proto := ntohs b₀ b₁
      if proto = tftpOack then
        let c := { c with state := .oack, serverPort := p.src }
        (c, [tftpSend filename c])
      else if proto = tftpData then
        match pkt with
        | n₀ :: n₁ :: data => dataBlock filename loadAddr (ntohs n₀ n₁) p.src data c
        | _ => (c, [])
      else if proto = tftpError then ({ c with net := .again }, [])
      else (c, [])
    | _ => (c, [])

/-- `TftpTimeout` -/
def tftpTimeout (filename : List UInt8) (c : Client) : Client × List Packet :=
  let c := { c with timeoutCount := c.timeoutCount + 1 }
  if c.timeoutCount > timeoutMax then ({ c with net := .again }, [])
  else (c, [tftpSend filename c])

/-- `TftpStart`, at a time `timer`: what was left by an earlier transfer stays. -/
def tftpStart (timer : UInt32) (c : Client) : Client :=
  { c with
    serverPort := 69, timeoutCount := 0, state := .rrq, net := .going, xferSize := 0
    ourPort := (1024 + timer % 3072).toUInt16
    block := 0 }

end Plak1a.Net.Tftp
