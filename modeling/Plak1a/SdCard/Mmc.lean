/-!
# Sector access to an MMC card over SPI

The card is whatever answers on the bus: `spi s b` is the byte shifted in while `b` is
shifted out, and the next state. `MMC_Enable` and `MMC_Disable` are empty macros. A
`while` without a time-out takes a bound on its number of polls; `none` means that the
bound did not suffice. `unsigned long` is 32 bits wide.
-/

namespace Plak1a.SdCard.Mmc

def blockSize : Nat := 512

section Bus

variable {σ : Type} (spi : σ → UInt8 → UInt8 × σ)

def readByteMMC (s : σ) : UInt8 × σ := spi s 0xff

def writeByteMMC (byte : UInt8) (s : σ) : σ := (spi s byte).2

/-- The loops that write bytes one after the other. -/
def writeBytes : List UInt8 → σ → σ
  | [], s => s
  | b :: bs, s => writeBytes bs (writeByteMMC spi b s)

/-- The loops that read bytes one after the other. -/
def readBytes : Nat → σ → List UInt8 × σ
  | 0, s => ([], s)
  | n + 1, s =>
    let r := readByteMMC spi s
    let rs := readBytes n r.2
    (r.1 :: rs.1, rs.2)

/-- `while (tmp == 0xff)` of `Write_Command_MMC` with `n` reads left. -/
def awaitResponse : Nat → UInt8 → σ → UInt8 × σ
  | 0, tmp, s => (tmp, s)
  | n + 1, tmp, s =>
    if tmp = 0xff then
      let r := readByteMMC spi s
      awaitResponse n r.1 r.2
    else (tmp, s)

/-- `Timeout++ > 500` breaks the loop in its 502nd round. -/
def responseReads : Nat := 502

def writeCommandMMC (cmd : List UInt8) (s : σ) : UInt8 × σ :=
  let s := writeByteMMC spi 0xff s
  let s := writeBytes spi cmd s
  awaitResponse spi responseReads 0xff s

/-- `while (Read_Byte_MMC() != b) {}` -/
def waitByte (b : UInt8) : Nat → σ → Option σ
  | 0, _ => none
  | n + 1, s =>
    let r := readByteMMC spi s
    if r.1 = b then some r.2 else waitByte b n r.2

/-- `CMD[1]` to `CMD[3]` from the 32-bit address; `CMD[4]` stays 0. -/
def command (code : UInt8) (addr : UInt32) : List UInt8 :=
  [code, ((addr &&& 0xFF000000) >>> 24).toUInt8, ((addr &&& 0x00FF0000) >>> 16).toUInt8,
    ((addr &&& 0x0000FF00) >>> 8).toUInt8, 0x00, 0xFF]

/-- The return value and the card afterwards. -/
def mmcWriteSector (polls : Nat) (addr : UInt32) (buffer : List UInt8) (s : σ) :
    Option (UInt8 × σ) :=
  let r := writeCommandMMC spi (command 0x58 addr) s
  if r.1 ≠ 0 then some r
  else
    let s := (readBytes spi 100 r.2).2
    let s := writeByteMMC spi 0xFE s
    let s := writeBytes spi (buffer.take blockSize) s
    let s := writeByteMMC spi 0xFF s
    let s := writeByteMMC spi 0xFF s
    (waitByte spi 0xff polls s).map fun s => (0, s)

/-- The contents of `Buffer` and the card afterwards. -/
def mmcReadBlock (polls : Nat) (cmd buffer : List UInt8) (bytes : Nat) (s : σ) :
    Option (List UInt8 × σ) :=
  let r := writeCommandMMC spi cmd s
  if r.1 ≠ 0 then some (buffer, r.2)
  else
    (waitByte spi 0xfe polls r.2).map fun s =>
      let data := readBytes spi bytes s
      let s := (readByteMMC spi data.2).2
      let s := (readByteMMC spi s).2
      (data.1 ++ buffer.drop bytes, s)

/-- The return value, the contents of `Buffer` and the card afterwards. -/
def mmcReadSector (polls : Nat) (addr : UInt32) (buffer : List UInt8) (s : σ) :
    Option (UInt8 × List UInt8 × σ) :=
  let addr := addr <<< 9
  (mmcReadBlock spi polls (command 0x51 addr) buffer blockSize s).map fun r => (0, r)

end Bus

end Plak1a.SdCard.Mmc
