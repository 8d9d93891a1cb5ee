import Plak1a.Lib.While
import Plak1a.Lib.Memory

/-!
# The C328R driver

The functions of `c328r.c` that fetch a picture, over any device at the other end
of UART0. A device is told what `uart0Write` sends and answers each wait for one
byte: with the byte, or with nothing when `ONE_SEC` has passed without one. The
pauses and the texts for UART1 are left out.
-/

namespace Plak1a.Camera.C328r

open Plak1a.Lib

/-- What is connected to UART0. -/
structure Device (D : Type) where
  write : D → List UInt8 → D
  /-- the outcome of the polls of `uart0Getch` for one byte -/
  getch : D → Option UInt8 × D

abbrev Memory := Nat → UInt8

def CMD_PREFIX : UInt8 := 0xAA
def CMD_GETPICTURE : UInt8 := 0x04
def CMD_DATA : UInt8 := 0x0A
def CMD_ACK : UInt8 := 0x0E

/-- `PACKAGE_SIZE` -/
def packageSize : Nat := 512

/-- The result of `WaitForResponse`, the device and the memory it leaves. -/
structure Response (D : Type) where
  stat : Nat
  dev : D
  buffer : Memory

variable {D : Type}

/-- `WaitForResponse` with `readBuffer` at address `p`. -/
def waitForResponse (uart0 : Device D) : Nat → D → Memory → Nat → Response D
  | 0, d, m, _ => ⟨0, d, m⟩
  | len + 1, d, m, p =>
    match uart0.getch d with
    | (none, d) => ⟨0, d, m⟩
    | (some ch, d) =>
      let r := waitForResponse uart0 len d (Function.update m p ch) (p + 1)
      { r with stat := r.stat + 1 }

def sendCommand (uart0 : Device D) (d : D) (commandArray : List UInt8) : D :=
  uart0.write d commandArray

/-- A local array of six bytes; it is read only after all six have been written. -/
def responseBuffer : Memory := fun _ => 0

def receiveACK (uart0 : Device D) (d : D) (expectedACKCommand : UInt8) : Int × D :=
  let r := waitForResponse uart0 6 d responseBuffer 0
  if r.stat = 6 ∧ r.buffer 1 = CMD_ACK ∧ r.buffer 2 = expectedACKCommand then (0, r.dev)
  else (-1, r.dev)

/-- The six bytes of `SendACK`. The cast to `unsigned char` binds tighter than the shift. -/
def ackCommand (commandId packageId : Nat) : List UInt8 :=
  [CMD_PREFIX, CMD_ACK, UInt8.ofNat commandId, 0, UInt8.ofNat packageId,
    UInt8.ofNat ((UInt8.ofNat packageId).toNat >>> 8)]

def sendACK (uart0 : Device D) (d : D) (commandId packageId : Nat) : D :=
  sendCommand uart0 d (ackCommand commandId packageId)

/-- The size in the DATA reply: both upper bytes are shifted by eight. -/
def pictureDataSize (response : Memory) : Nat :=
  (response 5).toNat <<< 8 ||| (response 4).toNat <<< 8 ||| (response 3).toNat

/-- The result of `GetPictureCommand` and the size it stores. -/
structure PictureInfo (D : Type) where
  stat : Int
  size : Nat
  dev : D

def getPictureCommand (uart0 : Device D) (d : D) (pictureType : UInt8) : PictureInfo D :=
  let d := sendCommand uart0 d [CMD_PREFIX, CMD_GETPICTURE, pictureType, 0, 0, 0]
  let (ack, d) := receiveACK uart0 d CMD_GETPICTURE
  if ack ≠ 0 then ⟨-1, 0, d⟩
  else
    let r := waitForResponse uart0 6 d responseBuffer 0
    if r.stat ≠ 6 ∨ r.buffer 1 ≠ CMD_DATA then ⟨-1, 0, r.dev⟩
    else ⟨0, pictureDataSize r.buffer, r.dev⟩

/-- The result of `GetRawPicture` or `GetJpegPicture`, the device and the buffer it leaves. -/
structure Outcome (D : Type) where
  result : Int
  dev : D
  dataBuffer : Memory

def getRawPicture (uart0 : Device D) (d : D) (pictureType : UInt8) (dataBuffer : Memory) :
    Outcome D :=
  let info := getPictureCommand uart0 d pictureType
  if info.stat ≠ 0 then ⟨-1, info.dev, dataBuffer⟩
  else
    let r := waitForResponse uart0 info.size info.dev dataBuffer 0
    if r.stat ≠ info.size then
      let r2 := waitForResponse uart0 (info.size - r.stat) r.dev r.buffer r.stat
      ⟨r.stat, sendACK uart0 r2.dev CMD_DATA.toNat 0, r2.buffer⟩
    else ⟨info.size, sendACK uart0 r.dev CMD_DATA.toNat 0, r.buffer⟩

/-- The variables of the loop of `GetJpegPicture`. Addresses of `dataBuffer` and
`response` count from the start of the array. -/
structure Transfer (D : Type) where
  dev : D
  dataBuffer : Memory
  response : Memory
  bufferPosition : Nat
  packageCounter : Nat
  errorCounter : Nat

def packetSize (response : Memory) : Nat :=
  (response 3).toNat <<< 8 ||| (response 2).toNat

def moreData (dataSize : Nat) (s : Transfer D) : Bool :=
  s.bufferPosition < dataSize ∧ s.errorCounter ≤ 15

/-- One round: acknowledge, wait for a package, store its payload or count an error. -/
def receivePackage (uart0 : Device D) (s : Transfer D) : Transfer D :=
  let r := waitForResponse uart0 packageSize (sendACK uart0 s.dev 0 s.packageCounter) s.response 0
  if r.stat = packageSize then
    { s with
      dev := r.dev
      response := r.buffer
      dataBuffer := Memory.copy s.dataBuffer s.bufferPosition r.buffer 4 (packetSize r.buffer)
      bufferPosition := s.bufferPosition + packetSize r.buffer
      packageCounter := s.packageCounter + 1 }
  else
    { s with dev := r.dev, response := r.buffer, errorCounter := s.errorCounter + 1 }

/-- `GetJpegPicture` with at most `fuel` tests of its loop. -/
def getJpegPicture (uart0 : Device D) (fuel : Nat) (d : D) (pictureType : UInt8)
    (dataBuffer response : Memory) : Option (Outcome D) :=
  let info := getPictureCommand uart0 d pictureType
  if info.stat ≠ 0 then some ⟨-1, info.dev, dataBuffer⟩
  else
    (While.run (moreData info.size) (receivePackage uart0) fuel
      ⟨info.dev, dataBuffer, response, 0, 0, 0⟩).map fun s =>
        ⟨info.size, sendACK uart0 s.dev 0 s.packageCounter, s.dataBuffer⟩

/-- `GetJpegPicture` returns with this outcome. -/
def Returns (uart0 : Device D) (d : D) (pictureType : UInt8) (dataBuffer response : Memory)
    (o : Outcome D) : Prop :=
  ∃ fuel, getJpegPicture uart0 fuel d pictureType dataBuffer response = some o

end Plak1a.Camera.C328r
