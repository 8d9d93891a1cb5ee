import Mathlib.Algebra.Group.Nat.Defs
import Plak1a.Accelerometer.I2c
import Plak1a.Lib.Run

/-!
# `i2c_transfer` and `GetADC` of the touch screen

The loop is that of the accelerometer's transfer with one difference, that the address byte is
always the one for reading. The controller and its statuses are the same. The converter at the
other end begins a new block of four words each time it acknowledges its address, and sends its
bytes from the front, high byte first.
-/

namespace Plak1a.Touchscreen.I2c

open Accelerometer.I2c (Status Phase State)

/-- Word `k` of the block that the `n`-th acknowledged address begins, with the channel in bits
13 and 12 and the result in bits 11 to 0. -/
structure Converter where
  word : Nat → Nat → UInt16

namespace Converter

variable (conv : Converter)

/-- The byte of block `n` at place `i`. -/
def byte (n i : Nat) : UInt8 :=
  if i % 2 = 0 then (conv.word n (i / 2) >>> 8).toUInt8 else (conv.word n (i / 2)).toUInt8

def channel (n k : Nat) : Nat := (conv.word n k).toNat / 2 ^ 12 % 2 ^ 2

/-- The result of a word, masked with `0x0FFC`. -/
def field (n k : Nat) : UInt16 := conv.word n k &&& 0x0FFC

end Converter

/-- A status without the byte, which is the converter's. -/
inductive Event
  | start
  | repeatedStart
  | slaW (ack : Bool)
  | dataSent (ack : Bool)
  | arbitrationLost
  | slaR (ack : Bool)
  | dataReceived (ack : Bool)
deriving DecidableEq

def Event.status (b : UInt8) : Event → Status
  | start => .start
  | repeatedStart => .repeatedStart
  | slaW ack => .slaW ack
  | dataSent ack => .dataSent ack
  | arbitrationLost => .arbitrationLost
  | slaR ack => .slaR ack
  | dataReceived ack => .dataReceived ack b

/-- The function and the controller, with what the converter has done. -/
structure Bus where
  i2c : State
  /-- blocks begun -/
  blocks : Nat
  /-- the bytes sent, by block and place -/
  record : List (Nat × Nat)

/-- The converter's address, for reading. -/
def address : UInt8 := (0x28 : UInt8) <<< 1 ||| 0x01

/-- The `switch` on the status. -/
def handle (buffer : Nat → UInt8) (s : State) : Status → State
  | .start => { s with dat := address }
  | .repeatedStart => { s with dat := address }
  | c => s.handle buffer c

/-- What the converter does at an event. -/
def Bus.answer (s : Bus) (i2c : State) : Event → Bus
  | .slaR true => { s with i2c := i2c, blocks := s.blocks + 1 }
  | .dataReceived _ =>
    { s with i2c := i2c, record := s.record ++ [(s.blocks, s.i2c.sent.length)] }
  | _ => { s with i2c := i2c }

/-- A round of the loop; there is none once `transferComplete` is set. -/
def step (buffer : Nat → UInt8) (conv : Converter) (s : Bus) (e : Event) : Option Bus :=
  let c := e.status (conv.byte s.blocks s.i2c.sent.length)
  if s.i2c.transferComplete then none
  else if s.i2c.conforming c then
    some (s.answer ((handle buffer (s.i2c.arrive c) c).resume c) e)
  else none

/-- The call `i2c_transfer()` up to its loop, on an idle bus. -/
def call (before : State) : Bus where
  i2c := { before with
    rxBytesRemaining := 2 * 4
    transferComplete := false
    pos := 0
    rxWrPos := 0
    bytesRemaining := 1
    sta := true
    sto := false
    phase := .start
    addressed := false
    acked := []
    sent := [] }
  blocks := 0
  record := []

/-- The two bytes from `i` on as a number. It has 16 bits, so that words do for the `int`. -/
def joined (rxBuffer : Nat → UInt8) (i : Nat) : UInt32 :=
  (rxBuffer i).toUInt32 <<< 8 ||| (rxBuffer (i + 1)).toUInt32

/-- `ch` -/
def channelOf (j : UInt32) : Int32 := ((0x3000 &&& j) >>> 12).toInt32

/-- `GetADC(channel)` behind its call of `i2c_transfer`. -/
def getAdc (rxBuffer : Nat → UInt8) (channel : Int32) : UInt32 :=
  match [0, 2, 4, 6].find? fun i => channelOf (joined rxBuffer i) = channel with
  | some i => joined rxBuffer i &&& 0x0FFC
  | none => -1

end Plak1a.Touchscreen.I2c
