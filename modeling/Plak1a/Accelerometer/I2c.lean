import Mathlib.Logic.Function.Basic

/-!
# `i2c_transfer` of the accelerometer program

`I2C_I2STAT` shows a status while the SI flag is set and 0xF8 otherwise, so that the loop
takes each status once: every case ends with clearing SI. What the controller does then
depends on the status and on its flags, as its manual lists for the master modes. A step
is one status, from its arrival to the clearing of SI. The bus is seen from the slave:
the data bytes it has acknowledged since it was last addressed for writing, and the bytes
it has sent since it was last addressed for reading.
-/

namespace Plak1a.Accelerometer.I2c

/-- The address of the accelerometer, for writing. -/
def lis3l : UInt8 := 0x3A

inductive Status
  /-- 0x08 -/
  | start
  /-- 0x10 -/
  | repeatedStart
  /-- 0x18 and 0x20: address for writing, acknowledged or not -/
  | slaW (ack : Bool)
  /-- 0x28 and 0x30: data byte sent, acknowledged or not -/
  | dataSent (ack : Bool)
  /-- 0x38 -/
  | arbitrationLost
  /-- 0x40 and 0x48: address for reading, acknowledged or not -/
  | slaR (ack : Bool)
  /-- 0x50 and 0x58: data byte received, acknowledged or not -/
  | dataReceived (ack : Bool) (b : UInt8)
deriving DecidableEq

/-- What the controller does while SI is clear. -/
inductive Phase
  | start
  | repeatedStart
  | address
  | sendData
  | receive
  | off
deriving DecidableEq

structure State where
  /-- `i2c_pos` -/
  pos : Nat
  bytesRemaining : Int
  rxWrPos : Nat
  rxBytesRemaining : Int
  rxComplete : Bool
  /-- `i2c_RdnWr` -/
  rdnWr : UInt8
  transferComplete : Bool
  rxBuffer : Nat → UInt8
  sta : Bool
  sto : Bool
  aa : Bool
  /-- `I2C_I2DAT` -/
  dat : UInt8
  phase : Phase
  /-- the slave has acknowledged its address -/
  addressed : Bool
  acked : List UInt8
  sent : List UInt8

namespace State

/-- A controller gives 0x50 with AA set and 0x58 with AA clear; a slave that is not
addressed acknowledges no data. -/
def conforming (s : State) : Status → Bool
  | .start => s.phase = .start
  | .repeatedStart => s.phase = .repeatedStart
  | .slaW _ => s.phase = .address && s.dat &&& 1 = 0
  | .slaR _ => s.phase = .address && s.dat &&& 1 = 1
  | .dataSent ack => s.phase = .sendData && (s.addressed || !ack)
  | .arbitrationLost => s.phase ≠ .off
  | .dataReceived ack _ => s.phase = .receive && s.aa = ack

/-- The bus when a status arrives. -/
def arrive (s : State) : Status → State
  | .slaW ack => { s with addressed := ack }
  | .slaR ack => { s with addressed := ack }
  | .dataSent true => { s with acked := s.acked ++ [s.dat] }
  | .dataReceived _ b => { s with dat := b, sent := s.sent ++ [b] }
  | _ => s

/-- The cases 0x18, 0x20, 0x28 and 0x30. -/
def masterTransmit (buffer : Nat → UInt8) (s : State) : State :=
  if 0 < s.bytesRemaining then
    { s with
      dat := buffer s.pos
      pos := s.pos + 1
      bytesRemaining := s.bytesRemaining - 1
      sta := false }
  else if s.rxBytesRemaining = 0 then
    { s with sto := true, sta := false, transferComplete := true }
  else
    { s with
      rdnWr := ~~~ s.rdnWr &&& 1
      pos := 0
      rxWrPos := 0
      rxComplete := false
      sta := true }

/-- The `switch` on the status. -/
def handle (buffer : Nat → UInt8) (s : State) : Status → State
  | .start => { s with dat := lis3l ||| s.rdnWr }
  | .repeatedStart => { s with dat := lis3l ||| s.rdnWr }
  | .slaW _ => s.masterTransmit buffer
  | .dataSent _ => s.masterTransmit buffer
  | .arbitrationLost => { s with sta := true }
  | .slaR true => { s with aa := s.rxBytesRemaining ≠ 0, sta := false }
  | .slaR false => { s with sta := true }
  | .dataReceived true _ =>
    { s with
      rxBuffer := Function.update s.rxBuffer s.rxWrPos s.dat
      rxWrPos := s.rxWrPos + 1
      rxBytesRemaining := s.rxBytesRemaining - 1
      aa := s.rxBytesRemaining - 1 ≠ 0
      sta := false }
  | .dataReceived false _ =>
    { s with rxComplete := true, transferComplete := true, sta := false, sto := true }

/-- A start or stop condition, if one is asked for. -/
def condition (s : State) (next : Phase) : State :=
  if s.sto then { s with phase := .off, sto := false }
  else if s.sta then { s with phase := .repeatedStart }
  else { s with phase := next }

/-- The address in the data register goes out behind a start condition. -/
def sendAddress (s : State) : State :=
  if s.dat &&& 1 = 0 then { s with phase := .address, acked := [] }
  else { s with phase := .address, sent := [] }

/-- What the controller does when SI is cleared after a status. -/
def resume (s : State) : Status → State
  | .start => s.sendAddress
  | .repeatedStart => s.sendAddress
  | .slaW _ => s.condition .sendData
  | .dataSent _ => s.condition .sendData
  | .arbitrationLost => if s.sta then { s with phase := .start } else { s with phase := .off }
  | .slaR true => { s with phase := .receive }
  | .slaR false => s.condition .off
  | .dataReceived true _ => { s with phase := .receive }
  | .dataReceived false _ => s.condition .off

end State

/-- A round of the loop; there is none once `transferComplete` is set. -/
def step (buffer : Nat → UInt8) (s : State) (c : Status) : Option State :=
  if s.transferComplete then none
  else if s.conforming c then some (((s.arrive c).handle buffer c).resume c)
  else none

/-- The call `i2c_transfer(len, rx)` up to its loop. What it leaves alone is as before. -/
def call (len rx : Nat) (rxComplete : Bool) (rxBuffer : Nat → UInt8) (aa : Bool) (dat : UInt8) :
    State where
  pos := 0
  bytesRemaining := len
  rxWrPos := 0
  rxBytesRemaining := rx
  rxComplete := rxComplete
  rdnWr := 0
  transferComplete := false
  rxBuffer := rxBuffer
  sta := true
  sto := false
  aa := aa
  dat := dat
  phase := .start
  addressed := false
  acked := []
  sent := []

end Plak1a.Accelerometer.I2c
