import Plak1a.Boot.Number
import Plak1a.Boot.SRecord
import Plak1a.Flash.Access
import Plak1a.Lib.Memory

/-!
# Memory over the serial line

`load_serial` and `save_serial` move a block of memory as S-records. The console is a device of
its own, so `read_record` looks for a control C behind every character. What the console shows is
left out.
-/

namespace Plak1a.Boot.LoadSerial

open Flash.Info Flash.WriteBuff Flash.Access SRecord Number Lib

def cr : UInt8 := 0x0d
def lf : UInt8 := 0x0a
def controlC : UInt8 := 0x03

def srecMaxRecLen : Nat := 516

/-- A character of the serial line, and whether it is there already when `ctrlc` looks for one
behind the character before. -/
structure Arrival where
  char : UInt8
  early : Bool

/-- `ctrlc`: whether it is a control C, and what is left of the input. Another character is gone. -/
def ctrlc : List Arrival → Bool × List Arrival
  | [] => (false, [])
  | c :: input => if c.early then (c.char = controlC, input) else (false, c :: input)

/-- `read_record` of a buffer with `len` characters left: the line, if there is one, and what is
left of the input. There is no result while the code waits for a character. -/
def readRecord : (len : Nat) → List Arrival → Option (Option (List UInt8) × List Arrival)
  | 0, input => some (some [], input)
  | _ + 1, [] => none
  | len + 1, c :: input =>
    if c.char = cr ∨ c.char = lf then some (some [], input)
    else if c.char = 0 ∨ c.char = controlC then some (none, input)
    else
      let (pressed, input) := ctrlc input
      if pressed then some (none, input)
      else do
        let (record, input) ← readRecord len input
        some (record.map (c.char :: ·), input)

/-- The variables of `load_serial`, and the memories of the board. -/
structure Loader where
  binbuf : Memory
  startAddr : UInt32
  endAddr : UInt32
  ram : Memory
  flash : Memory

/-- What `load_serial` returns, and the text that it sets `filesize` to. -/
structure Result where
  addr : UInt32
  filesize : Option (List UInt8)
  loader : Loader

def aborted (s : Loader) : Result := ⟨0xFFFFFFFF, none, s⟩

def isData : SrecType → Bool
  | .data2 | .data3 | .data4 => true
  | _ => false

def isEnd : SrecType → Bool
  | .end2 | .end3 | .end4 => true
  | _ => false

/-- The data of a record go to the flash or to RAM. What `memcpy` does is left out, and there is no
result, for a negative size and for data that run past the end of the address space or from RAM
into the flash bank, where the device would take them for commands. -/
def storeData (info : FlashInfo) (storeAddr : UInt32) (binlen : Int) (s : Loader) :
    Option (Nat × Loader) :=
  if addr2info info storeAddr then
    let (rc, flash) := flashWrite info s.binbuf 0 storeAddr (UInt32.ofInt binlen) s.flash
    some (rc, { s with flash := flash })
  else if binlen < 0 ∨ storeAddr.toNat + binlen > 2 ^ 32 ∨
      (List.range binlen.toNat).any (fun i => addr2info info (storeAddr + UInt32.ofNat i)) then none
  else some (0, { s with ram := Memory.copy s.ram storeAddr.toNat s.binbuf 0 binlen.toNat })

/-- `start_addr` and `end_addr` behind a record. -/
def noteRange (storeAddr : UInt32) (binlen : Int) (s : Loader) : Loader :=
  let last := storeAddr + UInt32.ofInt binlen - 1
  { s with
    startAddr := if storeAddr < s.startAddr then storeAddr else s.startAddr
    endAddr := if last > s.endAddr then last else s.endAddr }

/-- The end of `load_serial`. -/
def finished (addr : UInt32) (s : Loader) : Result :=
  let size := s.endAddr - s.startAddr + 1
  ⟨addr, number size 16 (-1) (-1) { large := true }, s⟩

/-- `load_serial`, of at most `rounds` lines. -/
def loadSerial (info : FlashInfo) (offset : UInt32) :
    (rounds : Nat) → List Arrival → Loader → Option Result
  | 0, _, _ => none
  | n + 1, input, s => do
    match ← readRecord srecMaxRecLen input with
    | (none, _) => some (aborted s)
    | (some record, input) =>
      match srecDecode record with
      | .error _ => some (aborted s)
      | .ok .empty => loadSerial info offset n input s
      | .ok (.record type binlen addr data) =>
        let s := { s with binbuf := Memory.store s.binbuf 0 data }
        if isData type then
          let storeAddr := addr + offset
          let (rc, s) ← storeData info storeAddr binlen s
          if rc ≠ 0 then some (aborted s)
          else loadSerial info offset n input (noteRange storeAddr binlen s)
        else if isEnd type then some (finished addr s)
        else loadSerial info offset n input s

/-- `load_serial` from its start. -/
def load (info : FlashInfo) (offset : UInt32) (input : List Arrival) (s : Loader) :
    Option Result :=
  loadSerial info offset (input.length + 1) input { s with startAddr := 0xFFFFFFFF, endAddr := 0 }

structure Saver where
  address : UInt32
  reclen : Nat
  checksum : UInt32
  data : List UInt8

/-- `hex[c]` -/
def hex (c : UInt32) : UInt8 := digit true c

/-- The bytes of a number, lowest first. -/
def sumBytes (n : Nat) (v : UInt32) : UInt32 :=
  ((List.range n).map fun i => (v >>> (8 * UInt32.ofNat i)) &&& 0xff).sum

end Plak1a.Boot.LoadSerial
