/-!
# `lan9118_write` of the two LAN9118 drivers

The task and the transmitter interleave: the task takes one access to the chip or to the
clock at a time, and the status of any frame on its way may enter the TX status FIFO in
between. Frames carry a serial number besides the tag, which the chip does not know.
Whether the transmitter is switched on does not matter here, so `TX_CFG` is left out.
-/

namespace Plak1a.Lan.Transmit

/-- The copies differ in their clock: `get_timer` under `lan` returns 0, `clock_time` under
`uip-1.0` is whatever the clock shows. -/
inductive Copy
  | lan
  | uip
  deriving DecidableEq

def enetMaxMtu : Nat := 1518

def txTimeoutCount : Nat := 30

def txTimeout : UInt32 := 3000

def txStatusFifoEs : UInt32 := 0x00008000

def getTime (copy : Copy) (clock : UInt32) : UInt32 :=
  match copy with
  | .lan => 0
  | .uip => clock

/-- Word `i` of the transmit buffer. -/
def wordAt (txbp : Nat → UInt8) (i : Nat) : UInt32 :=
  (txbp (4 * i)).toUInt32 ||| (txbp (4 * i + 1)).toUInt32 <<< 8 |||
    (txbp (4 * i + 2)).toUInt32 <<< 16 ||| (txbp (4 * i + 3)).toUInt32 <<< 24

/-- `(((ulong) txbp & 0x3) << 16) | 0x00003000 | len` for a buffer at `addr` -/
def txCmdA (addr : UInt32) (len : Nat) : UInt32 :=
  (addr &&& 0x3) <<< 16 ||| 0x00003000 ||| UInt32.ofNat len

/-- `(lastTxTag << 16) | len` -/
def txCmdB (lastTxTag : UInt16) (len : Nat) : UInt32 :=
  lastTxTag.toUInt32 <<< 16 ||| UInt32.ofNat len

/-- The words written to `TX_FIFO_PORT` by `sendToNet`, after `lastTxTag++`. -/
def sendToNet (addr : UInt32) (txbp : Nat → UInt8) (len : Nat) (lastTxTag : UInt16) :
    List UInt32 :=
  txCmdA addr len :: txCmdB lastTxTag len :: (List.range ((len + 3) / 4)).map (wordAt txbp)

structure Frame where
  serial : Nat
  tag : UInt16
  deriving DecidableEq

/-- The tag that the transmitter takes from the second command word. -/
def tagOf (txFifo : List UInt32) : UInt16 := (txFifo.getD 1 0 >>> 16).toUInt16

/-- Status of a frame: its tag and sixteen bits that the transmitter chooses. -/
def statusOf (f : Frame) (low : UInt16) : UInt32 := f.tag.toUInt32 <<< 16 ||| low.toUInt32

/-- The next access of the task. -/
inductive Pc where
  | idle
  /-- the loop that looks for old statuses -/
  | drain (len timeout : Nat)
  | send (len : Nat)
  | startTime (len : Nat)
  | poll (len : Nat) (startTime : UInt32)
  | testTime (len : Nat) (startTime : UInt32)
  | popStatus (len : Nat) (startTime : UInt32)
  deriving DecidableEq

/-- How a call ended: the frame it sent, and the status it took with that status' frame. -/
inductive Result where
  | sent (len : Nat) (own popped : Frame) (txStatus : UInt32)
  | error (own popped : Frame) (txStatus : UInt32)
  | timeout (own : Frame)

/-- The return value of the call. -/
def Result.value : Result → Int
  | .sent len _ _ _ => len
  | .error _ _ _ => -1
  | .timeout _ => -1

structure State where
  lastTxTag : UInt16
  txbp : Nat → UInt8
  pc : Pc
  /-- frames sent so far -/
  sent : Nat
  own : Frame
  /-- frames whose status is still to come -/
  inFlight : List Frame
  txStatusFifo : List (Frame × UInt32)
  /-- whether no completion was outstanding when `own` was sent -/
  clean : Bool
  results : List Result

inductive Action where
  | call (ptr : Nat → UInt8) (len : Nat)
  | task (clock : UInt32)
  | push (i : Nat) (low : UInt16)

def State.return (s : State) (r : Result) : State :=
  { s with pc := .idle, results := r :: s.results }

def write (s : State) (ptr : Nat → UInt8) (len : Nat) : State :=
  let len := if enetMaxMtu < len then enetMaxMtu else len
  { s with
    txbp := fun i => if i < len then ptr i else s.txbp i
    pc := .drain len 0 }

def send (addr : UInt32) (s : State) (len : Nat) : State :=
  let lastTxTag := s.lastTxTag + 1
  let frame := { serial := s.sent, tag := tagOf (sendToNet addr s.txbp len lastTxTag) }
  { s with
    lastTxTag
    sent := s.sent + 1
    own := frame
    inFlight := s.inFlight ++ [frame]
    clean := s.inFlight.isEmpty && s.txStatusFifo.isEmpty
    pc := .startTime len }

/-- The task's next access. -/
def task (copy : Copy) (addr : UInt32) (s : State) (clock : UInt32) : Option State :=
  match s.pc with
  | .idle => none
  | .drain len timeout =>
    if timeout < txTimeoutCount then
      if s.txStatusFifo = [] then some { s with pc := .send len }
      else some { s with pc := .drain len (timeout + 1) }
    else some { s with pc := .send len }
  | .send len => some (send addr s len)
  | .startTime len => some { s with pc := .poll len (getTime copy clock) }
  | .poll len startTime =>
    if s.txStatusFifo = [] then some { s with pc := .testTime len startTime }
    else some { s with pc := .popStatus len startTime }
  | .testTime len startTime =>
    if txTimeout < getTime copy clock - startTime then some (s.return (.timeout s.own))
    else some { s with pc := .poll len startTime }
  | .popStatus len _ =>
    match s.txStatusFifo with
    | [] => none
    | (f, txStatus) :: rest =>
      let s := { s with txStatusFifo := rest }
      if txStatus &&& txStatusFifoEs = txStatusFifoEs then
        some (s.return (.error s.own f txStatus))
      else some (s.return (.sent len s.own f txStatus))

/-- `addr` is the address of the transmit buffer. -/
def step (copy : Copy) (addr : UInt32) (s : State) : Action → Option State
  | .call ptr len => if s.pc = .idle then some (write s ptr len) else none
  | .task clock => task copy addr s clock
  | .push i low =>
    match s.inFlight[i]? with
    | none => none
    | some f => some { s with
        inFlight := s.inFlight.eraseIdx i
        txStatusFifo := s.txStatusFifo ++ [(f, statusOf f low)] }

/-- The driver after `lan9118_open`. -/
def opened (txbp : Nat → UInt8) : State where
  lastTxTag := 0
  txbp := txbp
  pc := .idle
  sent := 0
  own := ⟨0, 0⟩
  inFlight := []
  txStatusFifo := []
  clean := true
  results := []

end Plak1a.Lan.Transmit
