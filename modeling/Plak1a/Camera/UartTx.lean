import Plak1a.Lib.Run
import Plak1a.Lib.Ring

/-!
# The UART0 transmit path of the camera program

One task calls `uart0Putch`, `uart0Puts`, `uart0Write` and `uart0TxFlush`; each of
its steps is one access to the variables it shares with the interrupt handler or
to a UART register. The handler's THRE branch starts only while ETBEI is set and
THR is empty, and the task stands still until it has returned. THR may empty at
any moment. The event list only observes the run.
-/

namespace Plak1a.Camera.UartTx

open Plak1a.Lib

/-- `UART0_TX_BUFFER_SIZE` -/
def uart0TxBufferSize : Nat := 64

/-- The function `uart0Putch` returns to, with the bytes still to be sent there. -/
inductive Caller where
  | direct
  | puts (string : List UInt8)
  | write (buffer : List UInt8)
  deriving DecidableEq

/-- The next access of the task. -/
inductive Pc where
  | idle
  | putch (ch : UInt8) (caller : Caller)
  | maskTx (ch : UInt8) (temp : Nat) (caller : Caller)
  | testRunning (ch : UInt8) (temp : Nat) (caller : Caller)
  | store (ch : UInt8) (temp : Nat) (caller : Caller)
  | publish (ch : UInt8) (temp : Nat) (caller : Caller)
  | setRunning (ch : UInt8) (caller : Caller)
  | writeThr (ch : UInt8) (caller : Caller)
  | unmaskTx (ch : UInt8) (caller : Caller)
  | putchReturn (ch : UInt8) (result : Int) (caller : Caller)
  | puts (string : List UInt8)
  | writeSpace (buffer : List UInt8)
  | write (buffer : List UInt8)
  | flushFifo
  | flushMask
  | flushIndices
  deriving DecidableEq

inductive Event where
  /-- a byte entered the queue or went straight to THR -/
  | commit (ch : UInt8)
  /-- a byte was written to `UART0_THR`, which was or was not `full` -/
  | thr (ch : UInt8) (full : Bool)
  | putch (ch : UInt8) (result : Int)
  | puts (string : List UInt8)
  | write (result : Int)
  | flush
  deriving DecidableEq

structure State where
  uart0TxBuffer : Nat → UInt8
  uart0TxInsertIdx : Nat
  uart0TxExtractIdx : Nat
  uart0TxRunning : Bool
  etbei : Bool
  thrFull : Bool
  inIsr : Bool
  pc : Pc
  events : List Event

/-- The transmit queue as `uart0Init` leaves it, with an empty transmitter. -/
def uart0Init (uart0TxBuffer : Nat → UInt8) : State where
  uart0TxBuffer := uart0TxBuffer
  uart0TxInsertIdx := 0
  uart0TxExtractIdx := 0
  uart0TxRunning := false
  etbei := false
  thrFull := false
  inIsr := false
  pc := .idle
  events := []

def uart0Space (s : State) : Int :=
  let space : Int := s.uart0TxExtractIdx - s.uart0TxInsertIdx
  (if space ≤ 0 then space + uart0TxBufferSize else space) - 1

/-- One pass of `while (UART0_LSR & ULSR_THRE)` in the THRE branch of `uart0ISR`. -/
def uart0Isr (s : State) : State :=
  if s.thrFull then { s with inIsr := false }
  else if s.uart0TxInsertIdx ≠ s.uart0TxExtractIdx then
    { s with
      thrFull := true
      uart0TxExtractIdx := (s.uart0TxExtractIdx + 1) % uart0TxBufferSize
      events := s.events ++ [.thr (s.uart0TxBuffer s.uart0TxExtractIdx) s.thrFull] }
  else { s with uart0TxRunning := false, inIsr := false }

/-- The caller of `uart0Putch` goes on with its result. -/
def resume (s : State) (ch : UInt8) (result : Int) : Caller → State
  | .direct => { s with pc := .idle }
  | .puts string =>
    if 0 ≤ result then { s with pc := .puts string }
    else { s with pc := .idle, events := s.events ++ [.puts (ch :: string)] }
  | .write buffer =>
    if 0 ≤ result then { s with pc := .write buffer }
    else { s with pc := .idle, events := s.events ++ [.write (-2)] }

/-- The next access of the task. -/
def task (s : State) : State :=
  match s.pc with
  | .idle => s
  | .putch ch caller =>
    let temp := (s.uart0TxInsertIdx + 1) % uart0TxBufferSize
    if temp = s.uart0TxExtractIdx then { s with pc := .putchReturn ch (-1) caller }
    else { s with pc := .maskTx ch temp caller }
  | .maskTx ch temp caller => { s with etbei := false, pc := .testRunning ch temp caller }
  | .testRunning ch temp caller =>
    if s.uart0TxRunning then { s with pc := .store ch temp caller }
    else { s with pc := .setRunning ch caller }
  | .store ch temp caller =>
    { s with
      uart0TxBuffer := Function.update s.uart0TxBuffer s.uart0TxInsertIdx ch
      pc := .publish ch temp caller }
  | .publish ch temp caller =>
    { s with
      uart0TxInsertIdx := temp
      pc := .unmaskTx ch caller
      events := s.events ++ [.commit ch] }
  | .setRunning ch caller => { s with uart0TxRunning := true, pc := .writeThr ch caller }
  | .writeThr ch caller =>
    { s with
      thrFull := true
      pc := .unmaskTx ch caller
      events := s.events ++ [.commit ch, .thr ch s.thrFull] }
  | .unmaskTx ch caller => { s with etbei := true, pc := .putchReturn ch ch.toNat caller }
  | .putchReturn ch result caller =>
    resume { s with events := s.events ++ [.putch ch result] } ch result caller
  | .puts [] => { s with pc := .idle, events := s.events ++ [.puts []] }
  | .puts (ch :: string) =>
    if ch = 0 then { s with pc := .idle, events := s.events ++ [.puts (ch :: string)] }
    else { s with pc := .putch ch (.puts string) }
  | .writeSpace buffer =>
    if (buffer.length : Int) > uart0Space s then
      { s with pc := .idle, events := s.events ++ [.write (-1)] }
    else { s with pc := .write buffer }
  | .write [] => { s with pc := .idle, events := s.events ++ [.write 0] }
  | .write (ch :: buffer) => { s with pc := .putch ch (.write buffer) }
  | .flushFifo => { s with pc := .flushMask }
  | .flushMask => { s with etbei := false, pc := .flushIndices }
  | .flushIndices =>
    { s with
      uart0TxInsertIdx := 0
      uart0TxExtractIdx := 0
      pc := .idle
      events := s.events ++ [.flush] }

inductive Call where
  | uart0Putch (ch : UInt8)
  | uart0Puts (string : List UInt8)
  | uart0Write (buffer : List UInt8)
  | uart0TxFlush
  deriving DecidableEq

def Call.entry : Call → Pc
  | .uart0Putch ch => .putch ch .direct
  | .uart0Puts string => .puts string
  | .uart0Write buffer => .writeSpace buffer
  | .uart0TxFlush => .flushFifo

inductive Act where
  | call (c : Call)
  | task
  | irq
  | isr
  | thrEmpties
  deriving DecidableEq

/-- `thrEmpties` also covers the transmit FIFO reset of `uart0TxFlush`. -/
def step (s : State) : Act → Option State
  | .call c => if s.inIsr = false ∧ s.pc = .idle then some { s with pc := c.entry } else none
  | .task => if s.inIsr = false ∧ s.pc ≠ .idle then some (task s) else none
  | .irq =>
    if s.inIsr = false ∧ s.etbei = true ∧ s.thrFull = false then some { s with inIsr := true }
    else none
  | .isr => if s.inIsr = true then some (uart0Isr s) else none
  | .thrEmpties => if s.thrFull = true then some { s with thrFull := false } else none

/-- The bytes in the ring, oldest first. -/
def queued (s : State) : List UInt8 :=
  Ring.contents uart0TxBufferSize s.uart0TxBuffer s.uart0TxExtractIdx s.uart0TxInsertIdx

def committed (es : List Event) : List UInt8 :=
  es.filterMap fun | .commit ch => some ch | _ => none

def written (es : List Event) : List UInt8 :=
  es.filterMap fun | .thr ch _ => some ch | _ => none

/-- The bytes for which `uart0Putch` returned a value that is not negative. -/
def accepted (es : List Event) : List UInt8 :=
  es.filterMap fun | .putch ch result => if 0 ≤ result then some ch else none | _ => none

/-- The byte committed by a call of `uart0Putch` that has not returned yet. -/
def pending : Pc → List UInt8
  | .unmaskTx ch _ => [ch]
  | .putchReturn ch result _ => if 0 ≤ result then [ch] else []
  | _ => []

/-- The purpose of the transmit path: a queue that a flush empties, and THR is only
ever given the oldest byte of that queue. -/
def fifo : List UInt8 → List Event → Option (List UInt8)
  | q, [] => some q
  | q, .commit ch :: es => fifo (q ++ [ch]) es
  | [], .thr _ _ :: _ => none
  | x :: q, .thr ch _ :: es => if ch = x then fifo q es else none
  | _, .flush :: es => fifo [] es
  | q, .putch _ _ :: es => fifo q es
  | q, .puts _ :: es => fifo q es
  | q, .write _ :: es => fifo q es

/-- The transmit path in one state: it has behaved as `fifo`, THR was never written
while it held a byte, and it is not marked as stopped with bytes left to send. -/
structure Faithful (s : State) : Prop where
  queue : fifo [] s.events = some (queued s)
  acceptance : committed s.events = accepted s.events ++ pending s.pc
  in_order : (written s.events).Sublist (committed s.events)
  complete : .flush ∉ s.events → committed s.events = written s.events ++ queued s
  after_flush : ∀ es₁ es₂, s.events = es₁ ++ .flush :: es₂ →
    (written es₂).Sublist (committed es₂) ∧
    (.flush ∉ es₂ → committed es₂ = written es₂ ++ queued s)
  no_overwrite : ∀ ch full, .thr ch full ∈ s.events → full = false
  stopped : s.uart0TxRunning = false → s.uart0TxInsertIdx = s.uart0TxExtractIdx

end Plak1a.Camera.UartTx
