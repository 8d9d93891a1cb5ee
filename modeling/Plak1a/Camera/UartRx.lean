import Plak1a.Lib.Run
import Plak1a.Lib.Ring

/-!
# The UART0 receive ring of the camera program

`uart0Isr` is the receive branch of the interrupt handler, one byte at a time.
`uart0Getch` advances by one access to the shared indices, so that the handler
may run between any two of them: compare the indices, read the byte, increment
the extract index, reduce it. The lists of results and arrivals only observe the
run: no step reads them.
-/

namespace Plak1a.Camera.UartRx

open Plak1a.Lib.Run

/-- `UART0_RX_BUFFER_SIZE` -/
def uart0RxBufferSize : Nat := 1024

/-- The next access of `uart0Getch`. -/
inductive Pc where
  | compare
  | read
  | increment (ch : UInt8)
  | reduce (ch : UInt8)
  deriving DecidableEq

/-- A received byte, with the number of bytes the extract index had passed. -/
structure Arrival where
  byte : UInt8
  taken : Nat
  deriving DecidableEq

structure State where
  uart0RxBuffer : Nat → UInt8
  uart0RxInsertIdx : Nat
  uart0RxExtractIdx : Nat
  pc : Pc
  /-- results of the calls of `uart0Getch`, `none` for -1 -/
  results : List (Option UInt8)
  arrived : List Arrival

/-- The receive queue as `uart0Init` leaves it; the array keeps its old bytes. -/
def uart0Init (uart0RxBuffer : Nat → UInt8) : State where
  uart0RxBuffer := uart0RxBuffer
  uart0RxInsertIdx := 0
  uart0RxExtractIdx := 0
  pc := .compare
  results := []
  arrived := []

/-- The values of `uart0Getch` that were not negative. -/
def returned (s : State) : List UInt8 := s.results.filterMap id

/-- The byte a call has already removed but not yet returned. -/
def inFlight : Pc → List UInt8
  | .reduce ch => [ch]
  | _ => []

def removed (s : State) : List UInt8 := returned s ++ inFlight s.pc

def uart0Isr (s : State) (rbr : UInt8) : State :=
  let temp := (s.uart0RxInsertIdx + 1) % uart0RxBufferSize
  { s with
    uart0RxBuffer := Function.update s.uart0RxBuffer s.uart0RxInsertIdx rbr
    uart0RxInsertIdx := if temp ≠ s.uart0RxExtractIdx then temp else s.uart0RxInsertIdx
    arrived := s.arrived ++ [⟨rbr, (removed s).length⟩] }

def uart0Getch (s : State) : State :=
  match s.pc with
  | .compare =>
    if s.uart0RxInsertIdx = s.uart0RxExtractIdx then { s with results := s.results ++ [none] }
    else { s with pc := .read }
  | .read => { s with pc := .increment (s.uart0RxBuffer s.uart0RxExtractIdx) }
  | .increment ch =>
    { s with uart0RxExtractIdx := s.uart0RxExtractIdx + 1, pc := .reduce ch }
  | .reduce ch =>
    { s with
      uart0RxExtractIdx := s.uart0RxExtractIdx % uart0RxBufferSize
      pc := .compare
      results := s.results ++ [some ch] }

inductive Act where
  | receive (rbr : UInt8)
  | getch
  deriving DecidableEq

def step (s : State) : Act → Option State
  | .receive rbr => some (uart0Isr s rbr)
  | .getch => some (uart0Getch s)

/-- Steps of `uart0Getch` in a run. -/
def getchSteps (as : List Act) : Nat := as.count .getch

/-- The received bytes marked as kept, in order of arrival. -/
def keptBytes : List Bool → List Arrival → List UInt8
  | true :: ks, a :: as => a.byte :: keptBytes ks as
  | false :: ks, _ :: as => keptBytes ks as
  | _, _ => []

/-- `kept` splits the received bytes into kept and lost ones: the results are the
kept bytes in order so far, and a byte is lost only when it finds
`uart0RxBufferSize - 1` kept bytes ahead of it that are not yet removed. -/
structure Account (s : State) (kept : List Bool) : Prop where
  length_eq : kept.length = s.arrived.length
  subsequence : (returned s).Sublist (s.arrived.map Arrival.byte)
  returned_prefix : returned s <+: keptBytes kept s.arrived
  lost_full : ∀ (j : Nat) (a : Arrival), s.arrived[j]? = some a → kept[j]? = some false →
    (kept.take j).count true = a.taken + (uart0RxBufferSize - 1)

/-- The account holds now, and every continuation with enough steps of
`uart0Getch`, under the same restriction on its steps, returns all kept bytes. -/
def Lossless (admits : State → Act → Prop) (s : State) : Prop :=
  ∃ kept, Account s kept ∧ ∀ bs t, exec step s bs = some t → Along admits step s bs →
    4 * kept.count true ≤ getchSteps bs → keptBytes kept s.arrived <+: returned t

/-- No byte arrives between the increment of the extract index to
`uart0RxBufferSize` and its reduction while the insert index is on the last slot.
In that state the handler compares 0 with the unreduced index. -/
def Admits (s : State) : Act → Prop
  | .receive _ =>
    ¬ (s.uart0RxExtractIdx = uart0RxBufferSize ∧ s.uart0RxInsertIdx = uart0RxBufferSize - 1)
  | .getch => True

instance (s : State) : ∀ a, Decidable (Admits s a)
  | .receive _ => inferInstanceAs (Decidable (¬ _))
  | .getch => isTrue trivial

end Plak1a.Camera.UartRx
