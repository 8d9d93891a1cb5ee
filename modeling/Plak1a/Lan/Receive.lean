import Mathlib.Logic.Function.Basic

/-!
# `lan9118_read` of the two LAN9118 drivers

The chip holds one status word and `ceil(length / 4)` data words for every waiting
frame; a fast-forward drops what is left of the frame at the head of the data FIFO.
An event is one evaluation of the `while` condition: frames may have arrived before
it, and a fast-forward started in its round stays busy for some reads of `RX_DP_CTL`.
A step is one round; a round that leaves the loop ends the call and the next step
begins the next one. Packet counters that nothing reads are left out.
-/

namespace Plak1a.Lan.Receive

def numRxBuff : Nat := 32

def enetMaxMtu : Nat := 1518

def ffwdTimeout : Nat := 100

def txStatusFifoEs : UInt32 := 0x00008000

/-- `rxStatus >> 16` -/
def lengthOf (rxStatus : UInt32) : Nat := (rxStatus >>> 16).toNat

def errored (rxStatus : UInt32) : Bool := rxStatus &&& txStatusFifoEs ≠ 0

/-- `(count + 3) / sizeof(ulong)` -/
def wordsOf (count : Nat) : Nat := (count + 3) / 4

structure Frame where
  status : UInt32
  words : List UInt32
  words_length : words.length = wordsOf (lengthOf status)

/-- The receive FIFOs: of each frame in the data FIFO the words that are left. -/
structure Chip where
  statuses : List UInt32
  data : List (List UInt32)

structure Event where
  arrivals : List Frame
  ffwdBusy : Nat

namespace Chip

/-- Frames without data words leave no trace in the data FIFO. -/
def arrive (c : Chip) (fs : List Frame) : Chip :=
  { statuses := c.statuses ++ fs.map Frame.status
    data := c.data ++ (fs.map Frame.words).filter (fun ws => !ws.isEmpty) }

/-- `*RX_FIFO_PORT`; an empty FIFO gives no word. -/
def readWord (c : Chip) : UInt32 × Chip :=
  match c.data with
  | (w :: v :: ws) :: rest => (w, { c with data := (v :: ws) :: rest })
  | [w] :: rest => (w, { c with data := rest })
  | [] :: rest => (0, { c with data := rest })
  | [] => (0, c)

def readWords : Nat → Chip → List UInt32 × Chip
  | 0, c => ([], c)
  | n + 1, c =>
    let r := c.readWord
    let rs := readWords n r.2
    (r.1 :: rs.1, rs.2)

/-- `*RX_DP_CTL = RX_DP_FFWD` -/
def fastForward (c : Chip) : Chip := { c with data := c.data.tail }

/-- Words in the data FIFO. -/
def level (c : Chip) : Nat := c.data.flatten.length

end Chip

/-- `while (timeout-- && (*RX_DP_CTL & RX_DP_FFWD))`: the busy reads that are left. -/
def ffwdLoop : Nat → Nat → Nat
  | 0, busy => busy
  | timeout + 1, busy => if busy = 0 then 0 else ffwdLoop timeout (busy - 1)

/-- `count` after the checks of length and error bit: 0 for a frame to be dropped. -/
def checkedCount (rxStatus : UInt32) : Nat :=
  let count := lengthOf rxStatus
  if count ≠ 0 then
    if enetMaxMtu < count then 0
    else if errored rxStatus then 0 else count
  else count

/-- The branch for a frame to be dropped; `false` when the fast-forward timed out, which
leaves the frame in the FIFO. -/
def dropFrame (rxStatus : UInt32) (busy : Nat) (c : Chip) : Bool × Chip :=
  let len := lengthOf rxStatus
  let ffwdOk : Bool := 4 * 4 ≤ len
  if ffwdOk then
    if ffwdLoop ffwdTimeout busy = 0 then (true, c.fastForward) else (false, c)
  else (true, (c.readWords len).2)

/-- `if (++i >= NUM_RX_BUFF) i = 0;` -/
def nextIndex (i : Nat) : Nat := if numRxBuff ≤ i + 1 then 0 else i + 1

/-- Status words popped so far and the data words removed in the same round, latest first. -/
abbrev Log := List (UInt32 × Nat)

structure RxQue where
  index : Int
  len : Nat

/-- The driver between two rounds. `received` lists the calls of `NetReceive`, `returned`
the results of finished calls, both latest first. -/
structure LanDriver where
  chip : Chip
  rxNdx : Nat
  rxNdxIn : Nat
  rxNdxOut : Nat
  rxAvlQue : Nat → RxQue
  rxbp : Nat → List UInt32
  received : List (List UInt32 × Int)
  loopCount : Nat
  handled : Bool
  returned : List Int
  log : Log

namespace LanDriver

/-- The `for (;;)` loop and `len` behind it. A turn frees an entry, so there are no more
turns than entries. -/
def deliver : Nat → LanDriver → Int × LanDriver
  | 0, s => (-1, s)
  | n + 1, s =>
    let curBufNdx := (s.rxAvlQue s.rxNdxOut).index
    if curBufNdx = -1 then (-1, s)
    else
      let len := (s.rxAvlQue s.rxNdxOut).len
      deliver n { s with
        received := (s.rxbp curBufNdx.toNat, (len : Int) - 4) :: s.received
        rxAvlQue := Function.update s.rxAvlQue s.rxNdxOut ⟨-1, len⟩
        rxNdxOut := nextIndex s.rxNdxOut }

/-- From behind the `while` loop to the start of the next call. -/
def finish (s : LanDriver) : LanDriver :=
  let r := if s.handled then deliver (numRxBuff + 1) s else (-1, s)
  { r.2 with loopCount := 0, handled := false, returned := r.1 :: s.returned }

/-- An accepted frame: queue it and copy it to its buffer. -/
def accept (s : LanDriver) (curBufNdx count : Nat) : LanDriver :=
  let r := s.chip.readWords (wordsOf count)
  { s with
    chip := r.2
    rxAvlQue := Function.update s.rxAvlQue s.rxNdxIn ⟨curBufNdx, count⟩
    rxNdxIn := nextIndex s.rxNdxIn
    handled := true
    rxbp := Function.update s.rxbp curBufNdx
      (r.1 ++ (s.rxbp curBufNdx).drop (wordsOf count)) }

/-- The body of the loop after the status is popped. -/
def body (busy : Nat) (rxStatus : UInt32) (s : LanDriver) : LanDriver :=
  let curBufNdx := s.rxNdx
  let s := { s with loopCount := s.loopCount + 1, rxNdx := nextIndex s.rxNdx }
  let count := checkedCount rxStatus
  if count = 0 then
    let r := dropFrame rxStatus busy s.chip
    let s := { s with chip := r.2 }
    if r.1 then s else finish s
  else if (s.rxAvlQue s.rxNdxIn).index ≠ -1 then finish s
  else accept s curBufNdx count

/-- One evaluation of the `while` condition and what follows it. -/
def round (s : LanDriver) (e : Event) : LanDriver :=
  let s := { s with chip := s.chip.arrive e.arrivals }
  match s.chip.statuses with
  | [] => finish s
  | rxStatus :: statuses =>
    if numRxBuff ≤ s.loopCount then finish s
    else
      let before := s.chip.level
      let s := body e.ffwdBusy rxStatus { s with chip := { s.chip with statuses } }
      { s with log := (rxStatus, before - s.chip.level) :: s.log }

/-- `lan9118_open` has emptied the queue; `fs` is waiting in the chip. -/
def opened (fs : List Frame) (rxbp : Nat → List UInt32) : LanDriver where
  chip := Chip.arrive ⟨[], []⟩ fs
  rxNdx := 0
  rxNdxIn := 0
  rxNdxOut := 0
  rxAvlQue := fun _ => ⟨-1, 0⟩
  rxbp := rxbp
  received := []
  loopCount := 0
  handled := false
  returned := []
  log := []

end LanDriver

structure UipDriver where
  chip : Chip
  rxNdx : Nat
  rxNdxIn : Nat
  uipBuf : Nat → UInt8
  loopCount : Nat
  returned : List Int
  log : Log

namespace UipDriver

/-- Byte `i` of the words in memory. -/
def byteAt (ws : List UInt32) (i : Nat) : UInt8 :=
  (ws.getD (i / 4) 0 >>> UInt32.ofNat (8 * (i % 4))).toUInt8

/-- `return r;` and the start of the next call. -/
def leave (r : Int) (s : UipDriver) : UipDriver :=
  { s with loopCount := 0, returned := r :: s.returned }

/-- `memcpy(uip_buf, dummy, count); return count;` with the frame read into `dummy`. -/
def accept (s : UipDriver) (count : Nat) : UipDriver :=
  let r := s.chip.readWords (wordsOf count)
  leave count { s with
    chip := r.2
    rxNdxIn := nextIndex s.rxNdxIn
    uipBuf := fun i => if i < count then byteAt r.1 i else s.uipBuf i }

/-- The body of the loop after the status is popped. An accepted frame returns, so behind
the loop nothing is `handled` and the result is -1. -/
def body (busy : Nat) (rxStatus : UInt32) (s : UipDriver) : UipDriver :=
  let s := { s with loopCount := s.loopCount + 1, rxNdx := nextIndex s.rxNdx }
  let count := checkedCount rxStatus
  if count = 0 then
    let r := dropFrame rxStatus busy s.chip
    let s := { s with chip := r.2 }
    if r.1 then s else leave (-1) s
  else accept s count

/-- One evaluation of the `while` condition and what follows it. -/
def round (s : UipDriver) (e : Event) : UipDriver :=
  let s := { s with chip := s.chip.arrive e.arrivals }
  match s.chip.statuses with
  | [] => leave (-1) s
  | rxStatus :: statuses =>
    if numRxBuff ≤ s.loopCount then leave (-1) s
    else
      let before := s.chip.level
      let s := body e.ffwdBusy rxStatus { s with chip := { s.chip with statuses } }
      { s with log := (rxStatus, before - s.chip.level) :: s.log }

/-- The driver after `lan9118_open`; `fs` is waiting in the chip. -/
def opened (fs : List Frame) (uipBuf : Nat → UInt8) : UipDriver where
  chip := Chip.arrive ⟨[], []⟩ fs
  rxNdx := 0
  rxNdxIn := 0
  uipBuf := uipBuf
  loopCount := 0
  returned := []
  log := []

end UipDriver

end Plak1a.Lan.Receive
