import Mathlib.Logic.Function.Basic
import Plak1a.Lib.Bytes

/-!
# The ili932x display driver

Any number of drawing operations change the frame buffer, each setting `ili932x_change` as
its last statement. `ili932x_update` is work of a single-threaded workqueue that queues
itself again; it runs a step at a time between the steps of the drawings and of the caller
of `ili932x_enable` or `ili932x_disable` that holds `ili932x_mutex`. Queueing is the last
statement of an update and ends it. The kernel is taken at its documentation: work is
pending while its timer runs or it is queued and is not queued twice,
`cancel_delayed_work` stops a running timer, and `flush_workqueue` waits for what runs or
is queued when it is called. The panel keeps the words written to its GRAM data register
at an address that advances by itself.
-/

namespace Plak1a.Lcd.Ili932x

open Plak1a.Lib.Bytes

def xRes : Nat := 240

def yRes : Nat := 320

/-- `ILI9325_FB_SIZE`, with 16 bits for a pixel -/
def fbSize : Nat := xRes * yRes * 16 / 8

/-- `size / bpp` -/
def pixels : Nat := fbSize / 2

/-- `pixel_buf[i]` -/
def pixelAt (buffer : Nat → UInt8) (i : Nat) : UInt16 := halfAt buffer (2 * i)

/-- The word `ili9325_write_pixel` puts on the bus. -/
def writePixel (pixel : UInt16) : UInt32 :=
  let pixel := pixel.toUInt32
  ((pixel &&& 0xf800) <<< 2 ||| (pixel &&& 0x7ff) <<< 1) ||| 0x01001

/-- The next statement of `ili932x_update`: the test of `ili932x_change`, pixel `i` or, when
all are sent, the clearing of the flag, the test of `ili932x_updating`, the queueing. -/
inductive Worker
  | idle
  | testChange
  | writeGram (i : Nat)
  | testUpdating
  | queue
deriving DecidableEq

/-- The next statement of the caller that holds the mutex. `flushing n` waits for `n` updates. -/
inductive Caller
  | none
  | enable
  | enableQueue
  | disable
  | cancel
  | flush
  | flushing (n : Nat)
deriving DecidableEq

structure State where
  buffer : Nat → UInt8
  change : Bool
  /-- drawing operations in progress -/
  drawings : Nat
  panel : Nat → UInt32
  /-- the address counter of the panel -/
  gram : Nat
  /-- the horizontal address, for the counter when the vertical one is written -/
  haddr : Nat
  updating : Bool
  timer : Bool
  queued : Bool
  worker : Worker
  caller : Caller
  /-- the result of the last `ili932x_enable` -/
  ret : UInt8

inductive Action
  /-- a drawing operation begins -/
  | draw
  /-- a drawing operation stores a byte -/
  | store (p : Nat) (b : UInt8)
  /-- a drawing operation sets the flag and ends -/
  | setChange
  | callEnable
  | callDisable
  /-- the next statement of the caller -/
  | call
  /-- the timer of the work expires -/
  | expire
  /-- the workqueue takes the work off its list -/
  | run
  /-- the next statement of the update -/
  | update
deriving DecidableEq

namespace State

/-- `queue_delayed_work`; no delay means no timer. -/
def queueDelayedWork (delay : Nat) (s : State) : State :=
  if s.timer || s.queued then s
  else if delay = 0 then { s with queued := true }
  else { s with timer := true }

/-- Queueing concerns the work only. -/
theorem queueDelayedWork_eq (delay : Nat) (s : State) :
    ∃ timer queued, s.queueDelayedWork delay = { s with timer := timer, queued := queued } := by
  unfold queueDelayedWork
  split
  · exact ⟨_, _, rfl⟩
  · split
    · exact ⟨_, _, rfl⟩
    · exact ⟨_, _, rfl⟩

/-- The update has come to its end. -/
def finish (s : State) : State :=
  { s with
    worker := .idle
    caller := match s.caller with
      | .flushing (n + 1) => .flushing n
      | c => c }

/-- A write of `ILI9325_GRAM_HADDR` with 0; the counter stays where it is. -/
def setHaddr (s : State) : State := { s with haddr := 0 }

/-- A write to the GRAM data register. -/
def writeData (w : UInt32) (s : State) : State :=
  { s with panel := Function.update s.panel s.gram w, gram := (s.gram + 1) % (xRes * yRes) }

/-- A statement of `ili932x_update`; `ILI9325_GRAM_HADDR` is written twice. -/
def updateStep (delay : Nat) (s : State) : Option State :=
  match s.worker with
  | .idle => none
  | .testChange =>
    if s.change then some { s.setHaddr.setHaddr with worker := .writeGram 0 }
    else some { s with worker := .testUpdating }
  | .writeGram i =>
    if i < pixels then
      some { s.writeData (writePixel (pixelAt s.buffer i)) with worker := .writeGram (i + 1) }
    else some { s with change := false, worker := .testUpdating }
  | .testUpdating => if s.updating then some { s with worker := .queue } else some s.finish
  | .queue => some (s.queueDelayedWork delay).finish

/-- The statements of an update, each with its test. -/
theorem updateStep_cases {delay : Nat} {s t : State} (h : s.updateStep delay = some t) :
    (s.worker = .testChange ∧ s.change = true ∧
      t = { s.setHaddr.setHaddr with worker := .writeGram 0 }) ∨
    (s.worker = .testChange ∧ s.change = false ∧ t = { s with worker := .testUpdating }) ∨
    (∃ i, s.worker = .writeGram i ∧ i < pixels ∧
      t = { s.writeData (writePixel (pixelAt s.buffer i)) with worker := .writeGram (i + 1) }) ∨
    (∃ i, s.worker = .writeGram i ∧ pixels ≤ i ∧
      t = { s with change := false, worker := .testUpdating }) ∨
    (s.worker = .testUpdating ∧ s.updating = true ∧ t = { s with worker := .queue }) ∨
    (s.worker = .testUpdating ∧ s.updating = false ∧ t = s.finish) ∨
    (s.worker = .queue ∧ t = (s.queueDelayedWork delay).finish) := by
  unfold updateStep at h
  cases hw : s.worker with
  | idle =>
    rw [hw] at h
    cases h
  | testChange =>
    rw [hw] at h
    dsimp only at h
    split at h
    · rename_i hc
      exact Or.inl ⟨rfl, hc, (Option.some.inj h).symm⟩
    · rename_i hc
      exact Or.inr (Or.inl ⟨rfl, Bool.eq_false_iff.mpr hc, (Option.some.inj h).symm⟩)
  | writeGram i =>
    rw [hw] at h
    dsimp only at h
    right; right
    split at h
    · rename_i hi
      exact Or.inl ⟨i, rfl, hi, (Option.some.inj h).symm⟩
    · rename_i hi
      exact Or.inr (Or.inl ⟨i, rfl, Nat.le_of_not_lt hi, (Option.some.inj h).symm⟩)
  | testUpdating =>
    rw [hw] at h
    dsimp only at h
    right; right; right; right
    split at h
    · rename_i hu
      exact Or.inl ⟨rfl, hu, (Option.some.inj h).symm⟩
    · rename_i hu
      exact Or.inr (Or.inl ⟨rfl, Bool.eq_false_iff.mpr hu, (Option.some.inj h).symm⟩)
  | queue =>
    rw [hw] at h
    right; right; right; right; right; right
    exact ⟨rfl, (Option.some.inj h).symm⟩

/-- A statement of `ili932x_enable` or `ili932x_disable`. -/
def callStep (delay : Nat) (s : State) : Option State :=
  match s.caller with
  | .none => none
  | .enable =>
    if s.updating then some { s with ret := 1, caller := .none }
    else some { s with updating := true, caller := .enableQueue }
  | .enableQueue => some { s.queueDelayedWork delay with ret := 0, caller := .none }
  | .disable =>
    if s.updating then some { s with updating := false, caller := .cancel }
    else some { s with caller := .none }
  | .cancel => some { s with timer := false, caller := .flush }
  | .flush =>
    let running := if s.worker = .idle then 0 else 1
    some { s with caller := .flushing (running + if s.queued then 1 else 0) }
  | .flushing 0 => some { s with caller := .none }
  | .flushing (_ + 1) => none

end State

/-- The step of an action; `delay` is `HZ / ili932x_rate`. -/
def step (delay : Nat) (s : State) : Action → Option State
  | .draw => some { s with drawings := s.drawings + 1 }
  | .store p b =>
    if 0 < s.drawings ∧ p < fbSize then some { s with buffer := Function.update s.buffer p b }
    else none
  | .setChange =>
    if 0 < s.drawings then some { s with change := true, drawings := s.drawings - 1 } else none
  | .callEnable => if s.caller = .none then some { s with caller := .enable } else none
  | .callDisable => if s.caller = .none then some { s with caller := .disable } else none
  | .call => s.callStep delay
  | .expire => if s.timer then some { s with timer := false, queued := true } else none
  | .run =>
    if s.worker = .idle ∧ s.queued = true then
      some { s with queued := false, worker := .testChange }
    else none
  | .update => s.updateStep delay

/-- The driver after `ili932x_init`; what the panel holds is not known. -/
def init (panel : Nat → UInt32) : State where
  buffer := fun _ => 0
  change := false
  drawings := 0
  panel := panel
  gram := 0
  haddr := 0
  updating := false
  timer := false
  queued := false
  worker := .idle
  caller := .none
  ret := 0

end Plak1a.Lcd.Ili932x
