import Mathlib.Data.List.Basic

/-!
# The boot loader's timer

The configuration is that of the lpc2294 board. `timestamp` extends the 16 bits of timer 0 to
32 by adding at each call what has passed since the call before. A call is given the value
of `T0TC` that it loads, and `udelay` what its calls of `get_timer_masked` return.
-/

namespace Plak1a.Boot.Interrupts

/-- `TIMER_LOAD_VAL` -/
def timerLoadVal : UInt32 := 0xffff

/-- `CFG_HZ` -/
def cfgHz : UInt32 := 10000

/-- `READ_TIMER` -/
def readTimer (t0tc : UInt32) : UInt32 := t0tc &&& 0xffff

structure Timer where
  timestamp : UInt32
  lastdec : UInt32

def resetTimerMasked (t0tc : UInt32) : Timer where
  lastdec := readTimer t0tc
  timestamp := 0

/-- `get_timer_masked()`; it returns the new `timestamp`. -/
def getTimerMasked (t0tc : UInt32) (t : Timer) : Timer :=
  let now := readTimer t0tc
  let timestamp :=
    if t.lastdec ≤ now then t.timestamp + (now - t.lastdec)
    else t.timestamp + (now + timerLoadVal - t.lastdec)
  { timestamp, lastdec := now }

/-- What the calls return that load the given values. -/
def timestamps : Timer → List UInt32 → List UInt32
  | _, [] => []
  | t, t0tc :: rest =>
    let t := getTimerMasked t0tc t
    t.timestamp :: timestamps t rest

/-- `get_timer(base)` from what `get_timer_masked` returns. -/
def getTimer (base masked : UInt32) : UInt32 := masked - base

/-- `tmo` before `get_timer(0)` is added. -/
def delayTicks (usec : UInt32) : UInt32 :=
  let tmo := usec / 1000
  let tmo := tmo * cfgHz
  tmo / 1000

/-- `udelay(usec)`: the call of `get_timer_masked` in the loop after which it returns. The list
holds what these calls return, that of `get_timer(0)` first. -/
def udelay (usec : UInt32) : List UInt32 → Option Nat
  | [] => none
  | masked :: rest =>
    let tmo := delayTicks usec + getTimer 0 masked
    rest.findIdx? fun masked => ¬ masked < tmo

end Plak1a.Boot.Interrupts
