import Mathlib.Logic.Basic

/-!
# `GetTS`

Ten rounds of four conversions: the x plates driven one way, the y plates one way, the x plates
the other way, the y plates the other way. A position is read with both polarities and the
reversed reading is taken from the full scale. `int` and `unsigned long` have 32 bits, and
a comparison of the two is one of unsigned words.
-/

namespace Plak1a.Touchscreen.GetTs

structure TouchscreenData where
  xvalue : UInt32
  yvalue : UInt32
  pvalue : UInt32

def tsNumSamples : Nat := 10
def tsResolutionBits : Int32 := 12
def tsMaxValue : Int32 := 2 <<< (tsResolutionBits - 1)
def xdeltaMax : Int32 := 100
def ydeltaMax : Int32 := 100

/-- The array `samples` behind the first loop: its element `k` is taken by the calls `2 * k` and
`2 * k + 1` of `GetADC`. -/
def samples (getAdc : Nat → UInt32) (k : Nat) : TouchscreenData where
  xvalue := getAdc (2 * k)
  yvalue := getAdc (2 * k + 1)
  pvalue := 0

/-- The variables of the second loop for one axis. -/
structure Track where
  min : Int32
  max : Int32
  /-- `ts_result.xvalue` or `ts_result.yvalue` -/
  sum : UInt32

def Track.start : Track := ⟨4095, 0, 0⟩

/-- `if (min > v) min = v; if (max < v) max = v;` for a direct reading -/
def Track.direct (t : Track) (value : UInt32) : Track :=
  let t := if t.min.toUInt32 > value then { t with min := value.toInt32 } else t
  if t.max.toUInt32 < value then { t with max := value.toInt32 } else t

/-- The same for a reversed reading; the second comparison is with the minimum again. -/
def Track.reversed (t : Track) (temp : Int32) : Track :=
  let t := if t.min > temp then { t with min := temp } else t
  if t.min < temp then { t with max := temp } else t

/-- A round of the second loop, of which each axis has its own statements. -/
def Track.round (t : Track) (direct reversed : UInt32) : Track :=
  let temp := (tsMaxValue.toUInt32 - reversed).toInt32
  let t := { t with sum := t.sum + direct }
  let t := { t with sum := t.sum + (tsMaxValue.toUInt32 - reversed) }
  (t.direct direct).reversed temp

/-- The second loop for one axis. -/
def tracked (value : Nat → UInt32) : Track :=
  (List.range tsNumSamples).foldl (fun t i => t.round (value (i * 2)) (value (i * 2 + 1))) .start

/-- `GetTS()`, from what its 40 calls of `GetADC` return. -/
def getTs (getAdc : Nat → UInt32) : TouchscreenData :=
  let x := tracked fun k => (samples getAdc k).xvalue
  let y := tracked fun k => (samples getAdc k).yvalue
  let xvalue := x.sum / UInt32.ofNat (tsNumSamples * 2)
  let yvalue := y.sum / UInt32.ofNat (tsNumSamples * 2)
  let xdelta := x.max - x.min
  let ydelta := y.max - y.min
  { xvalue := xvalue
    yvalue := tsMaxValue.toUInt32 - yvalue
    pvalue :=
      if xvalue < 910 ∧ yvalue < 910 ∧ xdelta < xdeltaMax ∧ ydelta < ydeltaMax then 1024 else 0 }

end Plak1a.Touchscreen.GetTs
