import Plak1a.Camera.C328r

/-!
# The capture loop of the camera program

The part of `main` behind a successful `Snapshot`: one picture is fetched into `buff`
and its byte pairs are put into `img`, behind the two words of its size. The text for
UART1 and the display are left out. `Convert` is one state of the inner loop; indices
do not leave the range of `int`.
-/

namespace Plak1a.Camera.Main

open Plak1a.Lib Plak1a.Camera.C328r

variable {D : Type}

/-- The numbers of elements of `buff` and of `img`. -/
def buffSize : Nat := 40000

def imgSize : Nat := 40000

def R_Snapshot : UInt8 := 1

/-- The variables of the conversion loop. -/
structure Convert where
  j : Nat
  k : Nat
  img : Nat → UInt16

def morePairs (i : Int) (c : Convert) : Bool := c.j < i

/-- `img[k] = buff[j] << 8 | buff[j + 1]`, and the steps of `j` and `k`. -/
def convertPair (buff : Memory) (c : Convert) : Convert where
  j := c.j + 2
  k := c.k + 1
  img := Function.update c.img c.k ((buff c.j).toUInt16 <<< 8 ||| (buff (c.j + 1)).toUInt16)

/-- The loop starts here; the size of the picture stands in front of it. -/
def convertStart (img : Nat → UInt16) : Convert :=
  ⟨0, 2, Function.update (Function.update img 0 128) 1 160⟩

/-- One round of the capture loop with at most `fuel` tests of the conversion loop: `buff` and
`img`, or nothing if no picture came. -/
def capture (uart0 : Device D) (fuel : Nat) (d : D) (buff : Memory) (img : Nat → UInt16) :
    Option (Option (Memory × (Nat → UInt16)) × D) :=
  let o := getRawPicture uart0 d R_Snapshot buff
  if o.result = -1 then some (none, o.dev)
  else
    (While.run (morePairs o.result) (convertPair o.dataBuffer) fuel (convertStart img)).map fun c =>
      (some (o.dataBuffer, c.img), o.dev)

end Plak1a.Camera.Main
