import Mathlib.Logic.Function.Basic

/-!
# `Decode` of the barcode reader

The element widths are the bytes behind `ptr`; reading past the end of the list
would be reading past the array. `char` is unsigned, as on the ARM target, so the
-1 of a failed parity look-up is stored as 255. `validData` and the uninitialised
`ean_code` enter as arbitrary contents.
-/

namespace Plak1a.Barcode.Decode

def leftOdd : List (List UInt8) :=
  [[3,2,1,1], [2,2,2,1], [2,1,2,2], [1,4,1,1], [1,1,3,2], [1,2,3,1],
    [1,1,1,4], [1,3,1,2], [1,2,1,3], [3,1,1,2]]

def leftEven : List (List UInt8) :=
  [[1,1,2,3], [1,2,2,2], [2,2,1,2], [1,1,4,1], [2,3,1,1], [1,3,2,1],
    [4,1,1,1], [2,1,3,1], [3,1,2,1], [2,1,1,3]]

def right : List (List UInt8) :=
  [[3,2,1,1], [2,2,2,1], [2,1,2,2], [1,4,1,1], [1,1,3,2], [1,2,3,1],
    [1,1,1,4], [1,3,2,1], [1,2,1,3], [3,1,1,2]]

def eanCodeSeq : List (List Char) :=
  [['L','L','L','L','L','L'], ['L','L','G','L','G','G'], ['L','L','G','G','L','G'],
    ['L','L','G','G','G','L'], ['L','G','L','L','G','G'], ['L','G','G','L','L','G'],
    ['L','G','G','G','L','L'], ['L','G','L','G','L','G'], ['L','G','L','G','G','L'],
    ['L','G','G','L','G','L']]

/-- `memcmp(s, t, n) == 0` -/
def memcmp {α : Type} [DecidableEq α] (s t : List α) (n : Nat) : Bool := s.take n = t.take n

/-- The index of the first row equal to the next `n` elements, or -1. -/
def search {α : Type} [DecidableEq α] (s : List α) (tab : List (List α)) (n : Nat) : Int :=
  match tab.findIdx? (fun row => memcmp s row n) with
  | some i => i
  | none => -1

def find (s : List UInt8) (tab : List (List UInt8)) : Int := search s tab 4

def eanCode (seq : List Char) : Int := search seq eanCodeSeq 6

def pattern : List UInt8 := [1, 1, 1, 1, 1]

/-- Conversion to the unsigned `char` of the target. -/
def toChar (d : Int) : UInt8 := UInt8.ofNat (d % 256).toNat

/-- The local variables of `Decode` and the global `validData`. -/
structure Scan where
  ptr : List UInt8
  eanCode : Nat → Char
  reverse : Bool
  pos : Nat
  validData : Nat → UInt8

/-- `validData[pos] = d; pos += (reverse == 1) ? -1 : 1; ptr += 4;` -/
def Scan.store (s : Scan) (d : Int) : Scan :=
  { s with
    validData := Function.update s.validData s.pos (toChar d)
    pos := if s.reverse then s.pos - 1 else s.pos + 1
    ptr := s.ptr.drop 4 }

def Scan.mark (s : Scan) (i : Nat) (c : Char) : Scan :=
  { s with eanCode := Function.update s.eanCode i c }

/-- Body of the loop over the first six digits; an error is the state at `return -2`. -/
def leftDigit (i : Nat) (s : Scan) : Except Scan Scan :=
  let d := find s.ptr leftOdd
  if d = -1 then
    let d := find s.ptr leftEven
    if d = -1 then
      let d := find s.ptr right
      if d = -1 then .error s else .ok (s.store d)
    else
      let s := if i = 0 then { s with reverse := true, pos := 12 } else s
      .ok ((s.mark i 'G').store d)
  else .ok ((s.mark i 'L').store d)

/-- Body of the loop over the last six digits; an error is the state at `return -4`. -/
def rightDigit (i : Nat) (s : Scan) : Except Scan Scan :=
  let d := find s.ptr leftOdd
  if d = -1 then
    let d := find s.ptr leftEven
    if d = -1 then
      let d := find s.ptr right
      if d = -1 then .error s else .ok (s.store d)
    else .ok ((s.mark (5 - i) 'L').store d)
  else .ok ((s.mark (5 - i) 'G').store d)

/-- `for (; i < i + n; i++)` over a loop body that may return. -/
def forDigits (body : Nat → Scan → Except Scan Scan) : Nat → Nat → Scan → Except Scan Scan
  | 0, _, s => .ok s
  | n + 1, i, s => (body i s).bind (forDigits body n (i + 1))

/-- `validData[0] = EanCode(ean_code)` -/
def Scan.storeFirst (s : Scan) : Scan :=
  { s with
    validData := Function.update s.validData 0
      (toChar (Decode.eanCode ((List.range 6).map s.eanCode))) }

/-- The result of `Decode(ptr)` and the final contents of `validData`. -/
def decode (validData : Nat → UInt8) (eanCode : Nat → Char) (ptr : List UInt8) :
    Int × (Nat → UInt8) :=
  if ¬ memcmp ptr pattern 3 then (-1, validData)
  else
    match forDigits leftDigit 6 0
        { ptr := ptr.drop 3, eanCode, reverse := false, pos := 1, validData } with
    | .error s => (-2, s.validData)
    | .ok s =>
      let s := if s.reverse = false then s.storeFirst else s
      if ¬ memcmp s.ptr pattern 5 then (-3, s.validData)
      else
        match forDigits rightDigit 6 0 { s with ptr := s.ptr.drop 5 } with
        | .error s => (-4, s.validData)
        | .ok s => (0, (if s.reverse then s.storeFirst else s).validData)

end Plak1a.Barcode.Decode
