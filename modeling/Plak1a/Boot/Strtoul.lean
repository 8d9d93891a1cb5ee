import Mathlib.Data.Nat.Notation

/-!
# `simple_strtoul` and `simple_strtol` of the boot loader

`unsigned long` has 32 bits. A string is given without its NUL, and what the function leaves of
it is where `endp` points to. `toupper` is only used on lower case digits.
-/

namespace Plak1a.Boot.Strtoul

def isDigit (c : UInt8) : Bool := 0x30 ≤ c && c ≤ 0x39
def isLower (c : UInt8) : Bool := 0x61 ≤ c && c ≤ 0x7a
def isXDigit (c : UInt8) : Bool := isDigit c || (0x41 ≤ c && c ≤ 0x46) || (0x61 ≤ c && c ≤ 0x66)

/-- `value` in the test of the loop. -/
def value (c : UInt8) : UInt32 :=
  if isDigit c then (c - 0x30).toUInt32
  else ((if isLower c then c - 0x20 else c) - 0x41).toUInt32 + 10

def digits (base : UInt32) : UInt32 → List UInt8 → UInt32 × List UInt8
  | result, [] => (result, [])
  | result, c :: cp =>
    if isXDigit c && value c < base then digits base (result * base + value c) cp
    else (result, c :: cp)

def simpleStrtoul (cp : List UInt8) (base : UInt32) : UInt32 × List UInt8 :=
  match cp with
  | 0x30 :: 0x78 :: c :: cp =>
    if isXDigit c then digits 16 0 (c :: cp)
    else digits (if base = 0 then 8 else base) 0 (0x78 :: c :: cp)
  | 0x30 :: cp => digits (if base = 0 then 8 else base) 0 cp
  | cp => digits (if base = 0 then 10 else base) 0 cp

/-- `simple_strtol`, of which the bits are given. -/
def simpleStrtol (cp : List UInt8) (base : UInt32) : UInt32 × List UInt8 :=
  match cp with
  | 0x2d :: cp => ((-(simpleStrtoul cp base).1), (simpleStrtoul cp base).2)
  | cp => simpleStrtoul cp base

end Plak1a.Boot.Strtoul
