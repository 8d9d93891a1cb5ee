import Plak1a.Lib.Bytes

/-!
# `write_buff` of the boot loader's flash driver

The configuration is that of the lpc2294 board: `CONFIG_LPC` is set and
`CFG_FLASH_WORD_SIZE` is `unsigned short`. Programming clears bits and is over when its
poll begins. The source buffer does not lie in the flash, and neither range wraps around
the address space, so that addresses and counts are natural numbers. `info` only
gives the address of the command registers, which the memory here does not show.
-/

namespace Plak1a.Flash.WriteBuff

open Plak1a.Lib.Bytes

abbrev Memory := Nat → UInt8

/-- A word load. From an unaligned address it rotates the word at the address rounded down. -/
def load (m : Memory) (p : Nat) : UInt32 := rotateBytes (wordAt m (p - p % 4)) (p % 4)

/-- The data bit the flash inverts while it is programming. -/
def d7 : UInt16 := 0x0080

/-- The flash after `*dest = data` in programming mode. -/
def program (flash : Memory) (dest : Nat) (data : UInt16) : Memory :=
  fun q =>
    if q = dest then flash q &&& data.toUInt8
    else if q = dest + 1 then flash q &&& (data >>> 8).toUInt8
    else flash q

/-- A round of the loop of `write_word`; `false` for a poll that never ends. -/
def writeHalf (flash : Memory) (dest : Nat) (data : UInt16) : Bool × Memory :=
  let flash := program flash dest data
  (halfAt flash dest &&& d7 = data &&& d7, flash)

/-- `write_word`: the result and the flash afterwards. -/
def writeWord (flash : Memory) (dest : Nat) (data : UInt32) : Nat × Memory :=
  if load flash dest &&& data ≠ data then (2, flash)
  else
    let r := writeHalf flash dest data.toUInt16
    if r.1 then
      let r := writeHalf r.2 (dest + 2) (data >>> 16).toUInt16
      if r.1 then (0, r.2) else (1, r.2)
    else (1, r.2)

/-- The variables of the loops that assemble a word. -/
structure Merge where
  i : Nat
  cp : Nat
  src : Nat
  cnt : Nat
  data : UInt32

/-- Every loop over `i` leaves it at 4 at most. -/
def forLoop (more : Merge → Bool) (body : Merge → Merge) : Nat → Merge → Merge
  | 0, s => s
  | n + 1, s => if more s then forLoop more body n (body s) else s

/-- `data = data | ((*(uchar *) cp) << (8 * i)); ++i, ++cp` -/
def mergeFlash (flash : Memory) (s : Merge) : Merge :=
  { s with i := s.i + 1, cp := s.cp + 1, data := s.data ||| shifted (flash s.cp) s.i }

/-- `data = data | ((*src++) << (8 * i)); --cnt; ++cp; ++i` -/
def mergeSource (ram : Memory) (s : Merge) : Merge :=
  { i := s.i + 1
    cp := s.cp + 1
    src := s.src + 1
    cnt := s.cnt - 1
    data := s.data ||| shifted (ram s.src) s.i }

/-- The loops for the unaligned start; `l` bytes stand before the range. -/
def mergeHead (ram flash : Memory) (l : Nat) (s : Merge) : Merge :=
  let s := forLoop (fun s => s.i < l) (mergeFlash flash) 4 s
  let s := forLoop (fun s => s.i < 4 && 0 < s.cnt) (mergeSource ram) 4 s
  forLoop (fun s => s.cnt = 0 && s.i < 4) (mergeFlash flash) 4 s

/-- The loops for the unaligned tail. -/
def mergeTail (ram flash : Memory) (s : Merge) : Merge :=
  let s := forLoop (fun s => s.i < 4 && 0 < s.cnt) (mergeSource ram) 4 s
  forLoop (fun s => s.i < 4) (mergeFlash flash) 4 s

/-- `write_buff` from the word aligned part on. -/
def writeAligned (ram : Memory) : (src wp cnt : Nat) → Memory → Nat × Memory
  | src, wp, cnt + 4, flash =>
    let r := writeWord flash wp (load ram src)
    if r.1 ≠ 0 then r else writeAligned ram (src + 4) (wp + 4) cnt r.2
  | src, wp, cnt, flash =>
    if cnt = 0 then (0, flash)
    else writeWord flash wp (mergeTail ram flash ⟨0, wp, src, cnt, 0⟩).data

/-- `write_buff`: the result and the flash afterwards. -/
def writeBuff (ram : Memory) (src addr cnt : Nat) (flash : Memory) : Nat × Memory :=
  let l := addr % 4
  let wp := addr - l
  if l ≠ 0 then
    let s := mergeHead ram flash l ⟨0, wp, src, cnt, 0⟩
    let r := writeWord flash wp s.data
    if r.1 ≠ 0 then r else writeAligned ram s.src (wp + 4) s.cnt r.2
  else writeAligned ram src wp cnt flash

end Plak1a.Flash.WriteBuff
