import Mathlib.Data.Nat.Bitwise
import Plak1a.Lib.Fields

/-!
# The 16-bit tick counter and its 32-bit extension

`counter_read` extends `ticks` to 32 bits by counting its wraps. One read adds to
`counter` what the 16-bit difference to the read before shows, so the difference of
two reads is the number of ticks between them, provided no two consecutive reads are
2^16 ticks or more apart. Nothing else is needed: the counter may start anywhere.
-/

namespace Plak1a.Barcode.Timer

/-- The global variables of `counter_read`. -/
structure Counter where
  previous : UInt32
  actual : UInt32
  counter : UInt32

/-- The globals after `counter_read()`; its result is the new `counter`. -/
def counterRead (ticks : UInt16) (c : Counter) : Counter :=
  let c := { c with previous := c.actual }
  let c := { c with actual := ticks.toUInt32 }
  let c := { c with counter := (c.counter &&& 0xffff0000) + c.actual }
  if c.actual < c.previous then { c with counter := c.counter + 0x10000 } else c

/-- The last read of the counter saw `r`. -/
structure Synced (r : UInt16) (c : Counter) : Prop where
  actual : c.actual = r.toUInt32
  low : c.counter.toNat % 2 ^ 16 = r.toNat

/-- Ticks between the reads `r` and the last one of `ts`, as 16-bit differences tell. -/
def ticksFrom : UInt16 → List UInt16 → Nat
  | _, [] => 0
  | r, t :: ts => (t - r).toNat + ticksFrom t ts

theorem high_half (x : UInt32) : (x &&& 0xffff0000).toNat = x.toNat / 2 ^ 16 * 2 ^ 16 := by
  have hx := x.toNat_lt
  rw [Lib.Fields.toNat_and_mask x 16 16 rfl]
  omega

theorem toNat_counterRead (t : UInt16) (c : Counter) :
    (counterRead t c).counter.toNat = (c.counter.toNat / 2 ^ 16 * 2 ^ 16 + t.toNat +
      if t.toUInt32 < c.actual then 2 ^ 16 else 0) % 2 ^ 32 := by
  have ht := t.toNat_lt
  have hc := c.counter.toNat_lt
  unfold counterRead
  dsimp only
  split
  · show (_ + _ + 0x10000 : UInt32).toNat = _
    rw [UInt32.toNat_add, UInt32.toNat_add, high_half, UInt16.toNat_toUInt32, Nat.mod_add_mod]
    rfl
  · rw [UInt32.toNat_add, high_half, UInt16.toNat_toUInt32, Nat.add_zero]

theorem synced_counterRead (t : UInt16) (c : Counter) : Synced t (counterRead t c) where
  actual := by
    unfold counterRead
    dsimp only
    split <;> rfl
  low := by
    have ht := t.toNat_lt
    rw [toNat_counterRead]
    split <;> omega

/-- One read moves the counter by the ticks since the read before. -/
theorem counterRead_counter {r : UInt16} {c : Counter} (h : Synced r c) (t : UInt16) :
    (counterRead t c).counter = c.counter + (t - r).toUInt32 := by
  have ht := t.toNat_lt
  have hr := r.toNat_lt
  have hlow := h.low
  apply UInt32.toNat_inj.mp
  rw [toNat_counterRead, UInt32.toNat_add, UInt16.toNat_toUInt32, UInt16.toNat_sub, h.actual]
  by_cases hlt : t.toNat < r.toNat
  · rw [if_pos (by rw [UInt32.lt_iff_toNat_lt]; simpa using hlt)]
    omega
  · rw [if_neg (by rw [UInt32.lt_iff_toNat_lt]; simpa using hlt)]
    omega

end Plak1a.Barcode.Timer
