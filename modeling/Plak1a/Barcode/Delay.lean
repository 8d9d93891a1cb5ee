import Mathlib.Algebra.Group.Nat.Defs
import Plak1a.Lib.Poll

/-!
# `delay` of the barcode reader

`ticks` is an `unsigned short` and is widened before the subtraction, so that the difference
is not a 16-bit one: once the counter has wrapped around behind the value read at the
start, it is about 2^32 whatever `d` is.
-/

namespace Plak1a.Barcode.Delay

open Plak1a.Lib.Poll

/-- `delay(d)`: the poll at which it returns. The list holds what the loads of `ticks` give,
that of `v` first. -/
def delay (d : Int32) : List UInt16 → Option Nat
  | [] => none
  | ticks :: polls =>
    let v := ticks.toUInt32
    polls.findIdx? fun ticks => ¬ ticks.toUInt32 - v < d.toUInt32

/-- What `ticks` shows after `k` interrupts. -/
def shown (ticks : UInt16) (k : Nat) : UInt16 := ticks + UInt16.ofNat k

/-- The claim about a call: for all counts of interrupts that the polls meet. -/
structure Waits (ticks : UInt16) (d : Nat) : Prop where
  late : ∀ ks : List Nat, ks.Pairwise (· ≤ ·) → ∀ i (hi : i < ks.length),
    delay (Int32.ofNat d) (ticks :: ks.map (shown ticks)) = some i → d ≤ ks[i]
  returns : ∀ ks : List Nat, ks.Pairwise (· ≤ ·) → ∀ i (hi : i < ks.length),
    d ≤ ks[i] → ks[i] ≤ 65535 → (∀ k ∈ ks.take i, ¬ (d ≤ k ∧ k ≤ 65535)) →
    delay (Int32.ofNat d) (ticks :: ks.map (shown ticks)) = some i

/-- The test of the loop fails `k` interrupts after `v` was read. -/
def stops (ticks : UInt16) (d k : Nat) : Bool :=
  ¬ (shown ticks k).toUInt32 - ticks.toUInt32 < UInt32.ofNat d

variable {ticks : UInt16} {d k : Nat}

theorem delay_eq (ticks : UInt16) (d : Nat) (ks : List Nat) :
    delay (Int32.ofNat d) (ticks :: ks.map (shown ticks)) = ks.findIdx? (stops ticks d) := by
  rw [delay, List.findIdx?_map]
  rfl

theorem toNat_difference (ticks : UInt16) (k : Nat) :
    ((shown ticks k).toUInt32 - ticks.toUInt32).toNat =
      (2 ^ 32 - ticks.toNat + (ticks.toNat + k) % 2 ^ 16) % 2 ^ 32 := by
  rw [UInt32.toNat_sub, UInt16.toNat_toUInt32, UInt16.toNat_toUInt32, shown, UInt16.toNat_add,
    UInt16.toNat_ofNat', Nat.add_mod_mod]

theorem stops_iff (hd : d ≤ 65535) : stops ticks d k = true ↔
    d ≤ (2 ^ 32 - ticks.toNat + (ticks.toNat + k) % 2 ^ 16) % 2 ^ 32 := by
  rw [stops, decide_eq_true_iff, UInt32.lt_iff_toNat_lt, toNat_difference, UInt32.toNat_ofNat',
    Nat.not_lt, Nat.mod_eq_of_lt (show d < 2 ^ 32 by omega)]

/-- As long as the counter has not wrapped around, the difference is the count. -/
theorem stops_iff_of_lt (hd : d ≤ 65535) (hk : ticks.toNat + k < 2 ^ 16) :
    stops ticks d k = true ↔ d ≤ k := by
  rw [stops_iff hd]
  omega

/-- Behind the wrap it is larger than any `d`. -/
theorem stops_of_wrapped (hd : d ≤ 65535) (hk : k ≤ 65535) (hwrap : 2 ^ 16 ≤ ticks.toNat + k) :
    stops ticks d k = true := by
  have ht := ticks.toNat_lt
  rw [stops_iff hd]
  omega

/-- The loop never ends before `d` interrupts exactly if the counter does not wrap around in
less than `d` of them. -/
theorem stops_late_iff (hd : d ≤ 65535) :
    (∀ k, stops ticks d k = true → d ≤ k) ↔ ticks.toNat + d ≤ 65536 := by
  have ht := ticks.toNat_lt
  constructor
  · intro h
    by_contra hwrap
    have hearly := h (65536 - ticks.toNat) (stops_of_wrapped hd (by omega) (by omega))
    omega
  · intro h k hk
    by_cases hlt : ticks.toNat + k < 2 ^ 16
    · exact (stops_iff_of_lt hd hlt).mp hk
    · omega

/-- `delay` waits for `d` interrupts and no longer than it must exactly if the counter does not
wrap around in less than `d` of them. -/
theorem delay_waits_iff (ticks : UInt16) (hd : d ≤ 65535) :
    Waits ticks d ↔ ticks.toNat + d ≤ 65536 := by
  rw [← stops_late_iff hd]
  constructor
  · intro h
    apply ends_from_iff.mp
    intro ks hks i hi hend
    exact h.late ks hks i hi ((delay_eq ticks d ks).trans hend)
  · intro h
    refine ⟨fun ks hks i hi hend => ?_, fun ks hks i hi hge hle hbefore => ?_⟩
    · rw [delay_eq] at hend
      exact ends_from_iff.mpr h ks hks i hi hend
    · rw [delay_eq, List.findIdx?_eq_some_iff_getElem]
      refine ⟨hi, ?_, fun j hj hstop => ?_⟩
      · by_cases hlt : ticks.toNat + ks[i] < 2 ^ 16
        · exact (stops_iff_of_lt hd hlt).mpr hge
        · exact stops_of_wrapped hd hle (Nat.le_of_not_lt hlt)
      · have hji : ks[j] ≤ ks[i] := List.pairwise_iff_getElem.mp hks j i (by omega) hi hj
        have hmem : ks[j] ∈ ks.take i := by
          rw [List.mem_take_iff_getElem]
          exact ⟨j, by omega, rfl⟩
        exact hbefore _ hmem ⟨h _ hstop, Nat.le_trans hji hle⟩

theorem delay_waits_ten : Waits 65526 10 := (delay_waits_iff 65526 (by decide)).mpr (by decide)

/-- Ten ticks from 65530 on: `delay` returns after six. -/
theorem wrap_ends_delay :
    delay 10 [65530, 65535, 0] = some 1 ∧
      ¬ ∀ (ticks : UInt16) (d : Nat), d ≤ 65535 → Waits ticks d := by
  refine ⟨by decide, fun h => ?_⟩
  have hlate := (h 65530 10 (by decide)).late [5, 6] (by decide) 1 (by decide) (by decide)
  exact absurd hlate (by decide)

end Plak1a.Barcode.Delay
