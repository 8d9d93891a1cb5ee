import Mathlib.Algebra.Group.Nat.Defs
import Plak1a.Boot.Interrupts
import Plak1a.Lib.Poll

/-!
# How long `udelay` waits

The division by 1000 comes first and loses what is below a millisecond, the product with
`CFG_HZ` has 32 bits, and the deadline is compared as a number: near the end of the range of
the timestamp it is behind it, and the loop ends at once.
-/

namespace Plak1a.Boot.Udelay

open Interrupts Lib.Poll

/-- `usec * CFG_HZ / 10^6`, rounded down. -/
def dueTicks (usec : UInt32) : Nat := usec.toNat * cfgHz.toNat / 10 ^ 6

/-- A timestamp that was `timestamp` counts ticks exactly. -/
def counted (timestamp : UInt32) (k : Nat) : UInt32 := timestamp + UInt32.ofNat k

/-- The claim: over all times at which the loop may look at the timestamp, `udelay` returns
after the ticks that are due, and no intermediate result is larger than 32 bits. -/
structure Waits (usec timestamp : UInt32) : Prop where
  late : ∀ ks : List Nat, ks.Pairwise (· ≤ ·) → ∀ i (hi : i < ks.length),
    udelay usec (timestamp :: ks.map (counted timestamp)) = some i → dueTicks usec ≤ ks[i]
  product : usec.toNat / 1000 * cfgHz.toNat < 2 ^ 32
  deadline : usec.toNat / 1000 * cfgHz.toNat / 1000 + timestamp.toNat < 2 ^ 32

/-- The loop ends if it looks at the timestamp `k` ticks after the call. -/
def ends (usec timestamp : UInt32) (k : Nat) : Bool :=
  ¬ counted timestamp k < delayTicks usec + timestamp

variable {usec timestamp : UInt32} {k : Nat}

theorem udelay_eq (usec timestamp : UInt32) (ks : List Nat) :
    udelay usec (timestamp :: ks.map (counted timestamp)) = ks.findIdx? (ends usec timestamp) := by
  rw [udelay, getTimer, UInt32.sub_zero, List.findIdx?_map]
  rfl

theorem dueTicks_eq (usec : UInt32) : dueTicks usec = usec.toNat / 100 := by
  rw [dueTicks, show cfgHz.toNat = 10000 from rfl]
  omega

theorem toNat_delayTicks (usec : UInt32) :
    (delayTicks usec).toNat = usec.toNat / 1000 * 10000 % 2 ^ 32 / 1000 := by
  rw [delayTicks, UInt32.toNat_div, UInt32.toNat_mul, UInt32.toNat_div]
  rfl

/-- The wait that the code computes is right exactly up to the millisecond and below the
overflow of the product; otherwise it is too short. -/
theorem toNat_delayTicks_cases (usec : UInt32) :
    (usec.toNat < 429497000 ∧ (delayTicks usec).toNat = usec.toNat / 1000 * 10) ∨
      (429497000 ≤ usec.toNat ∧ (delayTicks usec).toNat < 4294970) := by
  rw [toNat_delayTicks]
  by_cases hproduct : usec.toNat < 429497000
  · rw [Nat.mod_eq_of_lt (by omega)]
    omega
  · have hmod := Nat.mod_lt (usec.toNat / 1000 * 10000) (show 0 < 2 ^ 32 by decide)
    omega

theorem ends_iff : ends usec timestamp k = true ↔
    ((delayTicks usec).toNat + timestamp.toNat) % 2 ^ 32 ≤ (timestamp.toNat + k) % 2 ^ 32 := by
  rw [ends, decide_eq_true_iff, UInt32.lt_iff_toNat_lt, counted, UInt32.toNat_add,
    UInt32.toNat_add, UInt32.toNat_ofNat', Nat.add_mod_mod, Nat.not_lt]

/-- No tick is due, or the wait has no part of a millisecond that makes a tick, the product does
not overflow, and the timestamp does not either while it is waited for. -/
def Fits (usec timestamp : UInt32) : Prop :=
  usec.toNat < 100 ∨ usec.toNat % 1000 < 100 ∧ usec.toNat < 429497000 ∧
    timestamp.toNat + usec.toNat / 100 < 2 ^ 32

/-- The loop never ends early exactly in these cases. -/
theorem ends_late_iff : (∀ k, ends usec timestamp k = true → dueTicks usec ≤ k) ↔
    Fits usec timestamp := by
  have hu := usec.toNat_lt
  have ht := timestamp.toNat_lt
  have hticks := toNat_delayTicks_cases usec
  rw [dueTicks_eq]
  constructor
  · intro h
    by_cases hwrap : (delayTicks usec).toNat + timestamp.toNat < 2 ^ 32
    · have hdue := h (delayTicks usec).toNat (ends_iff.mpr (Nat.le_of_eq (by rw [Nat.add_comm])))
      rcases hticks with ⟨hproduct, heq⟩ | ⟨hproduct, hlt⟩
      · right
        omega
      · omega
    · have hnow := h 0 (by rw [ends_iff]; omega)
      left
      omega
  · intro hfits k hk
    rw [ends_iff] at hk
    rcases hfits with hsmall | ⟨hwhole, hproduct, hdeadline⟩
    · omega
    · rcases hticks with ⟨_, heq⟩ | ⟨hle, _⟩
      · by_cases hlt : timestamp.toNat + k < 2 ^ 32
        · rw [Nat.mod_eq_of_lt hlt, Nat.mod_eq_of_lt (by omega)] at hk
          omega
        · omega
      · omega

/-- `udelay` waits long enough exactly in these cases. -/
theorem udelay_waits_iff (usec timestamp : UInt32) :
    Waits usec timestamp ↔ Fits usec timestamp := by
  have hu := usec.toNat_lt
  have ht := timestamp.toNat_lt
  have hcfg : cfgHz.toNat = 10000 := rfl
  rw [← ends_late_iff]
  constructor
  · intro h
    apply ends_from_iff.mp
    intro ks hks i hi hend
    exact h.late ks hks i hi ((udelay_eq usec timestamp ks).trans hend)
  · intro h
    refine ⟨fun ks hks i hi hend => ?_, ?_, ?_⟩
    · rw [udelay_eq] at hend
      exact ends_from_iff.mpr h ks hks i hi hend
    · rw [hcfg]
      rcases ends_late_iff.mp h with hsmall | ⟨_, hproduct, _⟩
      · omega
      · omega
    · rw [hcfg]
      rcases ends_late_iff.mp h with hsmall | ⟨_, hproduct, hdeadline⟩
      · omega
      · omega

/-- A wait of 1.5 ms ends after 10 ticks, where 15 are due; near the end of the range of the
timestamp one of 1 ms ends at once. -/
theorem udelay_early :
    dueTicks 1500 = 15 ∧ udelay 1500 [0, 9, 10] = some 1 ∧
      udelay 1000 [0xFFFFFFFF, 0xFFFFFFFF] = some 0 ∧
      ¬ ∀ usec timestamp : UInt32, Waits usec timestamp := by
  refine ⟨by decide, by decide, by decide, fun h => ?_⟩
  have hfits := (udelay_waits_iff 1500 0).mp (h 1500 0)
  unfold Fits at hfits
  exact absurd hfits (by decide)

end Plak1a.Boot.Udelay
