import Mathlib.Algebra.Group.Nat.Defs
import Plak1a.Lib.Poll

/-!
# `lan9118_udelay` of the two LAN9118 drivers

The free-running counter has 32 bits and counts at 25 MHz. The difference of two readings
is modulo 2^32 by itself; the branch for a counter that has wrapped around adds one to it,
so that the time there is one tick ahead.
-/

namespace Plak1a.Lan.Udelay

open Plak1a.Lib.Poll

/-- `25000000 / 1000000` -/
def ticksPerMicrosecond : UInt32 := 25000000 / 1000000

/-- What the loop makes of a reading. -/
def elapsed (start delta : UInt32) : UInt32 :=
  if start ≤ delta then delta - start else delta - start + 1

/-- `lan9118_udelay(delta)`: the reading at which it returns. The list holds what the loads of
`FREE_RUN` give, that of `start` first. -/
def lan9118Udelay (delta : UInt32) : List UInt32 → Option Nat
  | [] => none
  | start :: readings =>
    let usec := delta * ticksPerMicrosecond
    readings.findIdx? fun delta => ¬ elapsed start delta < usec

/-- The counter `k` ticks after `start`. -/
def shown (start : UInt32) (k : Nat) : UInt32 := start + UInt32.ofNat k

/-- The claim about a call that reads the counter after the given numbers of ticks. -/
def ReturnsWhenDue (delta start : UInt32) (ks : List Nat) : Prop :=
  lan9118Udelay delta (start :: ks.map (shown start)) = ks.findIdx? (25 * delta.toNat ≤ ·)

/-- The counter has wrapped around, one tick before the delay is over or one tick before it
comes back to `start`. -/
def Misread (delta start : UInt32) (k : Nat) : Prop :=
  2 ^ 32 ≤ start.toNat + k ∧ (k + 1 = 25 * delta.toNat ∨ k + 1 = 2 ^ 32 ∧ 0 < delta.toNat)

instance (delta start : UInt32) (k : Nat) : Decidable (Misread delta start k) :=
  inferInstanceAs (Decidable (_ ∧ _))

variable {delta start : UInt32} {k : Nat} {ks : List Nat}

theorem toNat_elapsed (hk : k < 2 ^ 32) : (elapsed start (shown start k)).toNat =
    if start.toNat + k < 2 ^ 32 then k else (k + 1) % 2 ^ 32 := by
  have hs := start.toNat_lt
  have hshown : (shown start k).toNat = (start.toNat + k) % 2 ^ 32 := by
    rw [shown, UInt32.toNat_add, UInt32.toNat_ofNat', Nat.add_mod_mod]
  have hdiff : (shown start k - start).toNat = k := by
    rw [UInt32.toNat_sub, hshown]
    omega
  unfold elapsed
  by_cases hlt : start.toNat + k < 2 ^ 32
  · rw [if_pos hlt, if_pos (UInt32.le_iff_toNat_le.mpr (by omega)), hdiff]
  · rw [if_neg hlt, if_neg (fun hle => by have := UInt32.le_iff_toNat_le.mp hle; omega),
      UInt32.toNat_add, hdiff]
    rfl

/-- The test of the loop is right but for the misread ticks. -/
theorem test_right_iff (hdelta : 25 * delta.toNat < 2 ^ 32 - 1) (hk : k < 2 ^ 32) :
    (decide (¬ elapsed start (shown start k) < delta * ticksPerMicrosecond) =
      decide (25 * delta.toNat ≤ k)) ↔ ¬ Misread delta start k := by
  have husec : (delta * ticksPerMicrosecond).toNat = 25 * delta.toNat := by
    rw [UInt32.toNat_mul, show ticksPerMicrosecond.toNat = 25 from rfl]
    omega
  rw [decide_eq_decide, UInt32.lt_iff_toNat_lt, husec, toNat_elapsed hk, Misread]
  split <;> omega

/-- `lan9118_udelay` returns at the first reading that is due exactly if no reading up to there
is misread. -/
theorem lan9118Udelay_due_iff (delta start : UInt32) (ks : List Nat)
    (hdelta : 25 * delta.toNat < 2 ^ 32 - 1) (hks : ∀ k ∈ ks, k < 2 ^ 32) :
    ReturnsWhenDue delta start ks ↔
      ∀ i (hi : i < ks.length), (∀ k ∈ ks.take i, k < 25 * delta.toNat) →
        ¬ Misread delta start ks[i] := by
  rw [ReturnsWhenDue, lan9118Udelay, List.findIdx?_map, findIdx?_eq_iff]
  refine forall₂_congr fun i hi => imp_congr ?_ (test_right_iff hdelta (hks _ (ks.getElem_mem hi)))
  exact forall₂_congr fun k _ => decide_eq_false_iff_not.trans Nat.not_le

/-- The counter wraps around, and neither reading is one tick early. -/
theorem lan9118Udelay_due_wrapped : ReturnsWhenDue 1 0xFFFFFFFF [3, 25] :=
  (lan9118Udelay_due_iff 1 0xFFFFFFFF [3, 25] (by decide) (by decide)).mpr (by decide)

/-- One microsecond from the highest counter value on: 24 ticks are taken for 25. -/
theorem wrapped_early :
    lan9118Udelay 1 [0xFFFFFFFF, 23, 24] = some 0 ∧
      ¬ ∀ (delta start : UInt32) (ks : List Nat), 25 * delta.toNat < 2 ^ 32 - 1 →
        (∀ k ∈ ks, k < 2 ^ 32) → ReturnsWhenDue delta start ks := by
  refine ⟨by decide, fun h => ?_⟩
  have hdue := h 1 0xFFFFFFFF [24, 25] (by decide) (by decide)
  rw [ReturnsWhenDue] at hdue
  exact absurd hdue (by decide)

end Plak1a.Lan.Udelay
