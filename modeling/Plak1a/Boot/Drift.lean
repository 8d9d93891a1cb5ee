import Mathlib.Algebra.Group.Nat.Defs
import Mathlib.Tactic.ByContra
import Plak1a.Boot.Interrupts
import Plak1a.Lib.Fields

/-!
# The boot loader's time

The hardware timer counts 0 to 0xffff and starts again at 0, so that its period is 2^16. The
branch for an overflow adds 0xffff, and the timestamp falls one tick behind with every turn.
-/

namespace Plak1a.Boot.Drift

open Interrupts

/-- `T0TC` of the free-running timer at tick `t`. -/
def shown (t : Nat) : UInt32 := UInt32.ofNat (t % 2 ^ 16)

/-- Times of calls less than a period apart. -/
def InTime (times : List Nat) : Prop := List.IsChain (fun a b => a ≤ b ∧ b - a < 2 ^ 16) times

/-- What `get_timer_masked` returns at the given times after a reset at tick `T`. -/
def results (T : Nat) (times : List Nat) : List UInt32 :=
  timestamps (resetTimerMasked (shown T)) (times.map shown)

/-- The claim: every call returns the ticks since the reset. -/
def Exact (T : Nat) (times : List Nat) : Prop :=
  results T times = times.map fun t => UInt32.ofNat (t - T)

/-- Turns of the hardware timer between two ticks. -/
def turns (T t : Nat) : Nat := t / 2 ^ 16 - T / 2 ^ 16

/-- The timer as a call at tick `t` leaves it, after a reset at tick `T`. -/
def behind (T t : Nat) : Timer where
  timestamp := UInt32.ofNat (t - T - turns T t)
  lastdec := shown t

variable {T t u : Nat} {times : List Nat}

theorem readTimer_shown (t : Nat) : readTimer (shown t) = shown t := by
  rw [readTimer, shown, ← UInt32.toNat_inj, Lib.Fields.toNat_and_mask _ 0 16 rfl,
    UInt32.toNat_ofNat']
  omega

theorem toNat_shown (t : Nat) : (shown t).toNat = t % 2 ^ 16 := by
  rw [shown, UInt32.toNat_ofNat']
  omega

theorem behind_self (T : Nat) : resetTimerMasked (shown T) = behind T T := by
  rw [resetTimerMasked, behind, readTimer_shown, turns, Nat.sub_self, Nat.sub_self]
  rfl

/-- A call adds the ticks since the last one, but for one if the timer started again. -/
theorem getTimerMasked_behind (hT : T ≤ t) (hle : t ≤ u) (hlt : u - t < 2 ^ 16) :
    getTimerMasked (shown u) (behind T t) = behind T u := by
  have hsame : shown t ≤ shown u ↔ t / 2 ^ 16 = u / 2 ^ 16 := by
    rw [UInt32.le_iff_toNat_le, toNat_shown, toNat_shown]
    omega
  unfold getTimerMasked behind turns
  rw [readTimer_shown]
  dsimp only
  congr 1
  rw [← UInt32.toNat_inj]
  by_cases hturn : t / 2 ^ 16 = u / 2 ^ 16
  · rw [if_pos (hsame.mpr hturn), UInt32.toNat_add, UInt32.toNat_sub, toNat_shown, toNat_shown,
      UInt32.toNat_ofNat', UInt32.toNat_ofNat']
    omega
  · rw [if_neg (mt hsame.mp hturn), UInt32.toNat_add, UInt32.toNat_sub, UInt32.toNat_add,
      toNat_shown, toNat_shown, show timerLoadVal.toNat = 2 ^ 16 - 1 from rfl,
      UInt32.toNat_ofNat', UInt32.toNat_ofNat']
    omega

/-- Every call is behind by the turns of the timer. -/
theorem timestamps_behind (times : List Nat) : ∀ {t : Nat}, T ≤ t → InTime (t :: times) →
    timestamps (behind T t) (times.map shown) = times.map fun u => (behind T u).timestamp := by
  induction times with
  | nil => exact fun _ _ => rfl
  | cons u times ih =>
    intro t hT hgap
    obtain ⟨⟨hle, hlt⟩, hrest⟩ := List.isChain_cons_cons.mp hgap
    rw [List.map_cons, timestamps, getTimerMasked_behind hT hle hlt, List.map_cons,
      ih (Nat.le_trans hT hle) hrest]

theorem results_behind (h : InTime (T :: times)) :
    results T times = times.map fun t => UInt32.ofNat (t - T - turns T t) := by
  rw [results, behind_self, timestamps_behind times (Nat.le_refl T) h]
  rfl

/-- The first turn shows: the timer has turned at most once since the last call. -/
theorem turns_of_exact (times : List Nat) : ∀ {t : Nat}, T ≤ t → t / 2 ^ 16 = T / 2 ^ 16 →
    InTime (t :: times) → (∀ u ∈ times, UInt32.ofNat (u - T - turns T u) = UInt32.ofNat (u - T)) →
    ∀ u ∈ times, u / 2 ^ 16 = T / 2 ^ 16 := by
  induction times with
  | nil => exact fun _ _ _ _ u hu => absurd hu List.not_mem_nil
  | cons v times ih =>
    intro t hT ht hgap hexact
    obtain ⟨⟨hle, hlt⟩, hrest⟩ := List.isChain_cons_cons.mp hgap
    have hv : v / 2 ^ 16 = T / 2 ^ 16 := by
      have heq := hexact v List.mem_cons_self
      rw [← UInt32.toNat_inj, UInt32.toNat_ofNat', UInt32.toNat_ofNat', turns] at heq
      omega
    intro u hu
    rcases List.mem_cons.mp hu with rfl | hu
    · exact hv
    · exact ih (Nat.le_trans hT hle) hv hrest
        (fun w hw => hexact w (List.mem_cons_of_mem v hw)) u hu

/-- The time does not drift exactly as long as the hardware timer does not start again. -/
theorem exact_iff (h : InTime (T :: times)) :
    Exact T times ↔ ∀ t ∈ times, t / 2 ^ 16 = T / 2 ^ 16 := by
  rw [Exact, results_behind h, List.map_inj_left]
  constructor
  · exact turns_of_exact times (Nat.le_refl T) rfl h
  · intro hsame t ht
    rw [turns, hsame t ht, Nat.sub_self, Nat.sub_zero]

theorem exact_three : Exact 65530 [65533, 65535] :=
  (exact_iff (by unfold InTime; decide)).mpr (by decide)

/-- Six ticks from 65530 on: the second call returns 5. -/
theorem turn_loses_tick : results 65530 [65533, 65536] = [3, 5] ∧
    ¬ ∀ (T : Nat) (times : List Nat), InTime (T :: times) → Exact T times := by
  refine ⟨by decide, fun h => ?_⟩
  have hexact := h 65530 [65533, 65536] (by unfold InTime; decide)
  unfold Exact at hexact
  exact absurd hexact (by decide)

end Plak1a.Boot.Drift
