import Mathlib.Logic.Function.Iterate

/-!
# Loops that count a timeout down

`while (timeout-- && test())` in C: the counter is decremented behind its test, so a loop
whose test fails in the last of `n` polls leaves 0 in it, and one that has run out of polls
leaves -1. A test reads a device and so moves its state on.
-/

namespace Plak1a.Lib.Countdown

variable {S T : Type*}

/-- What is left in `timeout`, and the state behind the last poll. -/
def countdown (test : S → Bool × S) : Nat → S → Int × S
  | 0, s => (-1, s)
  | n + 1, s =>
    let r := test s
    if r.1 then countdown test n r.2 else (n, r.2)

/-- The result of poll `k` if all polls before it are made. -/
def pollAt (test : S → Bool × S) (k : Nat) (s : S) : Bool :=
  (test ((fun s => (test s).2)^[k] s)).1

/-- The first of the polls that fails is poll `k`. -/
def FailsAt (test : S → Bool × S) (k : Nat) (s : S) : Prop :=
  (∀ i < k, pollAt test i s = true) ∧ pollAt test k s = false

variable {test : S → Bool × S} {n k : Nat} {s : S}

theorem pollAt_succ (k : Nat) (s : S) : pollAt test (k + 1) s = pollAt test k (test s).2 := by
  rw [pollAt, Function.iterate_succ_apply]
  rfl

theorem countdown_of_true (h : (test s).1 = true) :
    countdown test (n + 1) s = countdown test n (test s).2 := by
  rw [countdown]
  exact if_pos h

theorem countdown_of_false (h : (test s).1 = false) :
    countdown test (n + 1) s = ((n : Int), (test s).2) := by
  rw [countdown]
  exact if_neg (Bool.eq_false_iff.mp h)

theorem failsAt_zero_iff : FailsAt test 0 s ↔ (test s).1 = false :=
  ⟨fun h => h.2, fun h => ⟨fun i hi => absurd hi (Nat.not_lt_zero i), h⟩⟩

theorem failsAt_succ_iff :
    FailsAt test (k + 1) s ↔ (test s).1 = true ∧ FailsAt test k (test s).2 := by
  constructor
  · intro h
    refine ⟨h.1 0 (Nat.succ_pos k), fun i hi => ?_, ?_⟩
    · rw [← pollAt_succ]
      exact h.1 (i + 1) (Nat.succ_lt_succ hi)
    · rw [← pollAt_succ]
      exact h.2
  · intro h
    refine ⟨fun i hi => ?_, ?_⟩
    · cases i with
      | zero => exact h.1
      | succ i =>
        rw [pollAt_succ]
        exact h.2.1 i (Nat.lt_of_succ_lt_succ hi)
    · rw [pollAt_succ]
      exact h.2.2

/-- The loop runs out exactly if no poll fails. -/
theorem countdown_eq_neg_one_iff :
    (countdown test n s).1 = -1 ↔ ∀ k < n, pollAt test k s = true := by
  induction n generalizing s with
  | zero => exact iff_of_true rfl fun k hk => absurd hk (Nat.not_lt_zero k)
  | succ n ih =>
    cases h : (test s).1 with
    | false =>
      rw [countdown_of_false h]
      refine iff_of_false (by dsimp only; omega) fun hall => ?_
      exact Bool.noConfusion ((hall 0 (Nat.succ_pos n)).symm.trans h)
    | true =>
      rw [countdown_of_true h, ih]
      constructor
      · intro hall k hk
        cases k with
        | zero => exact h
        | succ k =>
          rw [pollAt_succ]
          exact hall k (Nat.lt_of_succ_lt_succ hk)
      · intro hall k hk
        rw [← pollAt_succ]
        exact hall (k + 1) (Nat.succ_lt_succ hk)

/-- What is left is the number of polls behind the first that fails. -/
theorem countdown_eq_iff {m : Nat} :
    (countdown test n s).1 = m ↔ ∃ k, k + 1 + m = n ∧ FailsAt test k s := by
  induction n generalizing s with
  | zero =>
    refine iff_of_false (by rw [countdown]; omega) fun h => ?_
    obtain ⟨k, hk, _⟩ := h
    omega
  | succ n ih =>
    cases h : (test s).1 with
    | false =>
      rw [countdown_of_false h]
      constructor
      · intro hm
        have hnm : n = m := Int.ofNat.inj hm
        exact ⟨0, by omega, failsAt_zero_iff.mpr h⟩
      · intro hfails
        obtain ⟨k, hk, hfails⟩ := hfails
        cases k with
        | zero => exact congrArg Int.ofNat (show n = m by omega)
        | succ k => exact Bool.noConfusion (h.symm.trans (failsAt_succ_iff.mp hfails).1)
    | true =>
      rw [countdown_of_true h, ih]
      constructor
      · intro hfails
        obtain ⟨k, hk, hfails⟩ := hfails
        exact ⟨k + 1, by omega, failsAt_succ_iff.mpr ⟨h, hfails⟩⟩
      · intro hfails
        obtain ⟨k, hk, hfails⟩ := hfails
        cases k with
        | zero => exact Bool.noConfusion (h.symm.trans (failsAt_zero_iff.mp hfails))
        | succ k => exact ⟨k, by omega, (failsAt_succ_iff.mp hfails).2⟩

/-- An invariant of the polls holds behind the loop. -/
theorem countdown_induct {I : S → Prop} (hI : ∀ s, I s → I (test s).2) (hs : I s) :
    I (countdown test n s).2 := by
  induction n generalizing s with
  | zero => exact hs
  | succ n ih =>
    cases h : (test s).1 with
    | false =>
      rw [countdown_of_false h]
      exact hI s hs
    | true =>
      rw [countdown_of_true h]
      exact ih (hI s hs)

/-- A loop whose test depends on a part of the state only, and moves that part by itself. -/
theorem countdown_map {test' : T → Bool × T} {f : S → T} (hfst : ∀ s, (test' (f s)).1 = (test s).1)
    (hsnd : ∀ s, (test' (f s)).2 = f (test s).2) :
    countdown test' n (f s) = ((countdown test n s).1, f (countdown test n s).2) := by
  induction n generalizing s with
  | zero => rfl
  | succ n ih =>
    cases h : (test s).1 with
    | false => rw [countdown_of_false h, countdown_of_false ((hfst s).trans h), hsnd]
    | true => rw [countdown_of_true h, countdown_of_true ((hfst s).trans h), hsnd, ih]

end Plak1a.Lib.Countdown
