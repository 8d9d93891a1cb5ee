import Mathlib.Data.List.Basic

/-!
# Polling loops

A polling loop reads a device until a test holds of a reading, so that `List.findIdx?` of
the test gives the poll it ends at. What matters about a test is what it says about the
time a reading was made: whether it can hold too early, and whether it holds exactly from
some time on.
-/

namespace Plak1a.Lib.Poll

variable {α : Type*} {stop due : α → Bool} {xs : List α}

/-- Over all sequences of times, a loop ends at none before `n` exactly if its test holds of
none. -/
theorem ends_from_iff {stop : Nat → Bool} {n : Nat} :
    (∀ ks : List Nat, ks.Pairwise (· ≤ ·) → ∀ i (hi : i < ks.length),
      ks.findIdx? stop = some i → n ≤ ks[i]) ↔ ∀ k, stop k = true → n ≤ k := by
  constructor
  · intro h k hk
    apply h [k] (List.pairwise_singleton _ k) 0 Nat.one_pos
    rw [List.findIdx?_cons, if_pos hk]
  · intro h ks _ i hi hend
    obtain ⟨_, hstop, _⟩ := List.findIdx?_eq_some_iff_getElem.mp hend
    exact h _ hstop

/-- The test is right about every reading up to the first one that is due. -/
def RightUpTo (stop due : α → Bool) (xs : List α) : Prop :=
  ∀ i (hi : i < xs.length), (∀ x ∈ xs.take i, due x = false) → stop xs[i] = due xs[i]

theorem rightUpTo_cons {x : α} : RightUpTo stop due (x :: xs) ↔
    stop x = due x ∧ (due x = false → RightUpTo stop due xs) := by
  constructor
  · intro h
    refine ⟨h 0 (Nat.succ_pos _) fun y hy => absurd hy List.not_mem_nil, fun hx i hi hbefore => ?_⟩
    apply h (i + 1) (Nat.succ_lt_succ hi)
    intro y hy
    rw [List.take_succ_cons] at hy
    rcases List.mem_cons.mp hy with rfl | hy
    · exact hx
    · exact hbefore y hy
  · intro ⟨hx, hrest⟩ i hi hbefore
    cases i with
    | zero => exact hx
    | succ i =>
      rw [List.take_succ_cons] at hbefore
      exact hrest (hbefore x List.mem_cons_self) i (Nat.lt_of_succ_lt_succ hi)
        fun y hy => hbefore y (List.mem_cons_of_mem x hy)

/-- A loop ends at the first reading that is due exactly if its test is right up to there. -/
theorem findIdx?_eq_iff : xs.findIdx? stop = xs.findIdx? due ↔ RightUpTo stop due xs := by
  induction xs with
  | nil => exact iff_of_true rfl fun i hi => absurd hi (Nat.not_lt_zero i)
  | cons x xs ih =>
    rw [rightUpTo_cons, List.findIdx?_cons, List.findIdx?_cons, ← ih]
    cases hstop : stop x <;> cases hdue : due x
    · simpa using (Option.map_injective fun _ _ => Nat.succ.inj).eq_iff
    · simp
    · cases xs.findIdx? due <;> simp
    · simp

end Plak1a.Lib.Poll
