import Mathlib.Logic.Function.Iterate

/-!
# While loops

A loop is a test and a body over a state type. `run` takes a bound on the number
of tests and is undefined when the bound is used up, so that a loop which does not
end has no result under any bound. `Ends` hides the bound, and an invariant carries
over to the state the loop ends in.
-/

namespace Plak1a.Lib.While

variable {S : Type*}

/-- Repeat `body` while `more` holds, for at most `fuel` tests. -/
def run (more : S → Bool) (body : S → S) : Nat → S → Option S
  | 0, _ => none
  | fuel + 1, s => if more s then run more body fuel (body s) else some s

/-- The loop started in `s` ends in `t`. -/
def Ends (more : S → Bool) (body : S → S) (s t : S) : Prop :=
  ∃ fuel, run more body fuel s = some t

variable {more : S → Bool} {body : S → S} {I : S → Prop} {s t u : S}

theorem run_stop (fuel : Nat) (h : more s = false) : run more body (fuel + 1) s = some s := by
  rw [run, h]
  rfl

theorem run_more (fuel : Nat) (h : more s = true) :
    run more body (fuel + 1) s = run more body fuel (body s) := by
  rw [run, if_pos h]

theorem Ends.stop (h : more s = false) : Ends more body s s := ⟨1, run_stop 0 h⟩

theorem Ends.next (h : more s = true) (he : Ends more body (body s) t) : Ends more body s t := by
  obtain ⟨fuel, hf⟩ := he
  exact ⟨fuel + 1, (run_more fuel h).trans hf⟩

/-- A larger bound changes nothing. -/
theorem run_mono {m n : Nat} (h : run more body m s = some t) (hle : m ≤ n) :
    run more body n s = some t := by
  induction m generalizing n s with
  | zero => cases h
  | succ m ih =>
    obtain ⟨n, rfl⟩ := Nat.exists_eq_add_of_le' (Nat.lt_of_lt_of_le (Nat.succ_pos m) hle)
    cases hm : more s with
    | false =>
      rw [run_stop m hm] at h
      rw [run_stop n hm, h]
    | true =>
      rw [run_more m hm] at h
      rw [run_more n hm]
      exact ih h (Nat.le_of_succ_le_succ hle)

/-- What holds of the states a loop can end in, by induction on the rounds left. -/
theorem Ends.induct {Q : S → Prop} (hstop : more t = false → Q t)
    (hnext : ∀ s, more s = true → Ends more body (body s) t → Q (body s) → Q s)
    (h : Ends more body s t) : Q s := by
  obtain ⟨fuel, hf⟩ := h
  induction fuel generalizing s with
  | zero => cases hf
  | succ fuel ih =>
    cases hm : more s with
    | false =>
      rw [run_stop fuel hm] at hf
      cases hf
      exact hstop hm
    | true =>
      rw [run_more fuel hm] at hf
      exact hnext s hm ⟨fuel, hf⟩ (ih hf)

theorem Ends.of_next (h : more s = true) (he : Ends more body s t) : Ends more body (body s) t := by
  obtain ⟨fuel, hf⟩ := he
  cases fuel with
  | zero => cases hf
  | succ fuel => exact ⟨fuel, (run_more fuel h).symm.trans hf⟩

theorem Ends.of_stop (h : more s = false) (he : Ends more body s t) : t = s := by
  obtain ⟨fuel, hf⟩ := he
  cases fuel with
  | zero => cases hf
  | succ fuel => exact (Option.some.inj ((run_stop fuel h).symm.trans hf)).symm

theorem Ends.unique (h : Ends more body s t) : Ends more body s u → t = u := by
  apply Ends.induct (Q := fun s => Ends more body s u → t = u) _ _ h
  · exact fun hm hu => (hu.of_stop hm).symm
  · exact fun s hm _ ih hu => ih (hu.of_next hm)

/-- An invariant of the rounds holds at the end, where the test fails. -/
theorem inv_of_ends (hbody : ∀ s, I s → more s = true → I (body s)) (h : Ends more body s t) :
    I s → I t ∧ more t = false := by
  apply Ends.induct (Q := fun s => I s → I t ∧ more t = false) _ _ h
  · exact fun hm hi => ⟨hi, hm⟩
  · exact fun s hm _ ih hi => ih (hbody s hi hm)

/-- A loop whose test never fails does not end. -/
theorem run_none (hbody : ∀ s, I s → more s = true ∧ I (body s)) (hs : I s) (fuel : Nat) :
    run more body fuel s = none := by
  induction fuel generalizing s with
  | zero => rfl
  | succ fuel ih =>
    obtain ⟨hm, hi⟩ := hbody s hs
    rw [run_more fuel hm]
    exact ih hi

/-- A loop ends exactly if its test fails after some number of rounds. -/
theorem ends_iff_iterate : (∃ t, Ends more body s t) ↔ ∃ k, more (body^[k] s) = false := by
  constructor
  · intro ⟨t, h⟩
    apply Ends.induct (Q := fun s => ∃ k, more (body^[k] s) = false) _ _ h
    · exact fun hm => ⟨0, hm⟩
    · exact fun s _ _ ⟨k, hk⟩ => ⟨k + 1, hk⟩
  · intro ⟨k, hk⟩
    induction k generalizing s with
    | zero => exact ⟨s, .stop hk⟩
    | succ k ih =>
      cases hm : more s with
      | false => exact ⟨s, .stop hm⟩
      | true =>
        obtain ⟨t, ht⟩ := ih hk
        exact ⟨t, ht.next hm⟩

end Plak1a.Lib.While
