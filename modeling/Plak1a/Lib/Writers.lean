import Mathlib.Data.List.Induction

/-!
# Last writers

Something observed of a state is replaced by some steps of a run and left alone by the other
ones. Behind the run it is what the last step that reached it gave it; which step that is
depends on the steps alone, not on the values they write.
-/

namespace Plak1a.Lib.Writers

variable {A S W : Type*}

/-- The last step that reaches what is observed. -/
def lastWriter (reaches : A → Bool) (steps : List A) : Option A := (steps.filter reaches).getLast?

variable {reaches : A → Bool} {steps : List A} {a : A}

theorem lastWriter_append (reaches : A → Bool) (steps : List A) (a : A) :
    lastWriter reaches (steps ++ [a]) = if reaches a then some a else lastWriter reaches steps := by
  rw [lastWriter, List.filter_append]
  by_cases ha : reaches a = true
  · simp [ha]
  · simp [ha, lastWriter]

theorem reaches_of_lastWriter (h : lastWriter reaches steps = some a) : reaches a = true :=
  (List.mem_filter.mp (List.mem_of_getLast? h)).2

theorem exists_lastWriter (hmem : a ∈ steps) (ha : reaches a = true) :
    ∃ b, lastWriter reaches steps = some b :=
  ⟨_, List.getLast?_eq_some_getLast (List.ne_nil_of_mem (List.mem_filter.mpr ⟨hmem, ha⟩))⟩

/-- What is observed behind a run. -/
theorem observe_foldl {step : S → A → S} (observe : S → W) {value : A → W}
    (hstep : ∀ s a, observe (step s a) = if reaches a then value a else observe s) (s : S)
    (steps : List A) :
    observe (steps.foldl step s) = ((lastWriter reaches steps).map value).getD (observe s) := by
  induction steps using List.reverseRecOn with
  | nil => rfl
  | append_singleton steps a ih =>
    rw [List.foldl_append, lastWriter_append]
    refine (hstep _ a).trans ?_
    split
    · rfl
    · exact ih

end Plak1a.Lib.Writers
