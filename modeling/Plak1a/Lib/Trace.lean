import Mathlib.Data.List.Infix

/-!
# What comes directly before

In a trace, every element of one kind is to come directly after a given word. That holds of
a concatenation if it holds of the parts, and fails where one such element follows another.
-/

namespace Plak1a.Lib.Trace

variable {α β : Type*} {p : α → Prop} {u xs ys pre post : List α} {x y : α} {f : β → List α}
  {l : List β}

/-- Directly before every element for which `p` holds stands the word `u`. -/
def Preceded (p : α → Prop) (u xs : List α) : Prop :=
  ∀ pre x post, xs = pre ++ x :: post → p x → u <:+ pre

/-- `p` holds of the last element, if there is one. -/
def EndsIn (p : α → Prop) (xs : List α) : Prop := ∀ x, xs.getLast? = some x → p x

theorem preceded_of_forall_not (h : ∀ x ∈ xs, ¬ p x) : Preceded p u xs := by
  intro pre x post heq hx
  apply absurd hx (h x _)
  rw [heq]
  exact List.mem_append_right pre List.mem_cons_self

/-- The word, and one element behind it. -/
theorem preceded_concat (h : ∀ y ∈ u, ¬ p y) : Preceded p u (u ++ [x]) := by
  intro pre y post heq hy
  rcases List.append_eq_append_iff.mp heq with ⟨w, rfl, hw⟩ | ⟨w, rfl, hw⟩
  · cases w with
    | nil => exact (List.append_nil u).symm ▸ List.suffix_refl u
    | cons z w =>
      have hnil := (List.cons.inj hw).2
      exact absurd hnil.symm (List.append_ne_nil_of_right_ne_nil w (List.cons_ne_nil y post))
  · cases w with
    | nil => exact (List.append_nil pre).symm ▸ List.suffix_refl pre
    | cons z w =>
      obtain rfl := (List.cons.inj hw).1
      exact absurd hy (h y (List.mem_append_right pre List.mem_cons_self))

theorem Preceded.append (hxs : Preceded p u xs) (hys : Preceded p u ys) :
    Preceded p u (xs ++ ys) := by
  intro pre x post heq hx
  rcases List.append_eq_append_iff.mp heq with ⟨w, rfl, hw⟩ | ⟨w, rfl, hw⟩
  · exact (hys w x post hw hx).trans (List.suffix_append xs w)
  · cases w with
    | nil => exact (hys [] x post hw.symm hx).trans List.nil_suffix
    | cons z w =>
      obtain ⟨rfl, -⟩ := List.cons.inj hw
      exact hxs pre x w rfl hx

theorem preceded_flatMap (h : ∀ b ∈ l, Preceded p u (f b)) : Preceded p u (l.flatMap f) := by
  induction l with
  | nil => exact preceded_of_forall_not fun x hx => absurd hx List.not_mem_nil
  | cons b l ih =>
    rw [List.flatMap_cons]
    exact (h b List.mem_cons_self).append (ih fun c hc => h c (List.mem_cons_of_mem b hc))

theorem endsIn_flatMap (h : ∀ b, EndsIn p (f b)) : EndsIn p (l.flatMap f) := by
  induction l with
  | nil => exact fun x hx => nomatch hx
  | cons b l ih =>
    intro x hx
    rw [List.flatMap_cons, List.getLast?_append] at hx
    cases hlast : (l.flatMap f).getLast? with
    | none =>
      rw [hlast, Option.none_or] at hx
      exact h b x hx
    | some y =>
      rw [hlast, Option.some_or] at hx
      exact ih x (hlast.trans hx)

/-- Behind a trace that ends in such an element, or is empty, the word does not stand. -/
theorem not_preceded (hpre : EndsIn p pre) (hx : p x) (hu : u.getLast? = some y) (hy : ¬ p y) :
    ¬ Preceded p u (pre ++ x :: post) := by
  intro h
  obtain ⟨w, hw⟩ := h pre x post rfl hx
  apply hy
  apply hpre y
  rw [← hw, List.getLast?_append, hu, Option.some_or]

end Plak1a.Lib.Trace
