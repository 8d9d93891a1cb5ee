import Mathlib.Data.List.Basic

/-!
# Programs that ask

A program asks for something, goes on with the answer, and ends. `run` gives it the answers of a
function and lists what was asked for; `exec` gets them from a system that has a state and may not
answer. Where the system answers like the function, it makes no difference to the program.
-/

namespace Plak1a.Lib.Requests

inductive Prog (R B : Type) (A : Type) where
  | done (a : A)
  | ask (r : R) (next : B → Prog R B A)

variable {R B A C σ : Type}

namespace Prog

def bind : Prog R B A → (A → Prog R B C) → Prog R B C
  | .done a, f => f a
  | .ask r next, f => .ask r fun b => (next b).bind f

instance : Monad (Prog R B) where
  pure := .done
  bind := bind

/-- The result, and the requests. -/
def run (answer : R → B) : Prog R B A → A × List R
  | .done a => (a, [])
  | .ask r next =>
    let (a, rs) := (next (answer r)).run answer
    (a, r :: rs)

/-- The result and the state of the system afterwards. -/
def exec (serve : R → σ → Option (B × σ)) : Prog R B A → σ → Option (A × σ)
  | .done a, s => some (a, s)
  | .ask r next, s => do
    let (b, s) ← serve r s
    (next b).exec serve s

end Prog

open Prog

variable {p : Prog R B A} {f : A → Prog R B C} {answer : R → B}
  {serve : R → σ → Option (B × σ)}

@[simp] theorem run_pure (a : A) : (pure a : Prog R B A).run answer = (a, []) := rfl

@[simp] theorem run_bind : (p >>= f).run answer =
    (((f (p.run answer).1).run answer).1,
      (p.run answer).2 ++ ((f (p.run answer).1).run answer).2) := by
  induction p with
  | done a => rfl
  | ask r next ih =>
    have h := ih (answer r)
    show ((next (answer r) >>= f).run answer).map id (r :: ·) = _
    rw [h]
    rfl

/-- The system is in a state from which it gives `n` more answers of the function. -/
structure Serves (serve : R → σ → Option (B × σ)) (answer : R → B) (Asked : R → Prop)
    (I : Nat → σ → Prop) : Prop where
  serve : ∀ n r s, Asked r → I (n + 1) s → ∃ t, serve r s = some (answer r, t) ∧ I n t

/-- The program gets from the system what it gets from the function. -/
theorem exec_of_run {Asked : R → Prop} {I : Nat → σ → Prop}
    (h : Serves serve answer Asked I) {n : Nat} {s : σ}
    (hasked : ∀ r ∈ (p.run answer).2, Asked r) (hs : I (n + (p.run answer).2.length) s) :
    ∃ t, p.exec serve s = some ((p.run answer).1, t) ∧ I n t := by
  induction p generalizing s with
  | done a => exact ⟨s, rfl, hs⟩
  | ask r next ih =>
    obtain ⟨t, hserve, ht⟩ := h.serve _ r s (hasked r List.mem_cons_self) hs
    obtain ⟨u, hexec, hu⟩ := ih (answer r) (fun r hr => hasked r (List.mem_cons_of_mem _ hr)) ht
    refine ⟨u, ?_, hu⟩
    rw [exec, hserve]
    exact hexec

end Plak1a.Lib.Requests
