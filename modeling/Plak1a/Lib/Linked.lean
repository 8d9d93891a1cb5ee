import Mathlib.Data.Fintype.Card
import Mathlib.Logic.Function.Iterate

/-!
# Chains of a successor function

A chain lists the cells visited from a start cell until the successor is an end mark.
No cell is a mark, so that a start cell has at most one chain and a chain visits a
cell at most once.
-/

namespace Plak1a.Lib.Linked

variable {α : Type*}

/-- `xs` is the chain from `x`: every element is a cell, the last one leads to a mark. -/
inductive Chain (next : α → α) (Cell Mark : α → Prop) : α → List α → Prop
  | last {x : α} (hx : Cell x) (hm : Mark (next x)) : Chain next Cell Mark x [x]
  | cons {x : α} {xs : List α} (hx : Cell x) (h : Chain next Cell Mark (next x) xs) :
      Chain next Cell Mark x (x :: xs)

variable {next : α → α} {Cell Mark : α → Prop} {x y : α} {xs ys : List α}

theorem Chain.cell (h : Chain next Cell Mark x xs) : Cell x := by
  cases h with
  | last hx _ => exact hx
  | cons hx _ => exact hx

theorem Chain.head?_eq (h : Chain next Cell Mark x xs) : xs[0]? = some x := by
  cases h <;> rfl

theorem Chain.unique (hd : ∀ x, Mark x → ¬ Cell x) (h : Chain next Cell Mark x xs)
    (h' : Chain next Cell Mark x ys) : xs = ys := by
  induction h generalizing ys with
  | last _ hm =>
    cases h' with
    | last _ _ => rfl
    | cons _ h => exact absurd h.cell (hd _ hm)
  | cons _ h ih =>
    cases h' with
    | last _ hm => exact absurd h.cell (hd _ hm)
    | cons _ h' => rw [ih h']

/-- The rest of a chain from one of its cells on is the chain of that cell. -/
theorem Chain.suffix (h : Chain next Cell Mark x xs) (hy : y ∈ xs) :
    ∃ ys, Chain next Cell Mark y ys ∧ ys.length ≤ xs.length := by
  induction h with
  | last hx hm =>
    obtain rfl := List.mem_singleton.mp hy
    exact ⟨_, .last hx hm, Nat.le_refl _⟩
  | cons hx h ih =>
    rcases List.mem_cons.mp hy with rfl | hy
    · exact ⟨_, .cons hx h, Nat.le_refl _⟩
    · obtain ⟨ys, hys, hle⟩ := ih hy
      exact ⟨ys, hys, Nat.le_succ_of_le hle⟩

theorem Chain.nodup (hd : ∀ x, Mark x → ¬ Cell x) (h : Chain next Cell Mark x xs) :
    xs.Nodup := by
  induction h with
  | last _ _ => exact List.nodup_singleton _
  | cons hx h ih =>
    apply List.nodup_cons.mpr ⟨_, ih⟩
    intro hmem
    obtain ⟨ys, hys, hle⟩ := h.suffix hmem
    rw [hys.unique hd (.cons hx h), List.length_cons] at hle
    omega

/-- A chain is no longer than the number of values of a cell. -/
theorem Chain.length_le {n : Nat} {f : α → Fin n} (hf : Function.Injective f)
    (hd : ∀ x, Mark x → ¬ Cell x) (h : Chain next Cell Mark x xs) : xs.length ≤ n := by
  have hcard := ((h.nodup hd).map hf).length_le_card
  rwa [List.length_map, Fintype.card_fin] at hcard

/-- The `i`-th element is the start cell's `i`-th successor, and so are those before it. -/
theorem Chain.getElem?_eq {i : Nat} (h : Chain next Cell Mark x xs) (hy : xs[i]? = some y) :
    next^[i] x = y ∧ ∀ k, k ≤ i → Cell (next^[k] x) := by
  induction h generalizing i with
  | last hx hm =>
    cases i with
    | zero =>
      cases hy
      exact ⟨rfl, fun k hk => Nat.le_zero.mp hk ▸ hx⟩
    | succ i => cases hy
  | cons hx h ih =>
    cases i with
    | zero =>
      cases hy
      exact ⟨rfl, fun k hk => Nat.le_zero.mp hk ▸ hx⟩
    | succ i =>
      rw [List.getElem?_cons_succ] at hy
      obtain ⟨hi, hcell⟩ := ih hy
      refine ⟨hi, ?_⟩
      intro k hk
      cases k with
      | zero => exact hx
      | succ k => exact hcell k (Nat.le_of_succ_le_succ hk)

theorem Chain.cell_of_mem (h : Chain next Cell Mark x xs) (hy : y ∈ xs) : Cell y := by
  obtain ⟨ys, hys, _⟩ := h.suffix hy
  exact hys.cell

theorem Chain.iterate_mem {k : Nat} (h : Chain next Cell Mark x xs) (hk : k < xs.length) :
    next^[k] x ∈ xs := by
  obtain ⟨hi, _⟩ := h.getElem?_eq (List.getElem?_eq_getElem hk)
  exact hi ▸ List.getElem_mem hk

/-- Behind the last element comes the mark. -/
theorem Chain.mark (h : Chain next Cell Mark x xs) : Mark (next^[xs.length] x) := by
  induction h with
  | last _ hm => exact hm
  | cons _ _ ih => exact ih

/-- A chain depends on the successors of its own elements only. -/
theorem Chain.congr {next' : α → α} (h : Chain next Cell Mark x xs)
    (heq : ∀ y ∈ xs, next' y = next y) : Chain next' Cell Mark x xs := by
  induction h with
  | last hx hm => exact .last hx ((heq _ List.mem_cons_self).symm ▸ hm)
  | cons hx _ ih =>
    have hrest := ih fun y hy => heq y (List.mem_cons_of_mem _ hy)
    exact .cons hx ((heq _ List.mem_cons_self).symm ▸ hrest)

theorem Chain.iterate_congr {next' : α → α} {k : Nat} (h : Chain next Cell Mark x xs)
    (heq : ∀ y ∈ xs, next' y = next y) (hk : k ≤ xs.length) : next'^[k] x = next^[k] x := by
  induction k with
  | zero => rfl
  | succ k ih =>
    rw [Function.iterate_succ_apply', Function.iterate_succ_apply', ih (Nat.le_of_lt hk)]
    exact heq _ (h.iterate_mem hk)

end Plak1a.Lib.Linked
