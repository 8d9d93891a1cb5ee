import Mathlib.Logic.Function.Basic

/-!
# Flat memories

A memory is a function from addresses to cells. `store` writes a list of cells one
after the other, `copy` moves a block from another memory, and `Holds` says that a
list lies in memory from an address on.
-/

namespace Plak1a.Lib.Memory

variable {α : Type*}

/-- Write `xs` to the addresses from `p` on, first element first. -/
def store (m : Nat → α) (p : Nat) : List α → Nat → α
  | [] => m
  | x :: xs => store (Function.update m p x) (p + 1) xs

/-- Copy `n` cells of `src` from `s` on to the addresses of `dst` from `d` on. -/
def copy (dst : Nat → α) (d : Nat) (src : Nat → α) (s n : Nat) : Nat → α :=
  fun i => if d ≤ i ∧ i < d + n then src (s + (i - d)) else dst i

/-- `xs` lies in memory from `p` on. -/
def Holds (m : Nat → α) (p : Nat) (xs : List α) : Prop :=
  ∀ (i : Nat) (h : i < xs.length), m (p + i) = xs[i]

variable {m dst src : Nat → α} {p q d s n : Nat} {xs ys zs : List α}

theorem store_of_lt (h : q < p) : store m p xs q = m q := by
  induction xs generalizing m p with
  | nil => rfl
  | cons x xs ih =>
    rw [store, ih (by omega), Function.update_of_ne (by omega)]

theorem store_of_ge (h : p + xs.length ≤ q) : store m p xs q = m q := by
  induction xs generalizing m p with
  | nil => rfl
  | cons x xs ih =>
    rw [List.length_cons] at h
    rw [store, ih (by omega), Function.update_of_ne (by omega)]

theorem store_append : store m p (xs ++ ys) = store (store m p xs) (p + xs.length) ys := by
  induction xs generalizing m p with
  | nil => rfl
  | cons x xs ih =>
    rw [List.cons_append, store, ih, store, List.length_cons,
      show p + (xs.length + 1) = p + 1 + xs.length from by omega]

theorem holds_store : Holds (store m p xs) p xs := by
  induction xs generalizing m p with
  | nil => exact fun i h => absurd h (Nat.not_lt_zero i)
  | cons x xs ih =>
    intro i h
    cases i with
    | zero =>
      show store (Function.update m p x) (p + 1) xs p = x
      rw [store_of_lt (Nat.lt_succ_self p), Function.update_self]
    | succ i =>
      rw [List.length_cons] at h
      rw [store, show p + (i + 1) = p + 1 + i from by omega]
      exact ih i (by omega)

theorem holds_nil (m : Nat → α) (p : Nat) : Holds m p [] := fun _ h => nomatch h

theorem holds_cons {x : α} : Holds m p (x :: xs) ↔ m p = x ∧ Holds m (p + 1) xs := by
  constructor
  · intro h
    refine ⟨h 0 (Nat.succ_pos _), fun i hi => ?_⟩
    rw [Nat.add_assoc, Nat.add_comm 1 i]
    exact h (i + 1) (Nat.succ_lt_succ hi)
  · intro ⟨hx, hxs⟩ i hi
    cases i with
    | zero => exact hx
    | succ i =>
      rw [show p + (i + 1) = p + 1 + i from by omega]
      exact hxs i (Nat.lt_of_succ_lt_succ hi)

theorem Holds.append (h : Holds m p xs) (h' : Holds m (p + xs.length) ys) :
    Holds m p (xs ++ ys) := by
  intro i hi
  rw [List.length_append] at hi
  by_cases hx : i < xs.length
  · rw [List.getElem_append_left hx]
    exact h i hx
  · rw [List.getElem_append_right (Nat.le_of_not_lt hx), ← h' (i - xs.length) (by omega)]
    congr 1
    omega

theorem Holds.left (h : Holds m p (xs ++ ys)) : Holds m p xs := by
  intro i hi
  rw [h i (by rw [List.length_append]; omega), List.getElem_append_left hi]

theorem Holds.right (h : Holds m p (xs ++ ys)) : Holds m (p + xs.length) ys := by
  intro i hi
  rw [Nat.add_assoc, h (xs.length + i) (by rw [List.length_append]; omega),
    List.getElem_append_right (by omega)]
  congr 1
  omega

theorem holds_append : Holds m p (xs ++ ys) ↔ Holds m p xs ∧ Holds m (p + xs.length) ys :=
  ⟨fun h => ⟨h.left, h.right⟩, fun h => h.1.append h.2⟩

theorem Holds.drop (h : Holds m p xs) (n : Nat) : Holds m (p + n) (xs.drop n) := by
  intro i hi
  rw [List.length_drop] at hi
  rw [Nat.add_assoc, h (n + i) (by omega), List.getElem_drop]

theorem Holds.of_isPrefix (h : Holds m p ys) (hpre : xs <+: ys) : Holds m p xs := by
  obtain ⟨zs, rfl⟩ := hpre
  exact h.left

/-- Two lists that lie in the same place start alike. -/
theorem Holds.isPrefix (h : Holds m p xs) (h' : Holds m p ys) (hle : xs.length ≤ ys.length) :
    xs <+: ys := by
  rw [List.prefix_iff_eq_take]
  apply List.ext_getElem
  · rw [List.length_take, Nat.min_eq_left hle]
  · intro i hi _
    rw [List.getElem_take, ← h i hi, h' i (by omega)]

/-- What lies at the start of a block lies in the target after the block was copied. -/
theorem Holds.copied (h : Holds src s xs) (hn : xs.length ≤ n) :
    Holds (copy dst d src s n) d xs := by
  intro i hi
  rw [copy, if_pos ⟨by omega, by omega⟩, show s + (d + i - d) = s + i from by omega]
  exact h i hi

theorem copy_of_mem (h : d ≤ q) (h' : q < d + n) : copy dst d src s n q = src (s + (q - d)) :=
  if_pos ⟨h, h'⟩

theorem copy_of_lt (h : q < d) : copy dst d src s n q = dst q := by
  rw [copy, if_neg (by omega)]

theorem copy_of_ge (h : d + n ≤ q) : copy dst d src s n q = dst q := by
  rw [copy, if_neg (by omega)]

/-- Two copies side by side are one. -/
theorem copy_copy (k : Nat) :
    copy (copy dst d src s n) (d + n) src (s + n) k = copy dst d src s (n + k) := by
  funext i
  by_cases hhi : d + n ≤ i ∧ i < d + n + k
  · rw [copy_of_mem hhi.1 hhi.2, copy_of_mem (by omega) (by omega)]
    congr 1
    omega
  · rw [copy, if_neg hhi]
    by_cases hlo : d ≤ i ∧ i < d + n
    · rw [copy_of_mem hlo.1 hlo.2, copy_of_mem hlo.1 (by omega)]
    · rw [copy, if_neg hlo, copy, if_neg (by omega)]

/-- A copy leaves what lies before its target. -/
theorem Holds.copy_after (h : Holds dst p xs) (hd : p + xs.length ≤ d) :
    Holds (copy dst d src s n) p xs := by
  intro i hi
  rw [copy_of_lt (by omega)]
  exact h i hi

/-- Writing a part of `xs` to its place leaves what is there of `xs`. -/
theorem Holds.store_slice (h : Holds m p (xs.take n)) (i len : Nat) :
    Holds (store m (p + i) ((xs.drop i).take len)) p (xs.take n) := by
  intro j hj
  by_cases hlt : j < i
  · rw [store_of_lt (by omega)]
    exact h j hj
  · by_cases hin : j - i < ((xs.drop i).take len).length
    · have hslice := holds_store (m := m) (p := p + i) (j - i) hin
      rw [show p + i + (j - i) = p + j by omega] at hslice
      rw [hslice]
      simp only [List.getElem_take, List.getElem_drop, show i + (j - i) = j by omega]
    · rw [store_of_ge (by omega)]
      exact h j hj

/-- A part that begins in what is there, or right behind it, makes it longer. -/
theorem Holds.store_next {i : Nat} (h : Holds m p (xs.take n)) (hi : i ≤ n) (len : Nat) :
    Holds (store m (p + i) ((xs.drop i).take len)) p (xs.take (i + len)) := by
  intro j hj
  rw [List.length_take] at hj
  by_cases hlt : j < i
  · have hj' : j < (xs.take n).length := by
      rw [List.length_take]
      omega
    rw [h.store_slice i len j hj']
    simp only [List.getElem_take]
  · have hin : j - i < ((xs.drop i).take len).length := by
      rw [List.length_take, List.length_drop]
      omega
    have hslice := holds_store (m := m) (p := p + i) (j - i) hin
    rw [show p + i + (j - i) = p + j by omega] at hslice
    rw [hslice]
    simp only [List.getElem_take, List.getElem_drop, show i + (j - i) = j by omega]

end Plak1a.Lib.Memory
