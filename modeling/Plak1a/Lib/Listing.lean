import Mathlib.Logic.Basic

/-!
# Listings with a terminator

A listing is read from the front: some of its elements count, and one of them may end
it. `look` searches for the element that counts after `n` others, as a scan does that
sees the listing piece by piece; `listed` says which elements there are to be found.
-/

namespace Plak1a.Lib.Listing

variable {α : Type*}

/-- What a search has come to: the terminator, the element, or the end of the piece with
so many elements still to be passed over. -/
inductive Look (α : Type*) where
  | ended
  | found (x : α)
  | more (n : Nat)

/-- The result of a search that has seen the whole listing. -/
def Look.ofOption : Option α → Look α
  | none => .ended
  | some x => .found x

def Look.isDecided : Look α → Bool
  | .more _ => false
  | _ => true

/-- The search is over. -/
def Look.Decided (l : Look α) : Prop := l.isDecided = true

instance (l : Look α) : Decidable l.Decided := inferInstanceAs (Decidable (_ = true))

theorem Look.not_decided_more {n : Nat} : ¬ (Look.more n : Look α).Decided := Bool.false_ne_true

variable (ends counts : α → Bool)

def look : Nat → List α → Look α
  | n, [] => .more n
  | n, x :: xs =>
    if ends x then .ended
    else if counts x then
      match n with
      | 0 => .found x
      | n + 1 => look n xs
    else look n xs

/-- The elements that count before the terminator. -/
def listed (xs : List α) : List α := (xs.takeWhile fun x => !ends x).filter counts

variable {ends counts} {n m : Nat} {x : α} {xs ys : List α}

theorem look_end (h : ends x = true) : look ends counts n (x :: xs) = .ended := by
  rw [look.eq_def]
  simp only [h, if_true]

theorem look_skip (h : ends x = false) (hc : counts x = false) :
    look ends counts n (x :: xs) = look ends counts n xs := by
  rw [look.eq_def]
  simp only [h, hc, Bool.false_eq_true, if_false]

theorem look_zero (h : ends x = false) (hc : counts x = true) :
    look ends counts 0 (x :: xs) = .found x := by
  rw [look.eq_def]
  simp only [h, hc, Bool.false_eq_true, if_false, if_true]

theorem look_succ (h : ends x = false) (hc : counts x = true) :
    look ends counts (n + 1) (x :: xs) = look ends counts n xs := by
  rw [look.eq_def]
  simp only [h, hc, Bool.false_eq_true, if_false, if_true]

theorem listed_end (h : ends x = true) : listed ends counts (x :: xs) = [] := by
  simp [listed, h]

theorem listed_skip (h : ends x = false) (hc : counts x = false) :
    listed ends counts (x :: xs) = listed ends counts xs := by
  simp [listed, h, hc]

theorem listed_count (h : ends x = false) (hc : counts x = true) :
    listed ends counts (x :: xs) = x :: listed ends counts xs := by
  simp [listed, h, hc]

/-- What a search that is over says about the elements there are. -/
theorem look_decided (hd : (look ends counts n xs).Decided) :
    look ends counts n xs = .ofOption (listed ends counts xs)[n]? := by
  induction xs generalizing n with
  | nil => exact absurd hd Look.not_decided_more
  | cons x xs ih =>
    cases h : ends x with
    | true =>
      rw [look_end h, listed_end h]
      rfl
    | false =>
      cases hc : counts x with
      | false =>
        rw [look_skip h hc] at hd ⊢
        rw [listed_skip h hc]
        exact ih hd
      | true =>
        rw [listed_count h hc]
        cases n with
        | zero =>
          rw [look_zero h hc]
          rfl
        | succ n =>
          rw [look_succ h hc] at hd ⊢
          exact ih hd

/-- A piece without result is passed over. -/
theorem look_append_of_more (h : look ends counts n xs = .more m) :
    look ends counts n (xs ++ ys) = look ends counts m ys := by
  induction xs generalizing n with
  | nil =>
    cases h
    rfl
  | cons x xs ih =>
    cases he : ends x with
    | true =>
      rw [look_end he] at h
      cases h
    | false =>
      cases hc : counts x with
      | false =>
        rw [look_skip he hc] at h
        rw [List.cons_append, look_skip he hc]
        exact ih h
      | true =>
        cases n with
        | zero =>
          rw [look_zero he hc] at h
          cases h
        | succ n =>
          rw [look_succ he hc] at h
          rw [List.cons_append, look_succ he hc]
          exact ih h

/-- What comes behind the place where a search is over does not matter. -/
theorem look_append_of_decided (h : (look ends counts n xs).Decided) :
    look ends counts n (xs ++ ys) = look ends counts n xs := by
  induction xs generalizing n with
  | nil => exact absurd h Look.not_decided_more
  | cons x xs ih =>
    cases he : ends x with
    | true => rw [List.cons_append, look_end he, look_end he]
    | false =>
      cases hc : counts x with
      | false =>
        rw [look_skip he hc] at h
        rw [List.cons_append, look_skip he hc, look_skip he hc]
        exact ih h
      | true =>
        cases n with
        | zero => rw [List.cons_append, look_zero he hc, look_zero he hc]
        | succ n =>
          rw [look_succ he hc] at h
          rw [List.cons_append, look_succ he hc, look_succ he hc]
          exact ih h

/-- A search for an earlier element is over no later. -/
theorem look_decided_of_le (hle : m ≤ n) (h : (look ends counts n xs).Decided) :
    (look ends counts m xs).Decided := by
  induction xs generalizing m n with
  | nil => exact absurd h Look.not_decided_more
  | cons x xs ih =>
    cases he : ends x with
    | true =>
      rw [look_end he]
      rfl
    | false =>
      cases hc : counts x with
      | false =>
        rw [look_skip he hc] at h ⊢
        exact ih hle h
      | true =>
        cases m with
        | zero =>
          rw [look_zero he hc]
          rfl
        | succ m =>
          obtain ⟨k, rfl⟩ := Nat.exists_eq_add_of_lt (Nat.lt_of_lt_of_le (Nat.succ_pos m) hle)
          rw [Nat.zero_add, look_succ he hc] at h
          rw [look_succ he hc]
          exact ih (by omega) h

end Plak1a.Lib.Listing
