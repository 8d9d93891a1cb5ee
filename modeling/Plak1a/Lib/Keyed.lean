import Mathlib.Data.List.Nodup

/-!
# Lists with keys

A list of items that each have a key stands for a finite map: the item of a key is the first
one that has it. With distinct keys, erasing removes a key for good, and an item that is put
at the end after its key was erased is the one that is found.
-/

namespace Plak1a.Lib.Keyed

variable {α κ : Type*} [DecidableEq κ]

/-- The item of a key. -/
def find (key : α → κ) (xs : List α) (k : κ) : Option α := xs.find? (key · = k)

/-- Without the item of a key. -/
def erase (key : α → κ) (xs : List α) (k : κ) : List α := xs.eraseP (key · = k)

/-- No two items have one key. -/
def Distinct (key : α → κ) (xs : List α) : Prop := (xs.map key).Nodup

variable {key : α → κ} {xs ys : List α} {x : α} {k k' : κ}

theorem find_cons (key : α → κ) (x : α) (xs : List α) (k : κ) :
    find key (x :: xs) k = if key x = k then some x else find key xs k := by
  rw [find, List.find?_cons]
  by_cases h : key x = k
  · rw [if_pos h, decide_eq_true h]
  · rw [if_neg h, decide_eq_false h]
    rfl

theorem find_eq_none : find key xs k = none ↔ k ∉ xs.map key := by
  rw [find, List.find?_eq_none, List.mem_map]
  simp only [decide_eq_true_eq, not_exists, not_and]

theorem find_append (key : α → κ) (xs ys : List α) (k : κ) :
    find key (xs ++ ys) k = (find key xs k).or (find key ys k) := List.find?_append

theorem erase_cons (key : α → κ) (x : α) (xs : List α) (k : κ) :
    erase key (x :: xs) k = if key x = k then xs else x :: erase key xs k := by
  rw [erase, List.eraseP_cons]
  by_cases h : key x = k
  · rw [if_pos h, decide_eq_true h]
    rfl
  · rw [if_neg h, decide_eq_false h]
    rfl

theorem erase_sublist (key : α → κ) (xs : List α) (k : κ) : (erase key xs k).Sublist xs :=
  List.eraseP_sublist

/-- The items around the one of a key. -/
theorem find_eq_some (h : find key xs k = some x) :
    ∃ pre post, xs = pre ++ x :: post ∧ erase key xs k = pre ++ post ∧ key x = k ∧
      ∀ y ∈ pre, key y ≠ k := by
  induction xs with
  | nil => cases h
  | cons y xs ih =>
    rw [find_cons] at h
    rw [erase_cons]
    by_cases hy : key y = k
    · rw [if_pos hy] at h ⊢
      cases h
      exact ⟨[], xs, rfl, rfl, hy, fun _ hz => nomatch hz⟩
    · rw [if_neg hy] at h ⊢
      obtain ⟨pre, post, hxs, herase, hx, hpre⟩ := ih h
      refine ⟨y :: pre, post, by rw [hxs]; rfl, by rw [herase]; rfl, hx, ?_⟩
      intro z hz
      rcases List.mem_cons.mp hz with rfl | hz
      · exact hy
      · exact hpre z hz

theorem erase_of_find_none (h : find key xs k = none) : erase key xs k = xs := by
  apply List.eraseP_of_forall_not
  intro x hx
  rw [find_eq_none] at h
  rw [decide_eq_true_eq]
  exact fun hk => h (hk ▸ List.mem_map_of_mem hx)

theorem Distinct.erase (h : Distinct key xs) (k : κ) : Distinct key (erase key xs k) :=
  h.sublist ((erase_sublist key xs k).map key)

theorem not_mem_erase (h : Distinct key xs) (k : κ) : k ∉ (Keyed.erase key xs k).map key := by
  induction xs with
  | nil => exact List.not_mem_nil
  | cons x xs ih =>
    obtain ⟨hx, hxs⟩ := List.nodup_cons.mp h
    rw [erase_cons]
    by_cases hk : key x = k
    · rw [if_pos hk, ← hk]
      exact hx
    · rw [if_neg hk, List.map_cons, List.mem_cons, not_or]
      exact ⟨fun heq => hk heq.symm, ih hxs⟩

omit [DecidableEq κ] in
theorem Distinct.append (h : Distinct key xs) (hx : key x ∉ xs.map key) :
    Distinct key (xs ++ [x]) := by
  rw [Distinct, List.map_append]
  exact List.nodup_append.mpr ⟨h, List.nodup_singleton _, fun a ha b hb => by
    rw [List.map_singleton, List.mem_singleton] at hb
    rintro rfl
    exact hx (hb ▸ ha)⟩

/-- An erased key is gone. -/
theorem find_erase_self (h : Distinct key xs) (k : κ) : find key (erase key xs k) k = none :=
  find_eq_none.mpr (not_mem_erase h k)

/-- The other keys stay. -/
theorem find_erase_of_ne (h : k' ≠ k) : find key (erase key xs k) k' = find key xs k' := by
  induction xs with
  | nil => rfl
  | cons x xs ih =>
    rw [erase_cons]
    by_cases hx : key x = k
    · rw [if_pos hx, find_cons, if_neg (fun hx' => h (hx'.symm.trans hx))]
    · rw [if_neg hx, find_cons, find_cons, ih]

theorem find_append_self (h : find key xs (key x) = none) :
    find key (xs ++ [x]) (key x) = some x := by
  rw [find_append, h, Option.none_or, find_cons, if_pos rfl]

theorem find_append_of_ne (h : k ≠ key x) : find key (xs ++ [x]) k = find key xs k := by
  rw [find_append, find_cons, if_neg h.symm]
  exact Option.or_none

end Plak1a.Lib.Keyed
