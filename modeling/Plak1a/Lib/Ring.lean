import Mathlib.Logic.Function.Basic

/-!
# Circular buffers with one free slot

A ring of `N` slots with an extract index and an insert index holds at most
`N - 1` elements: equal indices mean empty, and the producer refuses the element
whose store would make them equal. `Holds` relates the slots between the indices
to an ordinary list; slots outside that window are unrestricted.
-/

namespace Plak1a.Lib.Ring

variable {α : Type*} {N : Nat}

structure Holds (N : Nat) (buf : Nat → α) (extract insert : Nat) (q : List α) : Prop where
  extract_lt : extract < N
  length_lt : q.length < N
  insert_eq : insert = (extract + q.length) % N
  slots : ∀ (k : Nat) (hk : k < q.length), buf ((extract + k) % N) = q[k]

/-- The elements between the indices, oldest first. -/
def contents (N : Nat) (buf : Nat → α) (extract insert : Nat) : List α :=
  (List.range ((insert + N - extract) % N)).map fun k => buf ((extract + k) % N)

/-- One subtraction reduces a sum of two indices. -/
theorem mod_of_lt_two_mul {a : Nat} (h : a < 2 * N) : a % N = if a < N then a else a - N := by
  split
  · exact Nat.mod_eq_of_lt ‹_›
  · rw [Nat.mod_eq_sub_mod (by omega), Nat.mod_eq_of_lt (by omega)]

theorem slot_injective {e j k : Nat} (he : e < N) (hj : j < N) (hk : k < N)
    (h : (e + j) % N = (e + k) % N) : j = k := by
  rw [mod_of_lt_two_mul (by omega), mod_of_lt_two_mul (by omega)] at h
  split at h <;> split at h <;> omega

variable {buf : Nat → α} {e i : Nat} {q : List α}

theorem holds_nil (he : e < N) : Holds N buf e e [] where
  extract_lt := he
  length_lt := by simp; omega
  insert_eq := (Nat.mod_eq_of_lt he).symm
  slots := fun k hk => absurd hk (Nat.not_lt_zero k)

theorem Holds.insert_lt (h : Holds N buf e i q) : i < N := by
  rw [h.insert_eq]
  exact Nat.mod_lt _ (by have := h.extract_lt; omega)

/-- Equal indices mean an empty ring. -/
theorem Holds.insert_eq_extract_iff (h : Holds N buf e i q) : i = e ↔ q = [] := by
  have he := h.extract_lt
  have hl := h.length_lt
  rw [h.insert_eq, mod_of_lt_two_mul (by omega), ← List.length_eq_zero_iff]
  split <;> omega

/-- The producer's test fails exactly when `N - 1` elements are held. -/
theorem Holds.succ_insert_eq_extract_iff (h : Holds N buf e i q) :
    (i + 1) % N = e ↔ q.length + 1 = N := by
  have he := h.extract_lt
  have hl := h.length_lt
  have hi := h.insert_lt
  have hq := h.insert_eq
  rw [mod_of_lt_two_mul (by omega)] at hq
  rw [mod_of_lt_two_mul (by omega)]
  split at hq <;> split <;> omega

/-- A store at the insert index leaves the held elements alone. -/
theorem Holds.store (h : Holds N buf e i q) (x : α) :
    Holds N (Function.update buf i x) e i q where
  extract_lt := h.extract_lt
  length_lt := h.length_lt
  insert_eq := h.insert_eq
  slots := by
    intro k hk
    have hne : (e + k) % N ≠ i := by
      intro heq
      rw [h.insert_eq] at heq
      have hl := h.length_lt
      have := slot_injective h.extract_lt (by omega) hl heq
      omega
    rw [Function.update_of_ne hne]
    exact h.slots k hk

theorem Holds.push (h : Holds N buf e i q) (x : α) (hroom : q.length + 1 < N) :
    Holds N (Function.update buf i x) e ((i + 1) % N) (q ++ [x]) where
  extract_lt := h.extract_lt
  length_lt := by simpa using hroom
  insert_eq := by
    rw [h.insert_eq, Nat.mod_add_mod, List.length_append, List.length_singleton, Nat.add_assoc]
  slots := by
    intro k hk
    by_cases ho : k < q.length
    · rw [(h.store x).slots k ho, List.getElem_append_left ho]
    · have heq : k = q.length := by simp at hk; omega
      subst heq
      rw [← h.insert_eq, Function.update_self, List.getElem_concat_length rfl]

theorem Holds.front {x : α} (h : Holds N buf e i (x :: q)) : buf e = x := by
  have hs := h.slots 0 (by simp)
  rw [Nat.add_zero, Nat.mod_eq_of_lt h.extract_lt] at hs
  exact hs

theorem Holds.pop {x : α} (h : Holds N buf e i (x :: q)) : Holds N buf ((e + 1) % N) i q where
  extract_lt := Nat.mod_lt _ (by have := h.extract_lt; omega)
  length_lt := by have := h.length_lt; simp at this; omega
  insert_eq := by
    rw [h.insert_eq, Nat.mod_add_mod, List.length_cons]
    congr 1
    omega
  slots := by
    intro k hk
    have hs := h.slots (k + 1) (by simpa using hk)
    rw [Nat.mod_add_mod, show e + 1 + k = e + (k + 1) by omega, hs, List.getElem_cons_succ]

/-- The list a ring holds is determined by its indices and slots. -/
theorem Holds.contents_eq (h : Holds N buf e i q) : contents N buf e i = q := by
  have he := h.extract_lt
  have hl := h.length_lt
  have hi := h.insert_lt
  have hn : (i + N - e) % N = q.length := by
    have hq := h.insert_eq
    rw [mod_of_lt_two_mul (by omega)] at hq
    rw [mod_of_lt_two_mul (by omega)]
    split at hq <;> split <;> omega
  apply List.ext_getElem
  · simp [contents, hn]
  · intro k _ hk
    simpa [contents] using h.slots k hk

end Plak1a.Lib.Ring
