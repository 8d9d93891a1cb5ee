import Mathlib.Order.Basic
import Mathlib.Order.Defs.LinearOrder

/-!
# What the second loop keeps of the readings

The readings of one axis are numbered in the order of the loop, so that those with an odd
number are the reversed ones. The minimum is the least reading. A reversed reading above an
earlier one replaces the maximum, whatever that was, so that only part of the readings counts.
-/

namespace Plak1a.Touchscreen.Spread

/-- The minimum behind the first `n` readings. -/
def lowest (v : Nat → Nat) : Nat → Nat
  | 0 => 4095
  | n + 1 => min (lowest v n) (v n)

/-- The maximum as the loop has it behind the first `n` readings. -/
def highest (v : Nat → Nat) : Nat → Nat
  | 0 => 0
  | n + 1 =>
    if n % 2 = 0 then max (highest v n) (v n)
    else if lowest v (n + 1) < v n then v n
    else highest v n

/-- A reading of at least `c` that no reversed reading above an earlier one follows. -/
def Lasts (v : Nat → Nat) (n c : Nat) : Prop :=
  ∃ k < n, c ≤ v k ∧ ∀ m < n, k < m → m % 2 = 1 → ∀ j < m, v m ≤ v j

variable {v : Nat → Nat}

theorem highest_direct {n : Nat} (hn : n % 2 = 0) :
    highest v (n + 1) = max (highest v n) (v n) := if_pos hn

theorem highest_reversed {n : Nat} (hn : n % 2 = 1) :
    highest v (n + 1) = if lowest v (n + 1) < v n then v n else highest v n :=
  if_neg (by omega)

theorem le_lowest_iff {n c : Nat} : c ≤ lowest v n ↔ c ≤ 4095 ∧ ∀ k < n, c ≤ v k := by
  induction n with
  | zero => simp [lowest]
  | succ n ih => rw [lowest, Nat.le_min, ih, Nat.forall_lt_succ_right, and_assoc]

/-- Behind the first reading the minimum is a reading. -/
theorem lowest_lt_iff (h0 : v 0 ≤ 4095) {n c : Nat} :
    lowest v (n + 1) < c ↔ ∃ k < n + 1, v k < c := by
  rw [← Nat.not_le, le_lowest_iff]
  constructor
  · intro h
    by_contra hnone
    refine h ⟨?_, fun k hk => ?_⟩
    · have hfirst : ¬ v 0 < c := fun hlt => hnone ⟨0, Nat.succ_pos n, hlt⟩
      omega
    · exact Nat.le_of_not_lt fun hlt => hnone ⟨k, hk, hlt⟩
  · intro ⟨k, hk, hlt⟩ ⟨_, hall⟩
    have hle := hall k hk
    omega

/-- The maximum is no less than some reading. -/
theorem exists_le_highest (n : Nat) : ∃ k < n + 1, v k ≤ highest v (n + 1) := by
  induction n with
  | zero =>
    refine ⟨0, Nat.succ_pos 0, ?_⟩
    rw [highest, if_pos rfl]
    exact Nat.le_max_right _ _
  | succ n ih =>
    obtain ⟨k, hk, hle⟩ := ih
    rw [highest]
    split
    · exact ⟨n + 1, Nat.lt_succ_self _, Nat.le_max_right _ _⟩
    · split
      · exact ⟨n + 1, Nat.lt_succ_self _, Nat.le_refl _⟩
      · exact ⟨k, by omega, hle⟩

/-- A reversed reading above an earlier one is the only one that lasts. -/
theorem lasts_succ_of_above {n c : Nat} (hn : n % 2 = 1) (habove : ∃ j < n, v j < v n) :
    Lasts v (n + 1) c ↔ c ≤ v n := by
  obtain ⟨j, hj, hlt⟩ := habove
  constructor
  · intro ⟨k, hk, hc, hlater⟩
    obtain rfl | hkn := Nat.eq_or_lt_of_le (Nat.le_of_lt_succ hk)
    · exact hc
    · have hle := hlater n (Nat.lt_succ_self n) hkn hn j hj
      omega
  · intro hc
    exact ⟨n, Nat.lt_succ_self n, hc, fun m hm hkm => absurd hkm (by omega)⟩

/-- After any other reading those that lasted still do. -/
theorem lasts_succ_of_below {n c : Nat} (hbelow : n % 2 = 1 → ∀ j < n, v n ≤ v j) :
    Lasts v (n + 1) c ↔ Lasts v n c ∨ c ≤ v n := by
  constructor
  · intro ⟨k, hk, hc, hlater⟩
    obtain rfl | hkn := Nat.eq_or_lt_of_le (Nat.le_of_lt_succ hk)
    · exact .inr hc
    · exact .inl ⟨k, hkn, hc, fun m hm => hlater m (Nat.lt_succ_of_lt hm)⟩
  · intro h
    obtain ⟨k, hk, hc, hlater⟩ | hc := h
    · refine ⟨k, Nat.lt_succ_of_lt hk, hc, fun m hm hkm hodd => ?_⟩
      obtain rfl | hmn := Nat.eq_or_lt_of_le (Nat.le_of_lt_succ hm)
      · exact hbelow hodd
      · exact hlater m hmn hkm hodd
    · exact ⟨n, Nat.lt_succ_self n, hc, fun m hm hkm => absurd hkm (by omega)⟩

/-- What the maximum says: some reading lasts. -/
theorem le_highest_iff (h0 : v 0 ≤ 4095) {n c : Nat} (hc : 0 < c) :
    c ≤ highest v n ↔ Lasts v n c := by
  induction n with
  | zero => exact iff_of_false (Nat.not_le_of_lt hc) fun ⟨k, hk, _⟩ => absurd hk (Nat.not_lt_zero k)
  | succ n ih =>
    rw [highest]
    split
    next heven =>
      rw [lasts_succ_of_below fun hodd => absurd hodd (by omega), ← ih]
      omega
    next hodd =>
      have hn : n % 2 = 1 := by omega
      obtain ⟨p, rfl⟩ : ∃ p, n = p + 1 := ⟨n - 1, by omega⟩
      split
      next habove =>
        obtain ⟨j, hj, hlt⟩ := (lowest_lt_iff h0).mp habove
        have hne : j ≠ p + 1 := by
          intro he
          rw [he] at hlt
          omega
        rw [lasts_succ_of_above hn ⟨j, by omega, hlt⟩]
      next hbelow =>
        have hle : ∀ j < p + 1, v (p + 1) ≤ v j := by
          intro j hj
          refine Nat.le_of_not_lt fun hlt => hbelow ((lowest_lt_iff h0).mpr ⟨j, by omega, hlt⟩)
        rw [lasts_succ_of_below fun _ => hle, ← ih]
        -- the maximum is no less than a reading, and this one is no more than any
        obtain ⟨k, hk, hkept⟩ := exists_le_highest (v := v) p
        have hlast := hle k hk
        omega

theorem Lasts.mono {n c d : Nat} (h : Lasts v n d) (hcd : c ≤ d) : Lasts v n c := by
  obtain ⟨k, hk, hd, hlater⟩ := h
  exact ⟨k, hk, Nat.le_trans hcd hd, hlater⟩

/-- A difference of `c` that the loop sees: a reading so far above another one lasts. -/
def Seen (v : Nat → Nat) (n c : Nat) : Prop := ∃ j < n, Lasts v n (v j + c)

theorem seen_iff (h0 : v 0 ≤ 4095) {n c : Nat} (hc : 0 < c) :
    lowest v (n + 1) + c ≤ highest v (n + 1) ↔ Seen v (n + 1) c := by
  rw [le_highest_iff h0 (Nat.add_pos_right _ hc)]
  constructor
  · intro h
    obtain ⟨j, hj, hlt⟩ := (lowest_lt_iff h0 (n := n)).mp (Nat.lt_succ_self _)
    exact ⟨j, hj, h.mono (by omega)⟩
  · intro ⟨j, hj, h⟩
    have hle : lowest v (n + 1) ≤ v j := (le_lowest_iff.mp (Nat.le_refl _)).2 j hj
    exact h.mono (by omega)

end Plak1a.Touchscreen.Spread
