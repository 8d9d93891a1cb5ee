import Mathlib.Algebra.GroupWithZero.Nat
import Mathlib.Data.Finset.Lattice.Fold
import Mathlib.Data.Finset.Max
import Mathlib.Order.Lattice.Nat
import Plak1a.Touchscreen.GetTs
import Plak1a.Touchscreen.Spread

/-!
# When a touch is detected

The readings of `GetADC` are multiples of 4 below 4096. The words of `GetTS` then stay far from
their limits and its two loops compute with natural numbers; what they get wrong is the
maximum, from which a reading far above the others can have been lost.
-/

namespace Plak1a.Touchscreen.Detection

open GetTs Spread

/-- A result of `GetADC` other than -1. -/
structure Reading where
  word : UInt32
  multiple : word.toNat % 4 = 0
  le : word.toNat ≤ 4092

/-- The normalised values of an axis in the order of the loop: direct readings, and what is
left of the full scale by reversed ones. -/
def normal (value : Nat → UInt32) (k : Nat) : Nat :=
  if k % 2 = 0 then (value k).toNat else 4096 - (value k).toNat

/-- The track whose words stand for these numbers. -/
def track (lo hi total : Nat) : Track := ⟨Int32.ofNat lo, Int32.ofNat hi, UInt32.ofNat total⟩

section
variable {a b c : Nat} (ha : a ≤ 4096) (hb : b ≤ 4096)
include ha

theorem ofNat_lt (hb : b ≤ 4096) : Int32.ofNat a < Int32.ofNat b ↔ a < b := by
  rw [Int32.lt_iff_toInt_lt, Int32.toInt_ofNat_of_lt (by omega), Int32.toInt_ofNat_of_lt (by omega)]
  omega

theorem ofNat_sub_lt (hb : b ≤ 4096) (hc : c ≤ 4096) :
    Int32.ofNat a - Int32.ofNat b < Int32.ofNat c ↔ a < b + c := by
  rw [Int32.lt_iff_toInt_lt, Int32.toInt_sub, Int32.toInt_ofNat_of_lt (by omega),
    Int32.toInt_ofNat_of_lt (by omega), Int32.toInt_ofNat_of_lt (by omega),
    Int.bmod_eq_of_le (by omega) (by omega)]
  omega

theorem lt_toUInt32 (w : UInt32) : w < (Int32.ofNat a).toUInt32 ↔ w.toNat < a := by
  rw [Int32.toUInt32_ofNat', UInt32.lt_iff_toNat_lt,
    UInt32.toNat_ofNat_of_lt' (Nat.lt_of_le_of_lt ha (by decide))]

theorem toUInt32_lt (w : UInt32) : (Int32.ofNat a).toUInt32 < w ↔ a < w.toNat := by
  rw [Int32.toUInt32_ofNat', UInt32.lt_iff_toNat_lt,
    UInt32.toNat_ofNat_of_lt' (Nat.lt_of_le_of_lt ha (by decide))]

end

theorem toInt32_eq (w : UInt32) : w.toInt32 = Int32.ofNat w.toNat := by
  rw [← UInt32.toInt32_ofNat', UInt32.ofNat_toNat]

section
variable {lo hi total : Nat}

theorem track_direct (hlo : lo ≤ 4096) (hhi : hi ≤ 4096) (w : UInt32) :
    (track lo hi total).direct w = track (min lo w.toNat) (max hi w.toNat) total := by
  have hmin := lt_toUInt32 hlo w
  have hmax := toUInt32_lt hhi w
  have hdirect : (track lo hi total).direct w =
      ⟨if w.toNat < lo then Int32.ofNat w.toNat else Int32.ofNat lo,
        if hi < w.toNat then Int32.ofNat w.toNat else Int32.ofNat hi, UInt32.ofNat total⟩ := by
    by_cases hl : w.toNat < lo <;>
      simp only [Track.direct, track, gt_iff_lt, hmin, hmax, hl, toInt32_eq, if_true, if_false] <;>
      split <;> rfl
  have hlow : (if w.toNat < lo then w.toNat else lo) = min lo w.toNat := by split <;> omega
  have hhigh : (if hi < w.toNat then w.toNat else hi) = max hi w.toNat := by split <;> omega
  rw [hdirect, track, ← apply_ite Int32.ofNat, ← apply_ite Int32.ofNat, hlow, hhigh]

theorem track_reversed {temp : Nat} (hlo : lo ≤ 4096) (htemp : temp ≤ 4096) :
    (track lo hi total).reversed (Int32.ofNat temp) =
      track (min lo temp) (if min lo temp < temp then temp else hi) total := by
  by_cases hl : temp < lo
  · rw [Nat.min_eq_right (Nat.le_of_lt hl), if_neg (Nat.lt_irrefl temp)]
    have hirrefl : ¬ Int32.ofNat temp < Int32.ofNat temp := fun h =>
      Nat.lt_irrefl temp ((ofNat_lt htemp htemp).mp h)
    simp only [Track.reversed, track, gt_iff_lt, ofNat_lt htemp hlo, hl, hirrefl, if_true, if_false]
  · rw [Nat.min_eq_left (Nat.le_of_not_lt hl)]
    simp only [Track.reversed, track, gt_iff_lt, ofNat_lt htemp hlo, hl, if_false,
      ofNat_lt hlo htemp]
    split <;> rfl

theorem full_sub {w : UInt32} (hw : w.toNat ≤ 4096) :
    tsMaxValue.toUInt32 - w = UInt32.ofNat (4096 - w.toNat) := by
  have hmax : tsMaxValue.toUInt32.toNat = 4096 := by decide
  apply UInt32.toNat_inj.mp
  rw [UInt32.toNat_sub_of_le _ _ (by rw [UInt32.le_iff_toNat_le, hmax]; exact hw), hmax,
    UInt32.toNat_ofNat_of_lt' (Nat.lt_of_le_of_lt (Nat.sub_le 4096 _) (by decide))]

/-- A round takes in the two readings with the numbers `i * 2` and `i * 2 + 1`. -/
theorem track_round (hlo : lo ≤ 4096) (hhi : hi ≤ 4096) {d r : UInt32}
    (hr : r.toNat ≤ 4096) :
    (track lo hi total).round d r =
      track (min (min lo d.toNat) (4096 - r.toNat))
        (if min (min lo d.toNat) (4096 - r.toNat) < 4096 - r.toNat then 4096 - r.toNat
          else max hi d.toNat)
        (total + d.toNat + (4096 - r.toNat)) := by
  have hsum : UInt32.ofNat total + d + UInt32.ofNat (4096 - r.toNat) =
      UInt32.ofNat (total + d.toNat + (4096 - r.toNat)) := by
    rw [UInt32.ofNat_add, UInt32.ofNat_add, UInt32.ofNat_toNat]
  have hround : (track lo hi total).round d r =
      ((track lo hi (total + d.toNat + (4096 - r.toNat))).direct d).reversed
        (Int32.ofNat (4096 - r.toNat)) := by
    rw [track, track, ← hsum, Track.round, full_sub hr, UInt32.toInt32_ofNat']
  rw [hround, track_direct hlo hhi,
    track_reversed (Nat.le_trans (Nat.min_le_left _ _) hlo) (Nat.sub_le 4096 _)]

end

/-- The sum of the first `n` values. -/
def total (v : Nat → Nat) (n : Nat) : Nat := ((List.range n).map v).sum

theorem total_succ (v : Nat → Nat) (n : Nat) : total v (n + 1) = total v n + v n := by
  rw [total, List.range_succ, List.map_append, List.sum_append]
  rfl

theorem highest_le {v : Nat → Nat} {c : Nat} (hv : ∀ k, v k ≤ c) (n : Nat) : highest v n ≤ c := by
  induction n with
  | zero => exact Nat.zero_le c
  | succ n ih =>
    rw [highest]
    split
    · exact Nat.max_le.mpr ⟨ih, hv n⟩
    · split
      · exact hv n
      · exact ih

theorem lowest_le (v : Nat → Nat) (n : Nat) : lowest v n ≤ 4095 :=
  (le_lowest_iff.mp (Nat.le_refl _)).1

theorem normal_le {value : Nat → UInt32} (hv : ∀ k, (value k).toNat ≤ 4092) (k : Nat) :
    normal value k ≤ 4096 := by
  rw [normal]
  have h := hv k
  split <;> omega

/-- The second loop computes the numbers of the readings. -/
theorem foldl_round {value : Nat → UInt32} (hv : ∀ k, (value k).toNat ≤ 4092) (n : Nat) :
    (List.range n).foldl (fun t i => t.round (value (i * 2)) (value (i * 2 + 1))) Track.start =
      track (lowest (normal value) (n * 2)) (highest (normal value) (n * 2))
        (total (normal value) (n * 2)) := by
  have hle := normal_le hv
  induction n with
  | zero => rfl
  | succ n ih =>
    have hdirect : normal value (n * 2) = (value (n * 2)).toNat := by
      rw [normal, if_pos (by omega)]
    have hreversed : normal value (n * 2 + 1) = 4096 - (value (n * 2 + 1)).toNat := by
      rw [normal, if_neg (by omega)]
    rw [List.range_succ, List.foldl_append, ih, List.foldl_cons, List.foldl_nil,
      track_round (Nat.le_succ_of_le (lowest_le _ _)) (highest_le hle _)
        (Nat.le_trans (hv _) (by decide)),
      show (n + 1) * 2 = n * 2 + 1 + 1 from by omega]
    rw [highest_reversed (by omega), highest_direct (by omega), lowest, lowest, total_succ,
      total_succ, hdirect, hreversed]

theorem total_le {v : Nat → Nat} {c : Nat} (hv : ∀ k, v k ≤ c) (n : Nat) : total v n ≤ n * c := by
  induction n with
  | zero => exact Nat.zero_le _
  | succ n ih =>
    rw [total_succ, Nat.succ_mul]
    exact Nat.add_le_add ih (hv n)

theorem range_nonempty : (Finset.range 20).Nonempty := ⟨0, by decide⟩

/-- The maximum of the 20 values minus their minimum. -/
def spread (v : Nat → Nat) : Nat :=
  (Finset.range 20).sup' range_nonempty v - (Finset.range 20).inf' range_nonempty v

theorem spread_lt_iff {v : Nat → Nat} {c : Nat} (hc : 0 < c) :
    spread v < c ↔ ∀ j < 20, ∀ k < 20, v k < v j + c := by
  rw [spread]
  constructor
  · intro h j hj k hk
    have hsup := Finset.le_sup' v (Finset.mem_range.mpr hk)
    have hinf := Finset.inf'_le v (Finset.mem_range.mpr hj)
    omega
  · intro h
    obtain ⟨k, hk, hsup⟩ := Finset.exists_mem_eq_sup' range_nonempty v
    obtain ⟨j, hj, hinf⟩ := Finset.exists_mem_eq_inf' range_nonempty v
    have hlt := h j (Finset.mem_range.mp hj) k (Finset.mem_range.mp hk)
    omega

/-- The values of an axis while the screen is touched: low on average and close together. -/
structure Touched (v : Nat → Nat) : Prop where
  average : total v 20 < 910 * 20
  spread : spread v < 100

def xs (readings : Nat → Reading) : Nat → Nat := normal fun k => (readings (2 * k)).word
def ys (readings : Nat → Reading) : Nat → Nat := normal fun k => (readings (2 * k + 1)).word

/-- `pvalue` of a call with these readings. -/
def pvalue (readings : Nat → Reading) : UInt32 := (getTs fun k => (readings k).word).pvalue

/-- The claim: `pvalue` is 1024 while both axes are touched and 0 otherwise. -/
def Detects (readings : Nat → Reading) : Prop :=
  let touched := Touched (xs readings) ∧ Touched (ys readings)
  touched ∧ pvalue readings = 1024 ∨ ¬ touched ∧ pvalue readings = 0

/-- What the code computes of an axis at the end of the loop. -/
structure Passes (v : Nat → Nat) : Prop where
  average : total v 20 < 910 * 20
  delta : highest v 20 < lowest v 20 + 100

theorem tracked_eq {value : Nat → UInt32} (hv : ∀ k, (value k).toNat ≤ 4092) :
    tracked value = track (lowest (normal value) 20) (highest (normal value) 20)
      (total (normal value) 20) := foldl_round hv 10

theorem passes_iff (value : Nat → UInt32) (hv : ∀ k, (value k).toNat ≤ 4092) :
    (tracked value).sum / UInt32.ofNat (tsNumSamples * 2) < 910 ∧
      (tracked value).max - (tracked value).min < 100 ↔ Passes (normal value) := by
  have hle := normal_le hv
  have htotal := total_le hle 20
  have hsum : (UInt32.ofNat (total (normal value) 20)).toNat = total (normal value) 20 :=
    UInt32.toNat_ofNat_of_lt' (Nat.lt_of_le_of_lt htotal (by decide))
  have haverage : UInt32.ofNat (total (normal value) 20) / UInt32.ofNat (tsNumSamples * 2) < 910 ↔
      total (normal value) 20 < 910 * 20 := by
    rw [UInt32.lt_iff_toNat_lt, UInt32.toNat_div, hsum]
    show total (normal value) 20 / 20 < 910 ↔ _
    omega
  have hdelta := ofNat_sub_lt (c := 100) (highest_le hle 20)
    (Nat.le_succ_of_le (lowest_le (normal value) 20)) (by decide)
  rw [tracked_eq hv, track, haverage]
  constructor
  · intro ⟨ha, hd⟩
    exact ⟨ha, hdelta.mp hd⟩
  · intro ⟨ha, hd⟩
    exact ⟨ha, hdelta.mpr hd⟩

theorem pvalue_cases (readings : Nat → Reading) :
    let passes := Passes (xs readings) ∧ Passes (ys readings)
    passes ∧ pvalue readings = 1024 ∨ ¬ passes ∧ pvalue readings = 0 := by
  intro passes
  have hx := passes_iff (fun k => (readings (2 * k)).word) fun k => (readings _).le
  have hy := passes_iff (fun k => (readings (2 * k + 1)).word) fun k => (readings _).le
  by_cases hp : passes
  · obtain ⟨hxsum, hxdelta⟩ := hx.mpr hp.1
    obtain ⟨hysum, hydelta⟩ := hy.mpr hp.2
    exact .inl ⟨hp, if_pos ⟨hxsum, hysum, hxdelta, hydelta⟩⟩
  · refine .inr ⟨hp, if_neg ?_⟩
    intro ⟨hxsum, hysum, hxdelta, hydelta⟩
    exact hp ⟨hx.mp ⟨hxsum, hxdelta⟩, hy.mp ⟨hysum, hydelta⟩⟩

/-- The axis passes unless the loop sees a spread that is too large. -/
theorem passes_iff_not_seen {v : Nat → Nat} (h0 : v 0 ≤ 4095) :
    Passes v ↔ total v 20 < 910 * 20 ∧ ¬ Seen v 20 100 := by
  rw [← seen_iff h0 (n := 19) (by decide), Nat.not_le]
  exact ⟨fun h => ⟨h.average, h.delta⟩, fun h => ⟨h.1, h.2⟩⟩

/-- What the loop sees is there. -/
theorem not_seen_of_spread {v : Nat → Nat} (h : spread v < 100) : ¬ Seen v 20 100 := by
  intro ⟨j, hj, k, hk, hle, _⟩
  have hlt := (spread_lt_iff (by decide)).mp h j hj k hk
  omega

/-- A touch passes. -/
theorem passes_of_touched {v : Nat → Nat} (h0 : v 0 ≤ 4095) (h : Touched v) : Passes v :=
  (passes_iff_not_seen h0).mpr ⟨h.average, not_seen_of_spread h.spread⟩

theorem detects_iff (readings : Nat → Reading) :
    Detects readings ↔
      910 * 20 ≤ total (xs readings) 20 ∨ 910 * 20 ≤ total (ys readings) 20 ∨
        spread (xs readings) < 100 ∧ spread (ys readings) < 100 ∨
        Seen (xs readings) 20 100 ∨ Seen (ys readings) 20 100 := by
  have hx0 : xs readings 0 ≤ 4095 := Nat.le_trans (readings 0).le (by decide)
  have hy0 : ys readings 0 ≤ 4095 := Nat.le_trans (readings 1).le (by decide)
  have hx := passes_iff_not_seen hx0
  have hy := passes_iff_not_seen hy0
  rw [Detects]
  obtain ⟨⟨hpx, hpy⟩, hvalue⟩ | ⟨hp, hvalue⟩ := pvalue_cases readings
  · -- 1024 is right if the spreads are small
    obtain ⟨hxsum, hxseen⟩ := hx.mp hpx
    obtain ⟨hysum, hyseen⟩ := hy.mp hpy
    constructor
    · intro h
      obtain ⟨⟨htx, hty⟩, -⟩ | ⟨-, hzero⟩ := h
      · exact .inr (.inr (.inl ⟨htx.spread, hty.spread⟩))
      · rw [hvalue] at hzero
        exact absurd hzero (by decide)
    · intro h
      obtain hsum | hsum | ⟨hsx, hsy⟩ | hseen | hseen := h
      · exact absurd hxsum (Nat.not_lt.mpr hsum)
      · exact absurd hysum (Nat.not_lt.mpr hsum)
      · exact .inl ⟨⟨⟨hxsum, hsx⟩, ⟨hysum, hsy⟩⟩, hvalue⟩
      · exact absurd hseen hxseen
      · exact absurd hseen hyseen
  · -- 0 is right: a touch would have passed
    have hnot : ¬ (Touched (xs readings) ∧ Touched (ys readings)) := fun h =>
      hp ⟨passes_of_touched hx0 h.1, passes_of_touched hy0 h.2⟩
    refine iff_of_true (.inr ⟨hnot, hvalue⟩) ?_
    by_contra hnone
    simp only [not_or, Nat.not_le] at hnone
    obtain ⟨hxsum, hysum, -, hxseen, hyseen⟩ := hnone
    exact hp ⟨hx.mpr ⟨hxsum, hxseen⟩, hy.mpr ⟨hysum, hyseen⟩⟩

/-- The x readings of one round are 400 and, reversed, 4088, and all other ones are 4 and 4092.
The direct value 400 is taken for the maximum and replaced by the 8 behind it. -/
def lostPeak (k : Nat) : Reading :=
  if k = 4 then ⟨400, by decide, by decide⟩
  else if k = 6 then ⟨4088, by decide, by decide⟩
  else if k % 4 < 2 then ⟨4, by decide, by decide⟩
  else ⟨4092, by decide, by decide⟩

theorem lostPeak_not_detected : pvalue lostPeak = 1024 ∧ ¬ Detects lostPeak := by
  have hvalue : pvalue lostPeak = 1024 := by decide +kernel
  refine ⟨hvalue, fun h => ?_⟩
  obtain ⟨⟨hx, -⟩, -⟩ | ⟨-, hzero⟩ := h
  · have hlt := (spread_lt_iff (by decide)).mp hx.spread 0 (by decide) 2 (by decide)
    exact absurd hlt (by decide +kernel)
  · rw [hvalue] at hzero
    exact absurd hzero (by decide)

end Plak1a.Touchscreen.Detection
