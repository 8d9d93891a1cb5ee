import Plak1a.Barcode.Reader

/-!
# How many elements `hand_barcode` can take

`code` has 60 places, and the first holds the first bar. The loop stores the width of an
element and compares the index afterwards, with 60 instead of the last index, so that
it needs a pause after the 59th further element at the latest. The count it returns is
never above 60.
-/

namespace Plak1a.Barcode.Overrun

open Plak1a.Barcode.Timer Plak1a.Barcode.Reader

/-- The elapsed times of the elements up to the first one over 5000 ticks or the end of the
stream, from the restart of the timer on, for at most `fuel` elements. -/
def elementTimes : Nat → UInt32 → Option UInt32 → Counter → List Bool → List UInt16 → List UInt32
  | 0, _, _, _, _, _ => []
  | _ + 1, _, _, _, [], _ => []
  | fuel + 1, timer, actualtime, c, aux :: levels, ticks =>
    match poll (fun e => 5000 < e) aux timer actualtime c levels ticks with
    | .edge (some t) c levels ticks => t :: elementTimes fuel (timer + t) (some t) c levels ticks
    | _ => []

/-- The elapsed time of the first bar and those of the elements behind it. -/
def streamTimes (c : Counter) (levels : List Bool) (ticks : List UInt16) :
    Option (UInt32 × List UInt32) :=
  match levels with
  | [] => none
  | aux :: levels =>
    match skip aux levels, ticks with
    | some (aux :: levels), t :: ticks =>
      let c := counterRead t c
      let timer := c.counter
      match poll (fun _ => false) aux timer none c levels ticks with
      | .edge (some bittime) c levels ticks =>
        some (bittime, elementTimes levels.length (timer + bittime) none c levels ticks)
      | _ => none
    | _, _ => none

/-- The number of elements with a width: all of them, unless the time of a module comes out
as 0 and the division fails. -/
def measured : UInt32 → List UInt32 → Nat
  | _, [] => 0
  | bittime, t :: ts =>
    if bittime = 0 then 0
    else
      let n := (t + bittime / 2) / bittime
      if n + 1 = 0 then 0 else measured ((t + bittime) / (n + 1)) ts + 1

/-- At most 59 elements follow the first bar. -/
def ShortEnough (c : Counter) (levels : List Bool) (ticks : List UInt16) : Prop :=
  ∀ bittime ts, streamTimes c levels ticks = some (bittime, ts) → measured bittime ts ≤ 59

/-- No store past the end of `code`, and no count above 60. -/
def StaysInside : Outcome → Prop
  | .outOfBounds => False
  | .returned n _ => n ≤ 60
  | _ => True

variable {s : State} {t : UInt32} {k : State → Outcome}

/-- One element behind the others: if it is measured and there is no place for it, it is stored
out of bounds. -/
theorem recordWidth_inside (ts : List UInt32) (hi : s.iCode ≤ 60)
    (hk : ∀ s', s'.iCode = s.iCode + 1 → s'.iCode ≤ 60 → s'.timer = s.timer + t →
      s'.actualtime = some t → s'.counter = s.counter →
      (StaysInside (k s') ↔ s'.iCode + measured s'.bittime ts ≤ 60)) :
    StaysInside (recordWidth s t k) ↔ s.iCode + measured s.bittime (t :: ts) ≤ 60 := by
  rw [recordWidth, measured]
  dsimp only
  by_cases hb : s.bittime = 0
  · rw [if_pos hb, if_pos hb]
    exact iff_of_true trivial hi
  rw [if_neg hb, if_neg hb]
  by_cases hn : (t + s.bittime / 2) / s.bittime + 1 = 0
  · rw [if_pos hn, if_pos hn]
    exact iff_of_true trivial hi
  rw [if_neg hn, if_neg hn]
  by_cases hfull : 60 ≤ s.iCode
  · rw [if_pos hfull]
    exact iff_of_false id (by omega)
  · rw [if_neg hfull, if_neg (by omega)]
    refine (hk _ ?_ ?_ ?_ ?_ ?_).trans ?_
    · rfl
    · exact Nat.succ_le_of_lt (Nat.lt_of_not_le hfull)
    · rfl
    · rfl
    · rfl
    · show s.iCode + 1 + measured _ ts ≤ 60 ↔ _
      rw [Nat.add_right_comm, Nat.add_assoc]

theorem elements_waiting {aux : Bool} {levels : List Bool} {ticks : List UInt16}
    (h : poll (fun e => 5000 < e) aux s.timer s.actualtime s.counter levels ticks = .waiting) :
    elements s (aux :: levels) ticks = .waiting := by
  rw [elements]
  split
  · rfl
  all_goals
    rename_i h'
    rw [h] at h'
    cases h'

theorem elements_uninitialised {aux : Bool} {levels levels' : List Bool}
    {ticks ticks' : List UInt16} {c : Counter}
    (h : poll (fun e => 5000 < e) aux s.timer s.actualtime s.counter levels ticks =
      .edge none c levels' ticks') :
    elements s (aux :: levels) ticks = .uninitialised := by
  rw [elements]
  split
  all_goals
    rename_i h'
    rw [h] at h'
    cases h'
  rfl

theorem elements_inside (fuel : Nat) : ∀ {s : State} {levels : List Bool} {ticks : List UInt16},
    levels.length ≤ fuel → s.iCode ≤ 60 →
    (StaysInside (elements s levels ticks) ↔
      s.iCode + measured s.bittime
        (elementTimes fuel s.timer s.actualtime s.counter levels ticks) ≤ 60) := by
  induction fuel with
  | zero =>
    intro s levels ticks hlen hi
    rw [List.length_eq_zero_iff.mp (Nat.le_zero.mp hlen), elements]
    exact iff_of_true trivial hi
  | succ fuel ih =>
    intro s levels ticks hlen hi
    cases levels with
    | nil =>
      rw [elements]
      exact iff_of_true trivial hi
    | cons aux levels =>
      rw [elementTimes]
      cases hp : poll (fun e => 5000 < e) aux s.timer s.actualtime s.counter levels ticks with
      | waiting =>
        rw [elements_waiting hp]
        exact iff_of_true trivial hi
      | quit c =>
        rw [elements_quit hp]
        exact iff_of_true (Int.ofNat_le.mpr hi) hi
      | edge e c levels' ticks' =>
        cases e with
        | none =>
          rw [elements_uninitialised hp]
          exact iff_of_true trivial hi
        | some t =>
          have hlt := poll_length hp
          rw [List.length_cons] at hlen
          rw [elements_edge hp]
          apply recordWidth_inside (s := { s with counter := c }) _ hi
          intro s' hs hi' htimer hactual hcounter
          rw [ih (by omega) hi', htimer, hactual, hcounter]

/-- What becomes of a call, by the times of the stream if it has a first bar. -/
theorem handBarcode_times (c : Counter) (code : Nat → UInt8) (levels : List Bool)
    (ticks : List UInt16) : StaysInside (handBarcode c code levels ticks) ↔
      (streamTimes c levels ticks).elim True fun p => measured p.1 p.2 ≤ 59 := by
  cases levels with
  | nil => exact iff_of_true trivial trivial
  | cons aux levels =>
    cases hs : skip aux levels with
    | none =>
      simp only [handBarcode, streamTimes, hs]
      exact iff_of_true trivial trivial
    | some rest =>
      cases rest with
      | nil =>
        simp only [handBarcode, streamTimes, hs]
        exact iff_of_true trivial trivial
      | cons b rest =>
        cases ticks with
        | nil =>
          simp only [handBarcode, streamTimes, hs]
          exact iff_of_true trivial trivial
        | cons t ticks =>
          cases hp : poll (fun _ => false) b (counterRead t c).counter none (counterRead t c)
              rest ticks with
          | waiting =>
            simp only [handBarcode, streamTimes, hs, hp]
            exact iff_of_true trivial trivial
          | quit c' =>
            simp only [handBarcode, streamTimes, hs, hp]
            exact iff_of_true trivial trivial
          | edge e c' levels' ticks' =>
            cases e with
            | none =>
              simp only [handBarcode, streamTimes, hs, hp]
              exact iff_of_true trivial trivial
            | some bittime =>
              simp only [handBarcode, streamTimes, hs, hp, Option.elim_some]
              rw [elements_inside levels'.length (Nat.le_refl _) (by dsimp only; omega)]
              dsimp only
              omega

/-- `hand_barcode` stays inside `code` exactly if at most 59 elements follow the first bar. -/
theorem handBarcode_inside (c : Counter) (code : Nat → UInt8) (levels : List Bool)
    (ticks : List UInt16) :
    StaysInside (handBarcode c code levels ticks) ↔ ShortEnough c levels ticks := by
  rw [handBarcode_times, ShortEnough]
  cases streamTimes c levels ticks with
  | none => exact iff_of_true trivial fun _ _ h => nomatch h
  | some p =>
    constructor
    · rintro h _ _ ⟨⟩
      exact h
    · exact fun h => h p.1 p.2 rfl

/-- Bars and spaces with one poll in each, in pairs. -/
def noise : Nat → List Bool
  | 0 => []
  | n + 1 => [true, true, false, false, false, true] ++ noise n

/-- Sixty-one elements of 10 ticks behind the first bar: the sixtieth is stored behind `code`. -/
theorem sixty_elements_outside :
    ¬ ∀ (c : Counter) (code : Nat → UInt8) (levels : List Bool) (ticks : List UInt16),
      StaysInside (handBarcode c code levels ticks) := by
  intro h
  have hcount : ((streamTimes ⟨0, 0, 0⟩ ([false, true] ++ noise 31)
      ((List.range 70).map fun i => UInt16.ofNat (10 * i))).map
        fun p => decide (measured p.1 p.2 ≤ 59)) = some false := by
    decide +kernel
  obtain ⟨p, hp, hlong⟩ := Option.map_eq_some_iff.mp hcount
  have hinside := (handBarcode_times ..).mp (h ⟨0, 0, 0⟩ (fun _ => 0) ([false, true] ++ noise 31)
    ((List.range 70).map fun i => UInt16.ofNat (10 * i)))
  rw [hp] at hinside
  exact of_decide_eq_false hlong hinside

end Plak1a.Barcode.Overrun
