import Mathlib.Data.UInt
import Mathlib.Logic.Relation
import Plak1a.Barcode.Overrun

/-!
# The divisions of `hand_barcode`

The elapsed time of the first bar is the first divisor. It is not assigned if no poll
sees the bar, and 0 if no tick passes while it is polled. A re-estimate of the time of a
module is 0 for one reason alone: the bar was so long that the sum of its time and those
of the elements behind it comes to 2^32.
-/

namespace Plak1a.Barcode.Division

open Timer Reader Overrun

/-- `bittime = (actualtime + bittime) / (n + 1)` with `n` from the line before it. -/
def reestimate (actualtime bittime : UInt32) : UInt32 :=
  (actualtime + bittime) / ((actualtime + bittime / 2) / bittime + 1)

/-- The loop about to read `aux`, with the input that is left. -/
structure Head where
  state : State
  levels : List Bool
  ticks : List UInt16

/-- The loop is entered, or the outcome before it. -/
def entry (c : Counter) (code : Nat → UInt8) (levels : List Bool) (ticks : List UInt16) :
    Except Outcome Head :=
  match levels with
  | [] => .error .waiting
  | aux :: levels =>
    match skip aux levels, ticks with
    | some (aux :: levels), t :: ticks =>
      let c := counterRead t c
      let timer := c.counter
      match poll (fun _ => false) aux timer none c levels ticks with
      | .edge (some bittime) c levels ticks =>
        .ok ⟨{ counter := c, timer := timer + bittime, bittime, actualtime := none,
               code := Function.update code 0 1, iCode := 1, bittimes := [bittime] },
          levels, ticks⟩
      | .edge none _ _ _ => .error .uninitialised
      | _ => .error .waiting
    | _, _ => .error .waiting

/-- An element with the elapsed time `t` is about to be stored. -/
def Head.Measures (h : Head) (t : UInt32) (c : Counter) (levels : List Bool)
    (ticks : List UInt16) : Prop :=
  ∃ aux rest, h.levels = aux :: rest ∧
    poll (fun e => 5000 < e) aux h.state.timer h.state.actualtime h.state.counter rest h.ticks =
      .edge (some t) c levels ticks

/-- An element is measured at the head. -/
def Head.Busy (h : Head) : Prop := ∃ t c levels ticks, h.Measures t c levels ticks

/-- The element is stored and the loop goes on. -/
def Stores (h h' : Head) : Prop :=
  ∃ t c, h.Measures t c h'.levels h'.ticks ∧
    ∀ k, recordWidth { h.state with counter := c } t k = k h'.state

/-- `bittime` is at least 1 as the divisor and after the re-estimation. -/
def Positive (h : Head) : Prop :=
  ∀ t c levels ticks, h.Measures t c levels ticks →
    1 ≤ h.state.bittime ∧ 1 ≤ reestimate t h.state.bittime

/-- No variable was read before it was assigned, and no divisor was 0. -/
def Sound : Outcome → Prop
  | .uninitialised => False
  | .divZero => False
  | _ => True

/-- The claim about a call: it is sound, and `bittime` stays positive in every round. -/
structure Safe (c : Counter) (code : Nat → UInt8) (levels : List Bool) (ticks : List UInt16) :
    Prop where
  sound : Sound (handBarcode c code levels ticks)
  positive : ∀ h, entry c code levels ticks = .ok h →
    ∀ h', Relation.ReflTransGen Stores h h' → Positive h'

theorem handBarcode_eq (c : Counter) (code : Nat → UInt8) (levels : List Bool)
    (ticks : List UInt16) : handBarcode c code levels ticks =
      match entry c code levels ticks with
      | .ok h => elements h.state h.levels h.ticks
      | .error o => o := by
  cases levels with
  | nil => rfl
  | cons aux levels =>
    cases hs : skip aux levels with
    | none => simp only [handBarcode, entry, hs]
    | some rest =>
      cases rest with
      | nil => simp only [handBarcode, entry, hs]
      | cons b rest =>
        cases ticks with
        | nil => simp only [handBarcode, entry, hs]
        | cons t ticks =>
          cases hp : poll (fun _ => false) b (counterRead t c).counter none (counterRead t c)
              rest ticks with
          | waiting => simp only [handBarcode, entry, hs, hp]
          | quit c' => simp only [handBarcode, entry, hs, hp]
          | edge e c' levels' ticks' => cases e <;> simp only [handBarcode, entry, hs, hp]

/-- The first poll of a bar or space still reads its level. -/
def Seen : List Bool → Prop
  | aux :: b :: _ => b = aux
  | _ => True

/-- The levels from the first edge on. -/
def atBar : List Bool → List Bool
  | [] => []
  | aux :: levels => (skip aux levels).getD []

/-- The levels from the first bar's end on. -/
def behindBar (levels : List Bool) : List Bool := atBar (atBar levels)

/-- The first bar and the space behind it are polled, and the time from the start of the bar
on is never 0 modulo 2^32 behind an element. -/
structure Measurable (c : Counter) (levels : List Bool) (ticks : List UInt16) : Prop where
  bar : ticks ≠ [] → Seen (atBar levels)
  space : ∀ bittime ts, streamTimes c levels ticks = some (bittime, ts) → Seen (behindBar levels)
  times : ∀ bittime ts, streamTimes c levels ticks = some (bittime, ts) → ts ≠ [] →
    ∀ j ≤ 60, bittime + (ts.take j).sum ≠ 0

theorem ne_zero_iff {b : UInt32} : b ≠ 0 ↔ 0 < b.toNat := by
  rw [Nat.pos_iff_ne_zero, ne_eq, ne_eq, ← UInt32.toNat_inj]
  rfl

theorem one_le_iff {b : UInt32} : 1 ≤ b ↔ b ≠ 0 := by
  rw [ne_zero_iff, UInt32.le_iff_toNat_le]
  rfl

section Reestimate

variable {t b total : UInt32} {j : Nat}

theorem toNat_width (hb : b ≠ 0) (ht : t ≤ 5000) :
    ((t + b / 2) / b + 1).toNat = (t.toNat + b.toNat / 2) / b.toNat + 1 := by
  have hpos := ne_zero_iff.mp hb
  have hlt := b.toNat_lt
  have hle : t.toNat ≤ 5000 := UInt32.le_iff_toNat_le.mp ht
  have hsum : (t + b / 2).toNat = t.toNat + b.toNat / 2 := by
    rw [UInt32.toNat_add, UInt32.toNat_div, show (2 : UInt32).toNat = 2 from rfl]
    omega
  have hquot : (t.toNat + b.toNat / 2) / b.toNat ≤ t.toNat + b.toNat / 2 := Nat.div_le_self _ _
  rw [UInt32.toNat_add, UInt32.toNat_div, hsum, show (1 : UInt32).toNat = 1 from rfl]
  exact Nat.mod_eq_of_lt (by omega)

/-- An element shorter than about half the time of a module adds its time; else the estimate
is small and stays positive. -/
theorem reestimate_cases (hb : b ≠ 0) (ht : t ≤ 5000) :
    reestimate t b = t + b ∨
      (0 < (reestimate t b).toNat ∧ (reestimate t b).toNat ≤ t.toNat + b.toNat ∧
        b.toNat ≤ 10001) := by
  have hpos := ne_zero_iff.mp hb
  have hlt := b.toNat_lt
  have hle : t.toNat ≤ 5000 := UInt32.le_iff_toNat_le.mp ht
  have hwidth := toNat_width hb ht
  by_cases hshort : t.toNat + b.toNat / 2 < b.toNat
  · left
    rw [Nat.div_eq_of_lt hshort] at hwidth
    have hone : (t + b / 2) / b + 1 = 1 := UInt32.toNat_inj.mp hwidth
    rw [reestimate, hone, UInt32.div_one]
  · right
    have hsum : (t + b).toNat = t.toNat + b.toNat := by
      rw [UInt32.toNat_add]
      omega
    have hmul : (t.toNat + b.toNat / 2) / b.toNat * b.toNat ≤ t.toNat + b.toNat / 2 :=
      Nat.div_mul_le_self _ _
    have hn : (t.toNat + b.toNat / 2) / b.toNat + 1 ≤ t.toNat + b.toNat := by
      by_cases hone : b.toNat = 1
      · rw [hone, Nat.div_one]
      · have htwo := Nat.mul_le_mul_left ((t.toNat + b.toNat / 2) / b.toNat)
          (show 2 ≤ b.toNat by omega)
        omega
    rw [reestimate, UInt32.toNat_div, hwidth, hsum]
    exact ⟨Nat.div_pos hn (Nat.succ_pos _), Nat.div_le_self _ _, by omega⟩

/-- The estimate is the total time so far, or both are small and positive. -/
def Tracks (j : Nat) (b total : UInt32) : Prop :=
  b = total ∨ (0 < b.toNat ∧ 0 < total.toNat ∧ b.toNat ≤ 10001 + 5000 * j ∧
    total.toNat ≤ 10001 + 5000 * j)

theorem Tracks.ne_zero_iff (h : Tracks j b total) : b ≠ 0 ↔ total ≠ 0 := by
  rcases h with rfl | ⟨hb, htotal, _⟩
  · exact Iff.rfl
  · exact iff_of_true (Division.ne_zero_iff.mpr hb) (Division.ne_zero_iff.mpr htotal)

theorem Tracks.next (h : Tracks j b total) (hb : b ≠ 0) (ht : t ≤ 5000) (hj : j < 60) :
    Tracks (j + 1) (reestimate t b) (total + t) := by
  have hlt := b.toNat_lt
  have hle : t.toNat ≤ 5000 := UInt32.le_iff_toNat_le.mp ht
  have hpos := Division.ne_zero_iff.mp hb
  rcases h with rfl | ⟨_, htotal, hbound, hbound'⟩
  · rcases reestimate_cases hb ht with heq | ⟨hnew, hnew', hsmall⟩
    · exact Or.inl (heq.trans (UInt32.add_comm t b))
    · have hsum : (b + t).toNat = b.toNat + t.toNat := by
        rw [UInt32.toNat_add]
        omega
      exact Or.inr ⟨hnew, by omega, by omega, by omega⟩
  · have hsum : (total + t).toNat = total.toNat + t.toNat := by
      rw [UInt32.toNat_add]
      omega
    have hnew : 0 < (reestimate t b).toNat ∧ (reestimate t b).toNat ≤ t.toNat + b.toNat := by
      rcases reestimate_cases hb ht with heq | ⟨hnew, hnew', _⟩
      · rw [heq, UInt32.toNat_add]
        omega
      · exact ⟨hnew, hnew'⟩
    exact Or.inr ⟨hnew.1, by omega, by omega, by omega⟩

end Reestimate

variable {quit : UInt32 → Bool} {aux : Bool} {timer t : UInt32} {c c' : Counter}
  {levels levels' : List Bool} {ticks ticks' : List UInt16}

theorem poll_some {e : Option UInt32}
    (h : poll quit aux timer e c levels ticks = .edge (some t) c' levels' ticks') :
    e = some t ∨ quit t = false := by
  induction levels generalizing e c ticks with
  | nil => cases h
  | cons b levels ih =>
    unfold poll at h
    split at h
    · split at h
      · cases h
      · dsimp only at h
        split at h
        · cases h
        · rename_i hquit
          rcases ih h with heq | hq
          · cases heq
            exact Or.inr (Bool.eq_false_iff.mpr hquit)
          · exact Or.inr hq
    · cases h
      exact Or.inl rfl

theorem poll_none {e : Option UInt32}
    (h : poll quit aux timer e c levels ticks = .edge none c' levels' ticks') :
    e = none ∧ ¬ Seen (aux :: levels) := by
  induction levels generalizing e c ticks with
  | nil => cases h
  | cons b levels ih =>
    unfold poll at h
    split at h
    · split at h
      · cases h
      · dsimp only at h
        split at h
        · cases h
        · cases (ih h).1
    · rename_i hne
      cases h
      exact ⟨rfl, hne⟩

/-- A level that no poll sees leaves the elapsed time unassigned. -/
theorem poll_seen (h : ∀ c' levels' ticks',
    poll quit aux timer none c levels ticks ≠ .edge none c' levels' ticks') :
    Seen (aux :: levels) := by
  cases levels with
  | nil => trivial
  | cons b levels =>
    by_contra hne
    exact h c levels ticks (if_neg hne)

/-- Where the loop is in a run: behind `j` elements, with the total time so far. -/
structure At (j : Nat) (total : UInt32) (h : Head) : Prop where
  code : h.state.iCode = j + 1
  room : j < 60
  tracks : Tracks j h.state.bittime total
  positive : h.state.bittime ≠ 0
  assigned : h.state.actualtime = none → Seen h.levels
  short : ∀ t, h.state.actualtime = some t → t ≤ 5000

/-- The claim about the rest of a call. -/
structure SafeFrom (h : Head) : Prop where
  sound : Sound (elements h.state h.levels h.ticks)
  positive : ∀ h', Relation.ReflTransGen Stores h h' → Positive h'

/-- The state with the element stored. -/
def stored (s : State) (t : UInt32) : State :=
  { s with
    timer := s.timer + t
    actualtime := some t
    bittime := reestimate t s.bittime
    bittimes := reestimate t s.bittime :: s.bittimes
    code := Function.update s.code s.iCode ((t + s.bittime / 2) / s.bittime).toUInt8
    iCode := s.iCode + 1 }

variable {s s' : State} {k : State → Outcome} {h h' h₁ : Head} {j : Nat} {total : UInt32}

theorem width_ne_zero {b : UInt32} (hb : b ≠ 0) (ht : t ≤ 5000) : (t + b / 2) / b + 1 ≠ 0 := by
  rw [ne_zero_iff, toNat_width hb ht]
  exact Nat.succ_pos _

theorem recordWidth_stored (hb : s.bittime ≠ 0) (ht : t ≤ 5000) (hi : s.iCode < 60) :
    recordWidth s t k = k (stored s t) := by
  rw [recordWidth]
  dsimp only
  rw [if_neg hb, if_neg (width_ne_zero hb ht), if_neg (Nat.not_le.mpr hi),
    if_neg (Nat.not_lt.mpr hi)]
  rfl

theorem recordWidth_full (hb : s.bittime ≠ 0) (ht : t ≤ 5000) (hi : s.iCode = 60) :
    recordWidth s t k = .outOfBounds := by
  rw [recordWidth]
  dsimp only
  rw [if_neg hb, if_neg (width_ne_zero hb ht), if_pos (Nat.le_of_eq hi.symm)]

/-- Nothing is measured any more. -/
theorem safeFrom_of_quiet (hq : ¬ h.Busy) (hs : Sound (elements h.state h.levels h.ticks)) :
    SafeFrom h := by
  refine ⟨hs, fun h' hreach => ?_⟩
  rcases hreach.cases_head with rfl | ⟨h₁, ⟨t, c, hm, _⟩, _⟩
  · exact fun t c levels ticks hm => absurd ⟨t, c, levels, ticks, hm⟩ hq
  · exact absurd ⟨t, c, _, _, hm⟩ hq

theorem safeFrom_next (hstore : Stores h h₁) (huniq : ∀ h', Stores h h' → h' = h₁)
    (he : elements h.state h.levels h.ticks = elements h₁.state h₁.levels h₁.ticks) :
    SafeFrom h ↔ Positive h ∧ SafeFrom h₁ := by
  constructor
  · intro hsafe
    exact ⟨hsafe.positive h .refl, he ▸ hsafe.sound,
      fun h' hreach => hsafe.positive h' (.head hstore hreach)⟩
  · intro ⟨hpos, hsafe⟩
    refine ⟨he ▸ hsafe.sound, fun h' hreach => ?_⟩
    rcases hreach.cases_head with rfl | ⟨h₂, hstore', hrest⟩
    · exact hpos
    · exact hsafe.positive h' (huniq h₂ hstore' ▸ hrest)

theorem Head.Measures.unique {t₁ : UInt32} (hm : h.Measures t c levels ticks)
    (hm₁ : h.Measures t₁ c' levels' ticks') :
    t = t₁ ∧ c = c' ∧ levels = levels' ∧ ticks = ticks' := by
  obtain ⟨aux, rest, hl, hp⟩ := hm
  obtain ⟨aux₁, rest₁, hl₁, hp₁⟩ := hm₁
  rw [hl] at hl₁
  cases hl₁
  rw [hp] at hp₁
  cases hp₁
  exact ⟨rfl, rfl, rfl, rfl⟩

theorem positive_iff (hat : At j total h) (hm : h.Measures t c levels ticks) (ht : t ≤ 5000) :
    Positive h ↔ total + t ≠ 0 := by
  have hnext := (hat.tracks.next hat.positive ht hat.room).ne_zero_iff
  constructor
  · intro hpos
    exact hnext.mp (one_le_iff.mp (hpos t c levels ticks hm).2)
  · intro hne t₁ c₁ levels₁ ticks₁ hm₁
    obtain ⟨rfl, _⟩ := hm.unique hm₁
    exact ⟨one_le_iff.mpr hat.positive, one_le_iff.mpr (hnext.mpr hne)⟩

/-- A measured element: the estimate behind it decides, and then the rest of the call, unless
there is no place for the element. -/
theorem safeFrom_measured (hat : At j total h) (hm : h.Measures t c levels ticks) (ht : t ≤ 5000) :
    SafeFrom h ↔ total + t ≠ 0 ∧
      (j + 1 < 60 → SafeFrom ⟨stored { h.state with counter := c } t, levels, ticks⟩) := by
  have hcode := hat.code
  have hroom := hat.room
  have hpositive := positive_iff hat hm ht
  have helements : elements h.state h.levels h.ticks =
      recordWidth { h.state with counter := c } t fun s => elements s levels ticks := by
    obtain ⟨aux, rest, hl, hp⟩ := hm
    rw [hl]
    exact elements_edge hp
  by_cases hi : j + 1 < 60
  · have hrecord : ∀ k, recordWidth { h.state with counter := c } t k =
        k (stored { h.state with counter := c } t) := fun k =>
      recordWidth_stored hat.positive ht (by rw [hcode]; exact hi)
    have hstore : Stores h ⟨stored { h.state with counter := c } t, levels, ticks⟩ :=
      ⟨t, c, hm, hrecord⟩
    rw [safeFrom_next hstore _ (helements.trans (hrecord _)), hpositive]
    · exact and_congr_right fun _ => ⟨fun hs _ => hs, fun hs => hs hi⟩
    · intro ⟨s', levels', ticks'⟩ ⟨t', c', hm', hrecord'⟩
      obtain ⟨rfl, rfl, rfl, rfl⟩ := hm.unique hm'
      have heq := (hrecord (.returned 0)).symm.trans (hrecord' (.returned 0))
      cases heq
      rfl
  · have hfull : ∀ k, recordWidth { h.state with counter := c } t k = .outOfBounds := fun k =>
      recordWidth_full hat.positive ht (by rw [hcode]; omega)
    rw [← hpositive]
    constructor
    · exact fun hs => ⟨hs.positive h .refl, fun hlt => absurd hlt hi⟩
    · intro ⟨hpos, _⟩
      refine ⟨?_, fun h' hreach => ?_⟩
      · rw [helements, hfull]
        trivial
      · rcases hreach.cases_head with rfl | ⟨h₁, ⟨t', c', hm', hrecord'⟩, _⟩
        · exact hpos
        · obtain ⟨rfl, rfl, rfl, rfl⟩ := hm.unique hm'
          have heq := (hfull fun _ => .waiting).symm.trans (hrecord' fun _ => .waiting)
          cases heq

/-- The place behind a stored element. -/
theorem At.next (hat : At j total h) (ht : t ≤ 5000) (hi : j + 1 < 60) (hne : total + t ≠ 0) :
    At (j + 1) (total + t) ⟨stored { h.state with counter := c } t, levels, ticks⟩ where
  code := congrArg (· + 1) hat.code
  room := hi
  tracks := hat.tracks.next hat.positive ht hat.room
  positive := ((hat.tracks.next hat.positive ht hat.room).ne_zero_iff).mpr hne
  assigned := fun hnone => nomatch hnone
  short := fun _ heq => Option.some.inj heq ▸ ht

theorem take_sum_iff {t : UInt32} {ts : List UInt32} {n : Nat} (htotal : total ≠ 0) :
    (∀ i ≤ n + 1, total + ((t :: ts).take i).sum ≠ 0) ↔
      ∀ i ≤ n, total + t + (ts.take i).sum ≠ 0 := by
  constructor
  · intro h i hi
    rw [UInt32.add_assoc, ← List.sum_cons, ← List.take_succ_cons]
    exact h (i + 1) (Nat.succ_le_succ hi)
  · intro h i hi
    cases i with
    | zero => rwa [List.take_zero, List.sum_nil, UInt32.add_zero]
    | succ i =>
      rw [List.take_succ_cons, List.sum_cons, ← UInt32.add_assoc]
      exact h i (Nat.le_of_succ_le_succ hi)

theorem times_quiet (hq : ¬ h.Busy) (fuel : Nat) :
    elementTimes fuel h.state.timer h.state.actualtime h.state.counter h.levels h.ticks = [] := by
  obtain ⟨s, levels, ticks⟩ := h
  cases fuel with
  | zero => rfl
  | succ fuel =>
    cases levels with
    | nil => rfl
    | cons aux rest =>
      dsimp only
      rw [elementTimes]
      split
      · rename_i hp
        exact absurd ⟨_, _, _, _, aux, rest, rfl, hp⟩ hq
      · rfl

theorem times_measured (hm : h.Measures t c levels ticks) (fuel : Nat) :
    elementTimes (fuel + 1) h.state.timer h.state.actualtime h.state.counter h.levels h.ticks =
      t :: elementTimes fuel (h.state.timer + t) (some t) c levels ticks := by
  obtain ⟨aux, rest, hl, hp⟩ := hm
  rw [hl, elementTimes, hp]

theorem sound_quiet (hq : ¬ h.Busy) (hassigned : h.state.actualtime = none → Seen h.levels) :
    Sound (elements h.state h.levels h.ticks) := by
  obtain ⟨s, levels, ticks⟩ := h
  cases levels with
  | nil =>
    rw [elements]
    trivial
  | cons aux rest =>
    dsimp only
    cases hp : poll (fun e => 5000 < e) aux s.timer s.actualtime s.counter rest ticks with
    | waiting =>
      rw [elements_waiting hp]
      trivial
    | quit c =>
      rw [elements_quit hp]
      trivial
    | edge e c levels' ticks' =>
      cases e with
      | none => exact absurd (hassigned (poll_none hp).1) (poll_none hp).2
      | some t => exact absurd ⟨t, c, levels', ticks', aux, rest, rfl, hp⟩ hq

theorem Head.Measures.short (hm : h.Measures t c levels ticks) (hat : At j total h) : t ≤ 5000 := by
  obtain ⟨aux, rest, _, hp⟩ := hm
  rcases poll_some hp with hsome | hquit
  · exact hat.short t hsome
  · exact UInt32.not_lt.mp (of_decide_eq_false hquit)

theorem Head.Measures.length_lt (hm : h.Measures t c levels ticks) :
    levels.length < h.levels.length := by
  obtain ⟨aux, rest, hl, hp⟩ := hm
  rw [hl, List.length_cons]
  exact Nat.lt_succ_of_lt (poll_length hp)

/-- A head behind which nothing is measured. -/
theorem safeFrom_quiet (hq : ¬ h.Busy) (hat : At j total h) (fuel : Nat) :
    SafeFrom h ↔ ∀ i ≤ 60 - j, total + ((elementTimes fuel h.state.timer h.state.actualtime
      h.state.counter h.levels h.ticks).take i).sum ≠ 0 := by
  rw [times_quiet hq]
  refine iff_of_true (safeFrom_of_quiet hq (sound_quiet hq hat.assigned)) fun i _ => ?_
  rw [List.take_nil, List.sum_nil, UInt32.add_zero]
  exact hat.tracks.ne_zero_iff.mp hat.positive

theorem add_take_zero (total : UInt32) (ts : List UInt32) : total + (ts.take 0).sum = total := by
  rw [List.take_zero, List.sum_nil, UInt32.add_zero]

/-- The rest of a call from a head on. -/
theorem safeFrom_iff (fuel : Nat) : ∀ {j : Nat} {total : UInt32} {h : Head},
    h.levels.length ≤ fuel → At j total h →
    (SafeFrom h ↔ ∀ i ≤ 60 - j, total + ((elementTimes fuel h.state.timer h.state.actualtime
      h.state.counter h.levels h.ticks).take i).sum ≠ 0) := by
  induction fuel with
  | zero =>
    intro j total h hlen hat
    have hq : ¬ h.Busy := fun ⟨t, c, levels, ticks, hm⟩ => by
      have := hm.length_lt
      omega
    exact safeFrom_quiet hq hat 0
  | succ fuel ih =>
    intro j total h hlen hat
    by_cases hq : h.Busy
    · obtain ⟨t, c, levels, ticks, hm⟩ := hq
      have ht := hm.short hat
      have hlt := hm.length_lt
      have hroom := hat.room
      rw [times_measured hm, safeFrom_measured hat hm ht, show 60 - j = 60 - (j + 1) + 1 by omega,
        take_sum_iff (hat.tracks.ne_zero_iff.mp hat.positive)]
      by_cases hi : j + 1 < 60
      · have hrest := fun hne => ih (h := ⟨stored { h.state with counter := c } t, levels, ticks⟩)
          (show levels.length ≤ fuel by omega) (hat.next ht hi hne)
        constructor
        · intro ⟨hne, hsafe⟩
          exact (hrest hne).mp (hsafe hi)
        · intro hsums
          have hzero := hsums 0 (Nat.zero_le _)
          rw [add_take_zero] at hzero
          exact ⟨hzero, fun _ => (hrest hzero).mpr hsums⟩
      · rw [show 60 - (j + 1) = 0 by omega]
        constructor
        · intro ⟨hne, _⟩ i hi'
          rw [Nat.le_zero.mp hi', add_take_zero]
          exact hne
        · intro hsums
          have hzero := hsums 0 (Nat.le_refl _)
          rw [add_take_zero] at hzero
          exact ⟨hzero, fun hlt' => absurd hlt' hi⟩
    · exact safeFrom_quiet hq hat (fuel + 1)

theorem poll_skip {e e' : Option UInt32}
    (h : poll quit aux timer e c levels ticks = .edge e' c' levels' ticks') :
    skip aux levels = some levels' := by
  induction levels generalizing e c ticks with
  | nil => cases h
  | cons b levels ih =>
    unfold poll at h
    unfold skip
    split at h
    · rename_i hb
      rw [if_pos hb]
      split at h
      · cases h
      · dsimp only at h
        split at h
        · cases h
        · exact ih h
    · rename_i hb
      rw [if_neg hb]
      cases h
      rfl

/-- How a call comes to its loop, or ends before it. -/
inductive Entered (c : Counter) (code : Nat → UInt8) (levels : List Bool) (ticks : List UInt16) :
    Prop
  | waiting (he : entry c code levels ticks = .error .waiting)
      (hs : streamTimes c levels ticks = none) (hbar : ticks ≠ [] → Seen (atBar levels))
  | unseen (he : entry c code levels ticks = .error .uninitialised)
      (hticks : ticks ≠ []) (hbar : ¬ Seen (atBar levels))
  | loop (h : Head) (he : entry c code levels ticks = .ok h)
      (hs : streamTimes c levels ticks = some (h.state.bittime, elementTimes h.levels.length
        h.state.timer h.state.actualtime h.state.counter h.levels h.ticks))
      (hbar : Seen (atBar levels)) (hspace : behindBar levels = h.levels)
      (hcode : h.state.iCode = 1) (hactual : h.state.actualtime = none)

theorem entered (c : Counter) (code : Nat → UInt8) (levels : List Bool) (ticks : List UInt16) :
    Entered c code levels ticks := by
  cases levels with
  | nil => exact .waiting rfl rfl fun _ => trivial
  | cons aux levels =>
    cases hs : skip aux levels with
    | none =>
      apply Entered.waiting
      · simp only [entry, hs]
      · simp only [streamTimes, hs]
      · simp only [atBar, hs]
        exact fun _ => trivial
    | some rest =>
      have hat : atBar (aux :: levels) = rest := by rw [atBar, hs, Option.getD_some]
      cases rest with
      | nil =>
        apply Entered.waiting
        · simp only [entry, hs]
        · simp only [streamTimes, hs]
        · rw [hat]
          exact fun _ => trivial
      | cons b rest =>
        cases ticks with
        | nil =>
          apply Entered.waiting
          · simp only [entry, hs]
          · simp only [streamTimes, hs]
          · exact fun h => absurd rfl h
        | cons t ticks =>
          cases hp : poll (fun _ => false) b (counterRead t c).counter none (counterRead t c)
              rest ticks with
          | waiting =>
            apply Entered.waiting
            · simp only [entry, hs, hp]
            · simp only [streamTimes, hs, hp]
            · rw [hat]
              exact fun _ => poll_seen fun _ _ _ h => by cases hp.symm.trans h
          | quit c' =>
            apply Entered.waiting
            · simp only [entry, hs, hp]
            · simp only [streamTimes, hs, hp]
            · rw [hat]
              exact fun _ => poll_seen fun _ _ _ h => by cases hp.symm.trans h
          | edge e c' levels' ticks' =>
            cases e with
            | none =>
              apply Entered.unseen
              · simp only [entry, hs, hp]
              · exact List.cons_ne_nil _ _
              · rw [hat]
                exact (poll_none hp).2
            | some bittime =>
              apply Entered.loop
              · simp only [entry, hs, hp]
                rfl
              · simp only [streamTimes, hs, hp]
              · rw [hat]
                exact poll_seen fun _ _ _ h => by cases hp.symm.trans h
              · rw [behindBar, hat, atBar, poll_skip hp, Option.getD_some]
              · rfl
              · rfl

theorem elements_unseen (ha : h.state.actualtime = none) (hne : ¬ Seen h.levels) :
    elements h.state h.levels h.ticks = .uninitialised := by
  obtain ⟨s, levels, ticks⟩ := h
  cases levels with
  | nil => exact absurd trivial hne
  | cons aux rest =>
    cases rest with
    | nil => exact absurd trivial hne
    | cons b rest =>
      have hpoll : poll (fun e => 5000 < e) aux s.timer s.actualtime s.counter (b :: rest) ticks =
          .edge none s.counter rest ticks := by
        rw [show s.actualtime = none from ha]
        exact if_neg hne
      exact elements_uninitialised hpoll

/-- The loop behind the first bar. -/
theorem safeFrom_loop (hcode : h.state.iCode = 1) (ha : h.state.actualtime = none) :
    SafeFrom h ↔ Seen h.levels ∧ (elementTimes h.levels.length h.state.timer h.state.actualtime
      h.state.counter h.levels h.ticks ≠ [] → ∀ j ≤ 60, h.state.bittime +
        ((elementTimes h.levels.length h.state.timer h.state.actualtime h.state.counter h.levels
          h.ticks).take j).sum ≠ 0) := by
  by_cases hseen : Seen h.levels
  · rw [and_iff_right hseen]
    by_cases hq : h.Busy
    · by_cases hb : h.state.bittime = 0
      · obtain ⟨t, c, levels, ticks, hm⟩ := hq
        obtain ⟨n, hn⟩ : ∃ n, h.levels.length = n + 1 :=
          Nat.exists_eq_succ_of_ne_zero (by have := hm.length_lt; omega)
        constructor
        · intro hsafe
          have hpos := (hsafe.positive h .refl t c levels ticks hm).1
          exact absurd hb (one_le_iff.mp hpos)
        · rw [hn, times_measured hm]
          intro hsums
          refine absurd ?_ (hsums (List.cons_ne_nil _ _) 0 (Nat.zero_le _))
          rw [List.take_zero, List.sum_nil, UInt32.add_zero, hb]
      · have hat : At 0 h.state.bittime h :=
          { code := hcode
            room := by decide
            tracks := Or.inl rfl
            positive := hb
            assigned := fun _ => hseen
            short := fun t ht => nomatch ha.symm.trans ht }
        obtain ⟨t, c, levels, ticks, hm⟩ := hq
        obtain ⟨n, hn⟩ : ∃ n, h.levels.length = n + 1 :=
          Nat.exists_eq_succ_of_ne_zero (by have := hm.length_lt; omega)
        rw [safeFrom_iff h.levels.length (Nat.le_refl _) hat]
        constructor
        · exact fun hsums _ => hsums
        · rw [hn, times_measured hm]
          exact fun hsums => hsums (List.cons_ne_nil _ _)
    · rw [times_quiet hq]
      exact iff_of_true (safeFrom_of_quiet hq (sound_quiet hq fun _ => hseen))
        fun hne => absurd rfl hne
  · refine iff_of_false (fun hsafe => ?_) fun hs => hseen hs.1
    have hsound := hsafe.sound
    rw [elements_unseen ha hseen] at hsound
    exact hsound

/-- A call is safe exactly if it is measurable. -/
theorem safe_iff (c : Counter) (code : Nat → UInt8) (levels : List Bool) (ticks : List UInt16) :
    Safe c code levels ticks ↔ Measurable c levels ticks := by
  cases entered c code levels ticks with
  | waiting he hs hbar =>
    apply iff_of_true
    · refine ⟨?_, fun h heq => nomatch he.symm.trans heq⟩
      rw [handBarcode_eq, he]
      trivial
    · exact ⟨hbar, fun _ _ heq => (nomatch hs.symm.trans heq),
        fun _ _ heq => (nomatch hs.symm.trans heq)⟩
  | unseen he hticks hbar =>
    apply iff_of_false
    · intro hsafe
      have hsound := hsafe.sound
      rw [handBarcode_eq, he] at hsound
      exact hsound
    · exact fun hm => hbar (hm.bar hticks)
  | loop h he hs hbar hspace hcode ha =>
    have hsafe : Safe c code levels ticks ↔ SafeFrom h := by
      constructor
      · intro hsafe
        have hsound := hsafe.sound
        rw [handBarcode_eq, he] at hsound
        exact ⟨hsound, hsafe.positive h he⟩
      · intro hsafe
        refine ⟨?_, fun h' he' => ?_⟩
        · rw [handBarcode_eq, he]
          exact hsafe.sound
        · cases he.symm.trans he'
          exact hsafe.positive
    rw [hsafe, safeFrom_loop hcode ha]
    constructor
    · intro ⟨hseen, hsums⟩
      refine ⟨fun _ => hbar, fun _ _ _ => hspace ▸ hseen, fun b ts heq => ?_⟩
      cases hs.symm.trans heq
      exact hsums
    · intro hm
      exact ⟨hspace ▸ hm.space _ _ hs, hm.times _ _ hs⟩

/-- An edge between the read of `aux` and the first poll leaves `bittime` unassigned; a bar
polled within one tick makes it 0. -/
theorem unpolled_bar_unsafe :
    let unseen := handBarcode ⟨0, 0, 0⟩ (fun _ => 0) [false, true, true, false] [0]
    let zero := handBarcode ⟨0, 0, 0⟩ (fun _ => 0)
      [false, true, true, true, false, false, false, true] [0, 0, 0]
    unseen = .uninitialised ∧ zero = .divZero ∧
      ¬ ∀ (c : Counter) (code : Nat → UInt8) (levels : List Bool) (ticks : List UInt16),
        Safe c code levels ticks := by
  refine ⟨rfl, ?_, fun h => ?_⟩
  · have hedge : elements ⟨⟨0, 0, 0⟩, 0, 0, none, Function.update (fun _ => 0) 0 1, 1, [0]⟩
        [false, false, true] [0] = .divZero := by
      have hpoll : poll (fun e => 5000 < e) false 0 none ⟨0, 0, 0⟩ [false, true] [0] =
          .edge (some 0) ⟨0, 0, 0⟩ [] [] := rfl
      rw [elements_edge hpoll]
      rfl
    exact hedge
  · exact (h ⟨0, 0, 0⟩ (fun _ => 0) [false, true, true, false] [0]).sound

end Plak1a.Barcode.Division
