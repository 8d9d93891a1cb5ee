import Plak1a.Lan.Open

/-!
# What the result of `lan9118_open` says

The loop that waits for the end of the PHY's reset is judged by `timeout == 0`. Only a reset
that ends in the last poll leaves 0 there; one that does not end leaves -1 and passes.
A PHY with another identity passes as well, as nothing sets `RetVal` on its way.
-/

namespace Plak1a.Lan.OpenResult

open Mac Open Lib.Countdown

def pollWord (pwr : Nat → UInt32) : Bool × (Nat → UInt32) :=
  (pwr 0 &&& 0x1 = 0, fun n => pwr (n + 1))

/-- The reading of `PWR_MGMT` behind the wait for the chip. -/
def lastReading (pwr : Nat → UInt32) : UInt32 :=
  (countdown pollWord phyTimeout fun n => pwr (n + 1)).2 0

/-- The PHY is running, or the chip is ready behind the wait. -/
def Ready (c : Chip) : Prop :=
  c.reads .pwrMgmt 0 &&& 0x00030000 = 0 ∨ lastReading (c.reads .pwrMgmt) &&& 0x1 ≠ 0

theorem countdown_pollReady (n : Nat) (c : Chip) :
    countdown pollWord n (c.reads .pwrMgmt) =
      ((countdown pollReady n c).1, (countdown pollReady n c).2.reads .pwrMgmt) :=
  countdown_map (f := fun c : Chip => c.reads .pwrMgmt) (fun _ => rfl) (fun _ => rfl)

theorem wake_fst (c : Chip) : (wake c).1 = true ↔ Ready c := by
  unfold wake Ready
  dsimp only
  by_cases hmode : c.reads .pwrMgmt 0 &&& 0x00030000 = 0
  · rw [if_pos (show ((c.store _ _).read _).1 &&& _ = 0 from hmode)]
    exact iff_of_true rfl (Or.inl hmode)
  · rw [if_neg (show ¬ ((c.store _ _).read _).1 &&& _ = 0 from hmode), or_iff_right hmode]
    have hlast := congrArg (fun p => p.2 0) (countdown_pollReady phyTimeout
      (((c.store .hwCfg 0x00000001).read .pwrMgmt).2.store .byteTest 0x0))
    show (!decide (_ &&& _ = _)) = true ↔ lastReading _ &&& _ ≠ _
    rw [Bool.not_eq_true', decide_eq_false_iff_not]
    exact not_congr (iff_of_eq (congrArg (fun w => w &&& 0x1 = 0) hlast.symm))

section Link

variable (s : Settings) (macAddr : Nat → UInt8) (c : Chip)

/-- The readings of the identity of the PHY. -/
def identified : Bool × Chip := knownPhy (setup s macAddr (wake c).2)

/-- The chip when the PHY has been told to reset. -/
def resetting : Chip := resetPhy (identified s macAddr c).2

/-- One of the first `n` polls reads the reset bit as clear. -/
def SeenClear (n : Nat) : Prop := ∃ k < n, pollAt pollReset k (resetting s macAddr c) = false

/-- The negotiation behind the polls of the reset bit. -/
def negotiated : Bool × Chip :=
  negotiate (countdown pollReset phyTimeout (resetting s macAddr c)).2

/-- The negotiation has completed and the link is up, each as its last reading tells. -/
def Connected : Prop :=
  (negotiated s macAddr c).1 = true ∧ (linkUp (negotiated s macAddr c).2).1 = true

/-- The link can be used. -/
structure Usable : Prop where
  ready : Ready c
  known : (identified s macAddr c).1 = true
  reset : SeenClear s macAddr c phyTimeout
  connected : Connected s macAddr c

/-- The chip is not ready, or the PHY is known and either its reset bit is seen clear before
the last poll or there is no link anyhow. -/
def RightlyJudged : Prop :=
  ¬ Ready c ∨ ((identified s macAddr c).1 = true ∧
    (SeenClear s macAddr c (phyTimeout - 1) ∨ ¬ Connected s macAddr c))

end Link

variable {s : Settings} {macAddr : Nat → UInt8} {c : Chip}

theorem connect_fst (c : Chip) :
    (connect c).1 = true ↔ (negotiate c).1 = true ∧ (linkUp (negotiate c).2).1 = true := by
  unfold connect
  dsimp only
  cases (negotiate c).1 with
  | false => exact iff_of_false Bool.false_ne_true fun h => Bool.false_ne_true h.1
  | true =>
    simp only [Bool.not_true, Bool.false_eq_true, if_false, true_and]
    cases (linkUp (negotiate c).2).1 <;> simp

theorem openChip_fst_of_not_ready (h : ¬ Ready c) : (openChip s macAddr c).1 = false := by
  unfold openChip
  dsimp only
  rw [if_pos]
  rw [Bool.not_eq_true', ← Bool.not_eq_true, wake_fst]
  exact h

/-- A chip that is ready leaves the result to its PHY. -/
theorem openChip_of_ready (h : Ready c) :
    (openChip s macAddr c).1 =
      (if (identified s macAddr c).1 then
        let r := countdown pollReset phyTimeout (resetting s macAddr c)
        if r.1 = 0 then (false, r.2) else connect r.2
      else (true, (identified s macAddr c).2)).1 := by
  unfold openChip
  dsimp only
  rw [if_neg (by rw [(wake_fst c).mpr h]; exact Bool.false_ne_true)]
  rfl

/-- An unknown PHY is a success. -/
theorem openChip_fst_of_unknown (h : Ready c) (hid : (identified s macAddr c).1 = false) :
    (openChip s macAddr c).1 = true := by
  rw [openChip_of_ready h, if_neg (Bool.eq_false_iff.mp hid)]

/-- With a known PHY the counter decides, and the link. -/
theorem openChip_fst_of_known (h : Ready c) (hid : (identified s macAddr c).1 = true) :
    (openChip s macAddr c).1 = true ↔
      (countdown pollReset phyTimeout (resetting s macAddr c)).1 ≠ 0 ∧ Connected s macAddr c := by
  rw [openChip_of_ready h, if_pos hid]
  dsimp only
  by_cases hzero : (countdown pollReset phyTimeout (resetting s macAddr c)).1 = 0
  · rw [if_pos hzero]
    exact iff_of_false Bool.false_ne_true fun hne => hne.1 hzero
  · rw [if_neg hzero, and_iff_right hzero]
    exact connect_fst _

/-- What is left in the counter speaks of the reset exactly if it ends before the last
poll. -/
theorem timeout_ne_zero_iff (d : Chip) :
    ((countdown pollReset phyTimeout d).1 ≠ 0 ↔ ∃ k < phyTimeout, pollAt pollReset k d = false) ↔
      ∃ k < phyTimeout - 1, pollAt pollReset k d = false := by
  have hzero : (countdown pollReset phyTimeout d).1 = 0 ↔ FailsAt pollReset (phyTimeout - 1) d := by
    rw [show (0 : Int) = ((0 : Nat) : Int) from rfl, countdown_eq_iff]
    constructor
    · intro h
      obtain ⟨k, hk, hfails⟩ := h
      rwa [show phyTimeout - 1 = k by omega]
    · exact fun h => ⟨_, rfl, h⟩
  rw [Ne, hzero]
  constructor
  · intro h
    by_contra hlate
    have hbusy : ∀ k < phyTimeout - 1, pollAt pollReset k d = true := fun k hk =>
      (Bool.not_eq_false _).mp fun hf => hlate ⟨k, hk, hf⟩
    cases hlast : pollAt pollReset (phyTimeout - 1) d with
    | false => exact h.mpr ⟨_, by decide, hlast⟩ ⟨hbusy, hlast⟩
    | true =>
      -- the counter has run out: no poll has seen the bit clear
      obtain ⟨k, hk, hf⟩ := h.mp fun hfails => Bool.noConfusion (hlast.symm.trans hfails.2)
      rcases Nat.lt_or_ge k (phyTimeout - 1) with hlt | hge
      · exact Bool.noConfusion ((hbusy k hlt).symm.trans hf)
      · rw [show k = phyTimeout - 1 by omega] at hf
        exact Bool.noConfusion (hlast.symm.trans hf)
  · intro h
    obtain ⟨k, hk, hf⟩ := h
    refine iff_of_true (fun hfails => ?_) ⟨k, by omega, hf⟩
    exact Bool.noConfusion ((hfails.1 k hk).symm.trans hf)

theorem openChip_iff (s : Settings) (macAddr : Nat → UInt8) (c : Chip) :
    ((openChip s macAddr c).1 = true ↔ Usable s macAddr c) ↔ RightlyJudged s macAddr c := by
  unfold RightlyJudged
  by_cases hready : Ready c
  · rw [or_iff_right (not_not.mpr hready)]
    cases hid : (identified s macAddr c).1 with
    | false =>
      refine iff_of_false (fun h => ?_) (fun h => Bool.false_ne_true h.1)
      have husable := h.mp (openChip_fst_of_unknown hready hid)
      exact Bool.noConfusion (hid.symm.trans husable.known)
    | true =>
      have husable : Usable s macAddr c ↔
          SeenClear s macAddr c phyTimeout ∧ Connected s macAddr c :=
        ⟨fun h => ⟨h.reset, h.connected⟩, fun h => ⟨hready, hid, h.1, h.2⟩⟩
      rw [openChip_fst_of_known hready hid, husable, and_iff_right rfl]
      by_cases hlink : Connected s macAddr c
      · rw [and_iff_left hlink, and_iff_left hlink, or_iff_left (not_not.mpr hlink)]
        exact timeout_ne_zero_iff _
      · exact iff_of_true (iff_of_false (fun h => hlink h.2) fun h => hlink h.2) (Or.inr hlink)
  · refine iff_of_true (iff_of_false ?_ fun h => hready h.ready) (Or.inl hready)
    rw [openChip_fst_of_not_ready hready]
    exact Bool.false_ne_true

/-- The copy under `lan` knows the chip. -/
def Supported (c : Chip) : Prop := c.reads .idRev 0 &&& 0xFFFF0000 ∈ chips

/-- Either copy of `lan9118_open` reports a usable link exactly when the reset bit or the
identity of the PHY does not mislead it, whatever the registers are read with. -/
theorem open_reports_iff (macAddr : Nat → UInt8) (c : Chip) :
    (((uipOpen macAddr c).1 = true ↔ Usable uipSettings macAddr c) ↔
      RightlyJudged uipSettings macAddr c) ∧
    (((lanOpen macAddr c).1 = true ↔
        Supported c ∧ Usable lanSettings macAddr (c.read .idRev).2) ↔
      (¬ Supported c ∨ RightlyJudged lanSettings macAddr (c.read .idRev).2)) := by
  refine ⟨openChip_iff uipSettings macAddr c, ?_⟩
  unfold lanOpen
  dsimp only
  by_cases hchip : Supported c
  · rw [if_pos (show (c.read _).1 &&& _ ∈ _ from hchip), and_iff_right hchip,
      or_iff_right (not_not.mpr hchip)]
    exact openChip_iff lanSettings macAddr _
  · rw [if_neg (show ¬ (c.read _).1 &&& _ ∈ _ from hchip)]
    exact iff_of_true (iff_of_false Bool.false_ne_true fun h => hchip h.1) (Or.inl hchip)

/-- A chip that is awake, with no PHY that answers. -/
def noPhy : Chip where
  reads := fun r _ => if r = .idRev then 0x01180000 else 0
  log := []

/-- Both copies report a link where there is no PHY. -/
theorem noPhy_opened : (uipOpen (fun _ => 0) noPhy).1 = true ∧
    ¬ Usable uipSettings (fun _ => 0) noPhy ∧ (lanOpen (fun _ => 0) noPhy).1 = true ∧
    ¬ Usable lanSettings (fun _ => 0) (noPhy.read .idRev).2 := by
  have huip : (identified uipSettings (fun _ => 0) noPhy).1 = false := by decide
  have hlan : (identified lanSettings (fun _ => 0) (noPhy.read .idRev).2).1 = false := by decide
  refine ⟨by decide, fun h => ?_, by decide, fun h => ?_⟩
  · exact Bool.noConfusion (huip.symm.trans h.known)
  · exact Bool.noConfusion (hlan.symm.trans h.known)

end Plak1a.Lan.OpenResult
