import Plak1a.Lcd.Ili932x
import Plak1a.Lib.Run

/-!
# Stopping the refresh

`ili932x_disable` clears the flag, cancels the timer and waits for the work that runs. An
update that has already seen the flag set queues itself again; when that falls behind the
cancelling, nothing stops the new timer. In every other order the driver is left with
nothing pending and nothing running, and enabling starts from there.
-/

namespace Plak1a.Lcd.Disable

open Plak1a.Lib.Run Plak1a.Lcd.Ili932x

/-- The updates pending or running. -/
def count (s : State) : Nat :=
  (if s.timer then 1 else 0) + (if s.queued then 1 else 0) + if s.worker = .idle then 0 else 1

/-- The step from `s` to `t` is the return of `ili932x_disable`. -/
def DisableReturns (s : State) (a : Action) (t : State) : Prop :=
  a = .call ∧ (s.caller = .disable ∨ s.caller = .flushing 0) ∧ t.caller = .none

/-- When `cancel_delayed_work` is called, no update stands between its test of
`ili932x_updating` and its queueing. -/
def CancelSees (s : State) (a : Action) : Prop :=
  a = .call → s.caller = .cancel → s.worker ≠ .queue

instance (s : State) (a : Action) : Decidable (CancelSees s a) :=
  inferInstanceAs (Decidable (_ → _ → _))

/-- What the stages of the caller know about the work. -/
def StageHolds (s : State) : Prop :=
  match s.caller with
  | .enableQueue => s.updating = true ∧ count s = 0
  | .cancel => s.updating = false
  | .flush => s.updating = false ∧ s.timer = false ∧ s.worker ≠ .queue
  | .flushing n => s.updating = false ∧ s.timer = false ∧ s.worker ≠ .queue ∧ n = count s
  | _ => s.updating = false → count s = 0

structure Tidy (s : State) : Prop where
  one : count s ≤ 1
  stage : StageHolds s

variable {delay : Nat} {s t : State} {a : Action}

theorem tidy_init (panel : Nat → UInt32) : Tidy (init panel) :=
  ⟨Nat.zero_le 1, fun _ => rfl⟩

theorem count_eq_zero (h : count s = 0) :
    s.timer = false ∧ s.queued = false ∧ s.worker = .idle := by
  unfold count at h
  cases ht : s.timer <;> cases hq : s.queued <;> by_cases hw : s.worker = .idle <;>
    simp_all

/-- A running update is the only one. -/
theorem Tidy.running (h : Tidy s) (hw : s.worker ≠ .idle) :
    s.timer = false ∧ s.queued = false ∧ count s = 1 := by
  have hone := h.one
  unfold count at hone ⊢
  cases ht : s.timer <;> cases hq : s.queued <;> simp_all

@[simp] theorem queueDelayedWork_updating : (s.queueDelayedWork delay).updating = s.updating := by
  obtain ⟨_, _, h⟩ := s.queueDelayedWork_eq delay
  rw [h]

@[simp] theorem queueDelayedWork_caller : (s.queueDelayedWork delay).caller = s.caller := by
  obtain ⟨_, _, h⟩ := s.queueDelayedWork_eq delay
  rw [h]

/-- Work that is not pending becomes pending. -/
theorem count_queueDelayedWork (delay : Nat) (ht : s.timer = false) (hq : s.queued = false) :
    count (s.queueDelayedWork delay) = count s + 1 := by
  unfold State.queueDelayedWork
  rw [ht, hq]
  by_cases hd : delay = 0
  · simp only [hd, Bool.or_self, Bool.false_eq_true, if_false, if_true, count, ht, hq]
    omega
  · simp only [hd, Bool.or_self, Bool.false_eq_true, if_false, if_true, count, ht, hq]
    omega

theorem queueDelayedWork_worker : (s.queueDelayedWork delay).worker = s.worker := by
  obtain ⟨_, _, h⟩ := s.queueDelayedWork_eq delay
  rw [h]

theorem count_finish (hw : s.worker ≠ .idle) : count s.finish + 1 = count s := by
  show (if s.timer then 1 else 0) + (if s.queued then 1 else 0) + 0 + 1 = _
  rw [count, if_neg hw]

/-- A step that leaves the caller alone and neither adds nor ends an update. -/
theorem Tidy.of_eq (h : Tidy s) (hn : count t = count s) (hu : t.updating = s.updating)
    (hc : t.caller = s.caller) (ht : s.timer = false → t.timer = false)
    (hw : t.worker = .queue → s.worker = .queue ∨ s.updating = true) : Tidy t := by
  constructor
  · rw [hn]
    exact h.one
  · have hs := h.stage
    unfold StageHolds at hs ⊢
    rw [hc, hu, hn]
    cases hcall : s.caller with
    | flush =>
      rw [hcall] at hs
      refine ⟨hs.1, ht hs.2.1, fun hq => ?_⟩
      rcases hw hq with hq | hq
      · exact hs.2.2 hq
      · rw [hs.1] at hq
        cases hq
    | flushing n =>
      rw [hcall] at hs
      refine ⟨hs.1, ht hs.2.1, fun hq => ?_, hs.2.2.2⟩
      rcases hw hq with hq | hq
      · exact hs.2.2.1 hq
      · rw [hs.1] at hq
        cases hq
    | _ =>
      rw [hcall] at hs
      exact hs

theorem Tidy.finish (h : Tidy s) (hw : s.worker ≠ .idle) : Tidy s.finish := by
  obtain ⟨ht, _, hn⟩ := h.running hw
  have hzero : count s.finish = 0 := by
    have := count_finish hw
    omega
  constructor
  · rw [hzero]
    exact Nat.zero_le 1
  · have hs := h.stage
    unfold StageHolds at hs ⊢
    rw [hzero]
    cases hcall : s.caller with
    | enableQueue =>
      rw [hcall] at hs
      rw [hs.2] at hn
      cases hn
    | flushing n =>
      rw [hcall] at hs
      obtain rfl : n = 1 := hs.2.2.2.trans hn
      simp only [State.finish, hcall]
      exact ⟨hs.1, ht, by decide⟩
    | flush =>
      rw [hcall] at hs
      simp only [State.finish, hcall]
      exact ⟨hs.1, ht, by decide⟩
    | cancel =>
      rw [hcall] at hs
      simp only [State.finish, hcall]
      exact hs
    | _ => simp only [State.finish, hcall, implies_true]

/-- An update that queues itself again leaves one behind. -/
theorem Tidy.requeue (h : Tidy s) (hw : s.worker = .queue) :
    Tidy (s.queueDelayedWork delay).finish := by
  obtain ⟨ht, hq, hn⟩ := h.running (by rw [hw]; decide)
  have hone : count (s.queueDelayedWork delay).finish = 1 := by
    have hf := count_finish (s := s.queueDelayedWork delay) (by
      rw [queueDelayedWork_worker, hw]
      decide)
    have hc := count_queueDelayedWork delay ht hq
    omega
  constructor
  · exact Nat.le_of_eq hone
  · have hs := h.stage
    unfold StageHolds at hs ⊢
    cases hcall : s.caller with
    | enableQueue =>
      rw [hcall] at hs
      rw [hs.2] at hn
      cases hn
    | cancel =>
      rw [hcall] at hs
      simp only [State.finish, queueDelayedWork_caller, queueDelayedWork_updating, hcall]
      exact hs
    | flush =>
      rw [hcall] at hs
      exact absurd hw hs.2.2
    | flushing n =>
      rw [hcall] at hs
      exact absurd hw hs.2.2.1
    | _ =>
      rw [hcall] at hs
      simp only [State.finish, queueDelayedWork_caller, queueDelayedWork_updating, hcall]
      intro hu
      rw [hs hu] at hn
      cases hn

theorem Tidy.updateStep (h : Tidy s) (hs : s.updateStep delay = some t) : Tidy t := by
  rcases State.updateStep_cases hs with ⟨hw, _, rfl⟩ | ⟨hw, _, rfl⟩ | ⟨k, hw, _, rfl⟩ |
    ⟨k, hw, _, rfl⟩ | ⟨hw, hu, rfl⟩ | ⟨hw, _, rfl⟩ | ⟨hw, rfl⟩
  · exact h.of_eq (by simp [count, State.setHaddr, hw]) rfl rfl id nofun
  · exact h.of_eq (by simp [count, hw]) rfl rfl id nofun
  · exact h.of_eq (by simp [count, State.writeData, hw]) rfl rfl id nofun
  · exact h.of_eq (by simp [count, hw]) rfl rfl id nofun
  · exact h.of_eq (by simp [count, hw]) rfl rfl id (fun _ => Or.inr hu)
  · exact h.finish (by rw [hw]; decide)
  · exact h.requeue hw

theorem Tidy.callStep (h : Tidy s) (hc : s.caller = .cancel → s.worker ≠ .queue)
    (hs : s.callStep delay = some t) : Tidy t := by
  have hone := h.one
  have hst := h.stage
  unfold State.callStep at hs
  unfold StageHolds at hst
  cases hcall : s.caller with
  | none =>
    rw [hcall] at hs
    cases hs
  | enable =>
    rw [hcall] at hs hst
    dsimp only at hs
    split at hs
    · rename_i hu
      cases hs
      exact ⟨hone, hst⟩
    · rename_i hu
      cases hs
      exact ⟨hone, rfl, hst (Bool.eq_false_iff.mpr hu)⟩
  | enableQueue =>
    rw [hcall] at hs hst
    cases hs
    obtain ⟨ht, hq, _⟩ := count_eq_zero hst.2
    have hn := count_queueDelayedWork delay ht hq
    rw [hst.2] at hn
    constructor
    · exact Nat.le_of_eq hn
    · show (s.queueDelayedWork delay).updating = false → _
      rw [queueDelayedWork_updating, hst.1]
      exact nofun
  | disable =>
    rw [hcall] at hs hst
    dsimp only at hs
    split at hs
    · cases hs
      exact ⟨hone, rfl⟩
    · cases hs
      exact ⟨hone, hst⟩
  | cancel =>
    rw [hcall] at hs hst
    cases hs
    refine ⟨Nat.le_trans ?_ hone, hst, rfl, hc hcall⟩
    show 0 + (if s.queued then 1 else 0) + (if s.worker = .idle then 0 else 1) ≤ count s
    rw [count]
    omega
  | flush =>
    rw [hcall] at hs hst
    cases hs
    refine ⟨hone, hst.1, hst.2.1, hst.2.2, ?_⟩
    show _ = (if s.timer then 1 else 0) + (if s.queued then 1 else 0) +
      (if s.worker = .idle then 0 else 1)
    rw [hst.2.1]
    simp only [Bool.false_eq_true, if_false, Nat.zero_add]
    omega
  | flushing n =>
    rw [hcall] at hs hst
    cases n with
    | zero =>
      cases hs
      exact ⟨hone, fun _ => hst.2.2.2.symm⟩
    | succ n => cases hs

theorem Tidy.enter (h : Tidy s) (hcall : s.caller = .none) {caller : Caller}
    (hc : caller = .enable ∨ caller = .disable) : Tidy { s with caller := caller } := by
  have hst := h.stage
  unfold StageHolds at hst
  rw [hcall] at hst
  rcases hc with rfl | rfl
  · exact ⟨h.one, hst⟩
  · exact ⟨h.one, hst⟩

/-- Where no update stands between its test and its queueing when the timer is cancelled,
every step leaves the driver tidy. -/
theorem Tidy.step (h : Tidy s) (hc : CancelSees s a) (hs : step delay s a = some t) : Tidy t := by
  cases a with
  | draw =>
    cases hs
    exact ⟨h.one, h.stage⟩
  | store p b =>
    obtain ⟨_, hs⟩ := Option.ite_none_right_eq_some.mp hs
    cases hs
    exact ⟨h.one, h.stage⟩
  | setChange =>
    obtain ⟨_, hs⟩ := Option.ite_none_right_eq_some.mp hs
    cases hs
    exact ⟨h.one, h.stage⟩
  | callEnable =>
    obtain ⟨hcall, hs⟩ := Option.ite_none_right_eq_some.mp hs
    cases hs
    exact h.enter hcall (Or.inl rfl)
  | callDisable =>
    obtain ⟨hcall, hs⟩ := Option.ite_none_right_eq_some.mp hs
    cases hs
    exact h.enter hcall (Or.inr rfl)
  | call => exact h.callStep (hc rfl) hs
  | expire =>
    obtain ⟨ht, hs⟩ := Option.ite_none_right_eq_some.mp hs
    cases hs
    have hone := h.one
    have hn : count { s with timer := false, queued := true } = count s := by
      show 0 + 1 + (if s.worker = .idle then 0 else 1) = count s
      rw [count, if_pos ht] at hone ⊢
      omega
    exact h.of_eq hn rfl rfl (fun _ => rfl) Or.inl
  | run =>
    obtain ⟨⟨hw, hq⟩, hs⟩ := Option.ite_none_right_eq_some.mp hs
    cases hs
    have hn : count { s with queued := false, worker := .testChange } = count s := by
      show (if s.timer then 1 else 0) + 0 + 1 = count s
      rw [count, if_pos hq, if_pos hw]
    exact h.of_eq hn rfl rfl id nofun
  | update => exact h.updateStep hs

theorem updating_of_returns (h : Tidy s) (hr : DisableReturns s a t)
    (hs : step delay s a = some t) : t.updating = false := by
  obtain ⟨rfl, hcall | hcall, hnone⟩ := hr
  · have hs : s.callStep delay = some t := hs
    unfold State.callStep at hs
    rw [hcall] at hs
    dsimp only at hs
    split at hs
    · cases hs
      cases hnone
    · rename_i hu
      cases hs
      exact Bool.eq_false_iff.mpr hu
  · have hs : s.callStep delay = some t := hs
    have hst := h.stage
    unfold StageHolds at hst
    unfold State.callStep at hs
    rw [hcall] at hs hst
    cases hs
    exact hst.1

/-- In every run of drawings, calls and updates in which no update stands between its test
of `ili932x_updating` and its queueing when the timer is cancelled, at most one update is
pending or running, and none is when `ili932x_disable` returns. -/
theorem disable_stops {panel : Nat → UInt32} {as : List Action}
    (hc : Along CancelSees (step delay) (init panel) (as ++ [a]))
    (hs : exec (step delay) (init panel) as = some s) (ht : step delay s a = some t) :
    count s ≤ 1 ∧ count t ≤ 1 ∧ (DisableReturns s a t → count t = 0) := by
  obtain ⟨hc₁, hc₂⟩ := (along_append _ _ _).mp hc
  have h := inv_of_along (fun _ _ _ hI hP he => hI.step hP he) (tidy_init panel) hc₁ hs
  have h' := h.step (hc₂ s hs).1 ht
  refine ⟨h.one, h'.one, fun hr => ?_⟩
  have hst := h'.stage
  unfold StageHolds at hst
  rw [hr.2.2] at hst
  exact hst (updating_of_returns h hr ht)

/-- Enabling, an update up to its test, disabling until the flush waits, the end of the update. -/
def disableAtTest : List Action :=
  [.callEnable, .call, .call, .expire, .run, .update, .callDisable, .call, .call, .call, .update]

theorem disableAtTest_stops :
    ∃ s t, exec (step 10) (init fun _ => 0) disableAtTest = some s ∧ step 10 s .call = some t ∧
      DisableReturns s .call t ∧ count s ≤ 1 ∧ count t ≤ 1 ∧
      (DisableReturns s .call t → count t = 0) := by
  have hc : Along CancelSees (step 10) (init fun _ => 0) (disableAtTest ++ [.call]) := by decide
  exact ⟨_, _, rfl, rfl, ⟨rfl, Or.inr rfl, rfl⟩, disable_stops hc rfl rfl⟩

/-- The update has seen the flag when `ili932x_disable` clears it, and queues itself while
the flush waits for it: `ili932x_disable` returns with the timer running. -/
theorem disable_misses_queueing :
    ∃ s t, exec (step 10) (init fun _ => 0)
        [.callEnable, .call, .call, .expire, .run, .update, .update,
          .callDisable, .call, .call, .call, .update] = some s ∧
      step 10 s .call = some t ∧ DisableReturns s .call t ∧ t.timer = true ∧ count t = 1 :=
  ⟨_, _, rfl, rfl, ⟨rfl, Or.inr rfl, rfl⟩, rfl, rfl⟩

end Plak1a.Lcd.Disable
