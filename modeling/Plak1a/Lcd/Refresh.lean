import Mathlib.Logic.Function.Basic
import Plak1a.Lcd.Ili932x
import Plak1a.Lib.Run

/-!
# What the refresh keeps on the panel

An update sends the pixels one by one and clears `ili932x_change` behind the last of them.
A drawing that sets the flag during the transfer has it cleared again, so that its pixels
reach the panel only where they were stored before the transfer came by. When no drawing
sets the flag with a change behind the transfer, the panel never falls behind unnoticed.
-/

namespace Plak1a.Lcd.Refresh

open Plak1a.Lib.Bytes Plak1a.Lib.Run Plak1a.Lcd.Ili932x

/-- The first `k` pixels on the panel are those of the buffer. -/
def Sent (s : State) (k : Nat) : Prop := ∀ i < k, s.panel i = writePixel (pixelAt s.buffer i)

/-- The panel shows exactly the frame buffer. -/
def Shows (s : State) : Prop := Sent s pixels

/-- Neither an update nor a drawing operation is in progress. -/
def Quiet (s : State) : Prop := s.worker = .idle ∧ s.drawings = 0

/-- When a drawing sets the flag during a transfer, another one is still in progress or
the pixels the transfer has sent are unchanged. -/
def FlagInTime (s : State) (a : Action) : Prop :=
  a = .setChange → ∀ k, s.worker = .writeGram k → 1 < s.drawings ∨ Sent s k

/-- The panel's address follows the transfer, and the flag or a drawing in progress stands
for every difference that no transfer is about to remove. -/
def Tracks (s : State) : Prop :=
  match s.worker with
  | .writeGram k => k ≤ pixels ∧ s.gram = k % pixels ∧ (0 < s.drawings ∨ Sent s k)
  | _ => s.gram = 0 ∧ (s.change = true ∨ 0 < s.drawings ∨ Shows s)

/-- No drawing has set the flag so far. -/
def Unflagged (s : State) : Prop :=
  s.gram = 0 ∧ s.change = false ∧ ∀ k, s.worker ≠ .writeGram k

variable {delay k n : Nat} {s t : State} {a : Action} {panel : Nat → UInt32}

theorem pixels_eq : pixels = xRes * yRes := by decide

theorem tracks_of_eq (h : Tracks s) (hw : t.worker = s.worker) (hg : t.gram = s.gram)
    (hc : s.change = true → t.change = true) (hd : 0 < s.drawings → 0 < t.drawings)
    (hs : ∀ k, Sent s k → 0 < t.drawings ∨ Sent t k) : Tracks t := by
  unfold Tracks at h ⊢
  rw [hw, hg]
  cases hworker : s.worker with
  | writeGram k =>
    rw [hworker] at h
    refine ⟨h.1, h.2.1, ?_⟩
    rcases h.2.2 with h | h
    · exact Or.inl (hd h)
    · exact hs k h
  | _ =>
    rw [hworker] at h
    refine ⟨h.1, ?_⟩
    rcases h.2 with h | h | h
    · exact Or.inl (hc h)
    · exact Or.inr (Or.inl (hd h))
    · exact Or.inr (hs pixels h)

/-- Outside a transfer it does not matter which statement the update is at. -/
theorem tracks_idle (h : Tracks s) (hs : ∀ k, s.worker ≠ .writeGram k)
    (hw : ∀ k, t.worker ≠ .writeGram k) (hg : t.gram = s.gram) (hc : t.change = s.change)
    (hd : t.drawings = s.drawings) (hp : t.panel = s.panel) (hb : t.buffer = s.buffer) :
    Tracks t := by
  have hshows : Shows s → Shows t := by
    unfold Shows Sent
    rw [hp, hb]
    exact id
  unfold Tracks at h ⊢
  cases hsw : s.worker with
  | writeGram k => exact absurd hsw (hs k)
  | _ =>
    rw [hsw] at h
    cases htw : t.worker with
    | writeGram k => exact absurd htw (hw k)
    | _ =>
      rw [hg, hc, hd]
      exact ⟨h.1, h.2.imp_right (Or.imp_right hshows)⟩

/-- A pixel is written to its place on the panel. -/
theorem Sent.writeData (hk : k < pixels) (hg : s.gram = k % pixels) (h : Sent s k) :
    Sent (s.writeData (writePixel (pixelAt s.buffer k))) (k + 1) := by
  rw [Nat.mod_eq_of_lt hk] at hg
  intro i hi
  show Function.update s.panel s.gram _ i = writePixel (pixelAt s.buffer i)
  rw [hg]
  by_cases heq : i = k
  · rw [heq, Function.update_self]
  · rw [Function.update_of_ne heq]
    exact h i (by omega)

theorem tracks_updateStep (h : Tracks s) (hs : s.updateStep delay = some t) : Tracks t := by
  have hidle (hw : ∀ k, s.worker ≠ .writeGram k) {worker : Worker} {caller : Caller}
      {timer queued : Bool} (hw' : ∀ k, worker ≠ .writeGram k) :
      Tracks { s with worker := worker, caller := caller, timer := timer, queued := queued } :=
    tracks_idle h hw hw' rfl rfl rfl rfl rfl
  have hT := h
  unfold Tracks at hT
  rcases State.updateStep_cases hs with ⟨hw, _, rfl⟩ | ⟨hw, _, rfl⟩ | ⟨k, hw, hk, rfl⟩ |
    ⟨k, hw, hk, rfl⟩ | ⟨hw, _, rfl⟩ | ⟨hw, _, rfl⟩ | ⟨hw, rfl⟩
  · rw [hw] at hT
    refine ⟨Nat.zero_le _, ?_, Or.inr fun i hi => absurd hi (Nat.not_lt_zero i)⟩
    exact hT.1
  · exact hidle (by rw [hw]; exact nofun) nofun
  · rw [hw] at hT
    obtain ⟨_, hg, hsent⟩ := hT
    refine ⟨hk, ?_, hsent.imp_right (Sent.writeData hk hg)⟩
    show (s.gram + 1) % (xRes * yRes) = (k + 1) % pixels
    rw [hg, ← pixels_eq, Nat.mod_add_mod]
  · rw [hw] at hT
    obtain ⟨hle, hg, hsent⟩ := hT
    obtain rfl : k = pixels := by omega
    exact ⟨hg.trans (Nat.mod_self _), Or.inr hsent⟩
  · exact hidle (by rw [hw]; exact nofun) nofun
  · exact hidle (by rw [hw]; exact nofun) nofun
  · obtain ⟨_, _, hq⟩ := s.queueDelayedWork_eq delay
    rw [hq]
    exact hidle (by rw [hw]; exact nofun) nofun

/-- Enabling and disabling concern the work only. -/
theorem callStep_eq (hs : s.callStep delay = some t) :
    ∃ updating timer queued caller ret, t =
      { s with
        updating := updating, timer := timer, queued := queued, caller := caller, ret := ret } := by
  unfold State.callStep at hs
  split at hs
  · cases hs
  · split at hs <;> cases hs <;> exact ⟨_, _, _, _, _, rfl⟩
  · cases hs
    obtain ⟨_, _, hq⟩ := s.queueDelayedWork_eq delay
    rw [hq]
    exact ⟨_, _, _, _, _, rfl⟩
  · split at hs <;> cases hs <;> exact ⟨_, _, _, _, _, rfl⟩
  · cases hs
    exact ⟨_, _, _, _, _, rfl⟩
  · cases hs
    exact ⟨_, _, _, _, _, rfl⟩
  · cases hs
    exact ⟨_, _, _, _, _, rfl⟩
  · cases hs

theorem tracks_step (h : Tracks s) (hf : FlagInTime s a) (hs : step delay s a = some t) :
    Tracks t := by
  cases a with
  | draw =>
    cases hs
    exact tracks_of_eq h rfl rfl id (fun _ => Nat.succ_pos _) fun _ => Or.inr
  | store p b =>
    obtain ⟨⟨hd, _⟩, hs⟩ := Option.ite_none_right_eq_some.mp hs
    cases hs
    exact tracks_of_eq h rfl rfl id id fun _ _ => Or.inl hd
  | setChange =>
    obtain ⟨hd, hs⟩ := Option.ite_none_right_eq_some.mp hs
    cases hs
    unfold Tracks at h ⊢
    cases hw : s.worker with
    | writeGram k =>
      rw [hw] at h
      refine ⟨h.1, h.2.1, ?_⟩
      rcases hf rfl k hw with hd | hsent
      · exact Or.inl (Nat.sub_pos_of_lt hd)
      · exact Or.inr hsent
    | _ =>
      rw [hw] at h
      exact ⟨h.1, Or.inl rfl⟩
  | callEnable =>
    obtain ⟨_, hs⟩ := Option.ite_none_right_eq_some.mp hs
    cases hs
    exact tracks_of_eq h rfl rfl id id fun _ => Or.inr
  | callDisable =>
    obtain ⟨_, hs⟩ := Option.ite_none_right_eq_some.mp hs
    cases hs
    exact tracks_of_eq h rfl rfl id id fun _ => Or.inr
  | call =>
    obtain ⟨_, _, _, _, _, rfl⟩ := callStep_eq hs
    exact tracks_of_eq h rfl rfl id id fun _ => Or.inr
  | expire =>
    obtain ⟨_, hs⟩ := Option.ite_none_right_eq_some.mp hs
    cases hs
    exact tracks_of_eq h rfl rfl id id fun _ => Or.inr
  | run =>
    obtain ⟨⟨hw, _⟩, hs⟩ := Option.ite_none_right_eq_some.mp hs
    cases hs
    exact tracks_idle h (by rw [hw]; exact nofun) nofun rfl rfl rfl rfl rfl
  | update => exact tracks_updateStep h hs

theorem unflagged_updateStep (h : Unflagged s) (hs : s.updateStep delay = some t) :
    Unflagged t := by
  obtain ⟨hg, hc, hw⟩ := h
  rcases State.updateStep_cases hs with ⟨_, hc', _⟩ | ⟨_, _, rfl⟩ | ⟨k, hw', _⟩ | ⟨k, hw', _⟩ |
    ⟨_, _, rfl⟩ | ⟨_, _, rfl⟩ | ⟨_, rfl⟩
  · rw [hc] at hc'
    cases hc'
  · exact ⟨hg, hc, nofun⟩
  · exact absurd hw' (hw k)
  · exact absurd hw' (hw k)
  · exact ⟨hg, hc, nofun⟩
  · exact ⟨hg, hc, nofun⟩
  · obtain ⟨_, _, hq⟩ := s.queueDelayedWork_eq delay
    rw [hq]
    exact ⟨hg, hc, nofun⟩

theorem unflagged_step (h : Unflagged s) (ha : a ≠ .setChange) (hs : step delay s a = some t) :
    Unflagged t := by
  cases a with
  | setChange => exact absurd rfl ha
  | update => exact unflagged_updateStep h hs
  | call =>
    obtain ⟨_, _, _, _, _, rfl⟩ := callStep_eq hs
    exact h
  | draw =>
    cases hs
    exact h
  | run =>
    obtain ⟨_, hs⟩ := Option.ite_none_right_eq_some.mp hs
    cases hs
    exact ⟨h.1, h.2.1, nofun⟩
  | _ =>
    obtain ⟨_, hs⟩ := Option.ite_none_right_eq_some.mp hs
    cases hs
    exact h

/-- The first drawing to end sets the flag outside a transfer. -/
theorem tracks_of_unflagged (h : Unflagged s) (hs : step delay s .setChange = some t) :
    Tracks t := by
  obtain ⟨_, hs⟩ := Option.ite_none_right_eq_some.mp hs
  cases hs
  unfold Tracks
  cases hw : s.worker with
  | writeGram k => exact absurd hw (h.2.2 k)
  | _ => exact ⟨h.1, Or.inl rfl⟩

/-- Whatever the panel holds at the start, the driver keeps track of it once a drawing has
ended, and from the start if the panel shows the empty buffer. -/
theorem tracks_run {as : List Action} (hf : Along FlagInTime (step delay) (init panel) as)
    (ht : exec (step delay) (init panel) as = some t)
    (hp : .setChange ∈ as ∨ Shows (init panel)) : Tracks t := by
  rcases hp with hmem | hshow
  · obtain ⟨as₁, as₂, rfl, hnot⟩ := List.eq_append_cons_of_mem hmem
    rw [exec_append] at ht
    obtain ⟨s, hs, ht⟩ := Option.bind_eq_some_iff.mp ht
    obtain ⟨u, hu, ht⟩ := Option.bind_eq_some_iff.mp ht
    have hrest := ((along_append _ _ _).mp hf).2 s hs
    have hinit : Unflagged (init panel) := ⟨rfl, rfl, nofun⟩
    have hno : Along (fun _ a => a ≠ Action.setChange) (step delay) (init panel) as₁ := by
      apply along_of_mem
      intro a ha _ heq
      rw [heq] at ha
      exact hnot ha
    have hun := inv_of_along (fun _ _ _ hI hP he => unflagged_step hI hP he) hinit hno hs
    exact inv_of_along (fun _ _ _ hI hP he => tracks_step hI hP he) (tracks_of_unflagged hun hu)
      (hrest.2 u hu) ht
  · have hinit : Tracks (init panel) := ⟨rfl, Or.inr (Or.inr hshow)⟩
    exact inv_of_along (fun _ _ _ hI hP he => tracks_step hI hP he) hinit hf ht

/-- In every run in which no drawing sets the flag with a change behind the transfer, the
panel shows exactly the buffer whenever the flag is clear and nothing is in progress, once
a drawing has ended or if it did so at the start. -/
theorem drawing_not_lost {as : List Action}
    (hf : Along FlagInTime (step delay) (init panel) as)
    (ht : exec (step delay) (init panel) as = some t)
    (hp : .setChange ∈ as ∨ Shows (init panel)) (hq : Quiet t) (hc : t.change = false) :
    Shows t := by
  have h := tracks_run hf ht hp
  unfold Tracks at h
  rw [hq.1] at h
  rcases h.2 with h | h | h
  · rw [hc] at h
    cases h
  · have := hq.2
    omega
  · exact h

/-- Pixels sent with nothing in between. -/
theorem exec_writeGram (delay : Nat) (hw : s.worker = .writeGram k) (hg : s.gram = k % pixels)
    (hk : k + n ≤ pixels) :
    ∃ panel, exec (step delay) s (List.replicate n .update) =
        some { s with panel := panel, gram := (k + n) % pixels, worker := .writeGram (k + n) } ∧
      ∀ i < k, panel i = s.panel i := by
  induction n generalizing s k with
  | zero =>
    refine ⟨s.panel, ?_, fun _ _ => rfl⟩
    rw [Nat.add_zero, ← hg, ← hw]
    rfl
  | succ n ih =>
    have hlt : k < pixels := by omega
    let u : State :=
      { s.writeData (writePixel (pixelAt s.buffer k)) with worker := .writeGram (k + 1) }
    have hstep : step delay s .update = some u := by
      show s.updateStep delay = _
      unfold State.updateStep
      rw [hw]
      exact if_pos hlt
    have hgram : u.gram = (k + 1) % pixels := by
      show (s.gram + 1) % (xRes * yRes) = _
      rw [hg, ← pixels_eq, Nat.mod_add_mod]
    obtain ⟨panel, he, hpanel⟩ := ih (s := u) (k := k + 1) rfl hgram (by omega)
    refine ⟨panel, ?_, fun i hi => ?_⟩
    · rw [List.replicate_succ, exec_cons_of_step hstep, he, Nat.add_right_comm]
      rfl
    · rw [hpanel i (by omega)]
      show Function.update s.panel s.gram _ i = _
      rw [hg, Nat.mod_eq_of_lt hlt, Function.update_of_ne (by omega)]

/-- A transfer that is not disturbed clears the flag, and its update ends. -/
theorem exec_transfer (delay : Nat) (hw : s.worker = .writeGram k) (hg : s.gram = k % pixels)
    (hk : k ≤ pixels) :
    ∃ n t, exec (step delay) s (List.replicate n .update) = some t ∧ t.worker = .idle ∧
      t.drawings = s.drawings ∧ t.change = false ∧ t.buffer = s.buffer ∧
      ∀ i < k, t.panel i = s.panel i := by
  obtain ⟨panel, he, hpanel⟩ :=
    exec_writeGram delay (n := pixels - k) hw hg (by omega)
  rw [Nat.add_sub_cancel' hk] at he
  let v : State := { s with panel := panel, gram := pixels % pixels, worker := .writeGram pixels }
  let u : State := { v with change := false, worker := .testUpdating }
  have hclear : step delay v .update = some u := by
    show v.updateStep delay = _
    unfold State.updateStep
    exact if_neg (Nat.lt_irrefl pixels)
  have hend : ∃ m t, exec (step delay) u (List.replicate m .update) = some t ∧ t.worker = .idle ∧
      t.drawings = u.drawings ∧ t.change = u.change ∧ t.buffer = u.buffer ∧ t.panel = u.panel := by
    cases hu : s.updating with
    | false =>
      have ht : step delay u .update = some u.finish := by
        show State.updateStep delay u = _
        unfold State.updateStep
        exact if_neg (Bool.eq_false_iff.mp hu)
      exact ⟨1, u.finish, exec_cons_of_step ht [], rfl, rfl, rfl, rfl, rfl⟩
    | true =>
      have ht : step delay u .update = some { u with worker := .queue } := by
        show State.updateStep delay u = _
        unfold State.updateStep
        exact if_pos hu
      obtain ⟨timer, queued, hq⟩ := State.queueDelayedWork_eq delay { u with worker := .queue }
      have ht' : step delay { u with worker := .queue } .update =
          some (State.finish { u with worker := .queue, timer := timer, queued := queued }) :=
        congrArg (fun v => some (State.finish v)) hq
      exact ⟨2, _, (exec_cons_of_step ht _).trans (exec_cons_of_step ht' []), rfl, rfl, rfl, rfl,
        rfl⟩
  obtain ⟨m, t, ht, hidle, hd, hc, hb, hp⟩ := hend
  refine ⟨pixels - k + (m + 1), t, ?_, hidle, hd, hc, hb, fun i hi => ?_⟩
  · rw [← List.replicate_append_replicate, exec_append_of_exec he, List.replicate_succ,
      exec_cons_of_step hclear]
    exact ht
  · rw [hp]
    exact hpanel i hi

/-- A drawing that sets the flag with a change behind the transfer is lost, when it is the
only one in progress and none begins before the update ends. -/
theorem flag_lost (delay : Nat) {i : Nat} (hw : s.worker = .writeGram k) (hg : s.gram = k % pixels)
    (hk : k ≤ pixels) (hd : s.drawings = 1) (hi : i < k)
    (hne : s.panel i ≠ writePixel (pixelAt s.buffer i)) :
    ∃ n t, exec (step delay) s (.setChange :: List.replicate n .update) = some t ∧ Quiet t ∧
      t.change = false ∧ ¬ Shows t := by
  have hstep : step delay s .setChange = some { s with change := true, drawings := 0 } := by
    show (if 0 < s.drawings then _ else _) = _
    rw [hd]
    rfl
  obtain ⟨n, t, ht, hidle, hd', hc, hb, hp⟩ :=
    exec_transfer delay (s := { s with change := true, drawings := 0 }) hw hg hk
  refine ⟨n, t, by rw [exec_cons_of_step hstep]; exact ht, ⟨hidle, hd'⟩, hc, fun h => hne ?_⟩
  have hs := h i (Nat.lt_of_lt_of_le hi hk)
  rw [hb, hp i hi] at hs
  exact hs

/-- A drawing, and the update enabled behind it up to its transfer. -/
def drawOnce : List Action :=
  [.draw, .store 0 1, .setChange, .callEnable, .call, .call, .expire, .run, .update]

theorem drawOnce_shown :
    ∃ n t, exec (step 10) (init fun _ => 0) (drawOnce ++ List.replicate n .update) = some t ∧
      pixelAt t.buffer 0 = 1 ∧ Shows t := by
  obtain ⟨s, hs, hw, hg, hb⟩ : ∃ s, exec (step 10) (init fun _ => 0) drawOnce = some s ∧
      s.worker = .writeGram 0 ∧ s.gram = 0 ∧ s.drawings = 0 ∧ pixelAt s.buffer 0 = 1 :=
    ⟨_, rfl, rfl, rfl, rfl, rfl⟩
  obtain ⟨n, t, ht, hidle, hd, hc, hbuf, _⟩ :=
    exec_transfer 10 hw (by rw [hg, Nat.zero_mod]) (Nat.zero_le _)
  have hrun : exec (step 10) (init fun _ => 0) (drawOnce ++ List.replicate n .update) = some t := by
    rw [exec_append_of_exec hs]
    exact ht
  have hf : Along FlagInTime (step 10) (init fun _ => 0)
      (drawOnce ++ List.replicate n .update) := by
    refine ⟨nofun, fun u hu => ⟨nofun, fun v hv => ⟨fun _ k hk => ?_, fun w _ => ?_⟩⟩⟩
    · cases hu
      cases hv
      cases hk
    · apply along_of_mem
      intro a ha _ heq
      subst heq
      simp at ha
  refine ⟨n, t, hrun, by rw [hbuf]; exact hb.2, ?_⟩
  exact drawing_not_lost hf hrun (Or.inl (by simp [drawOnce])) ⟨hidle, hd.trans hb.1⟩ hc

/-- A second drawing of the same pixel ends while the first one is being transferred: the
flag is clear and nothing is in progress, and the panel shows the first drawing. -/
theorem second_drawing_lost :
    ∃ n t, exec (step 10) (init fun _ => writePixel 0)
        (drawOnce ++ [.update, .draw, .store 0 2] ++ .setChange :: List.replicate n .update) =
          some t ∧
      Shows (init fun _ => writePixel 0) ∧ Quiet t ∧ t.change = false ∧ ¬ Shows t := by
  obtain ⟨s, hs, hw, hg, hd, hne⟩ : ∃ s,
      exec (step 10) (init fun _ => writePixel 0) (drawOnce ++ [.update, .draw, .store 0 2]) =
        some s ∧ s.worker = .writeGram 1 ∧ s.gram = 1 % pixels ∧ s.drawings = 1 ∧
      s.panel 0 ≠ writePixel (pixelAt s.buffer 0) :=
    ⟨_, rfl, rfl, rfl, rfl, by decide⟩
  obtain ⟨n, t, ht, hq, hc, hlost⟩ :=
    flag_lost 10 hw hg (by decide) hd (Nat.zero_lt_one) hne
  refine ⟨n, t, ?_, fun _ _ => rfl, hq, hc, hlost⟩
  rw [exec_append_of_exec hs]
  exact ht

end Plak1a.Lcd.Refresh
