import Plak1a.Camera.TxFifo

/-!
# All or nothing

`uart0Write` compares its count with the free space once, before the first byte. Only
the task fills the ring and the handler does nothing but empty it, so that the space
which was there is still there for each of the bytes, wherever the handler runs.
-/

namespace Plak1a.Camera.TxWrite

open Plak1a.Lib.Run
open Plak1a.Camera.UartTx Plak1a.Camera.TxFifo

/-- The results `uart0Write` has returned. -/
def results (es : List Event) : List Int :=
  es.filterMap fun | .write result => some result | _ => none

/-- The bytes a call of `uart0Write` that has found space has still to commit. -/
def left : Pc → Option (List UInt8)
  | .write buffer => some buffer
  | .putch ch (.write buffer) => some (ch :: buffer)
  | .maskTx ch _ (.write buffer) => some (ch :: buffer)
  | .testRunning ch _ (.write buffer) => some (ch :: buffer)
  | .store ch _ (.write buffer) => some (ch :: buffer)
  | .publish ch _ (.write buffer) => some (ch :: buffer)
  | .setRunning ch (.write buffer) => some (ch :: buffer)
  | .writeThr ch (.write buffer) => some (ch :: buffer)
  | .unmaskTx _ (.write buffer) => some buffer
  | .putchReturn _ result (.write buffer) => if 0 ≤ result then some buffer else none
  | _ => none

/-- A bound on the accesses a call of `uart0Write` has still to make. -/
def remaining : Pc → Nat
  | .writeSpace buffer => 2 + 8 * buffer.length
  | .write buffer => 1 + 8 * buffer.length
  | .putch _ (.write buffer) => 8 + 8 * buffer.length
  | .maskTx _ _ (.write buffer) => 7 + 8 * buffer.length
  | .testRunning _ _ (.write buffer) => 6 + 8 * buffer.length
  | .store _ _ (.write buffer) => 5 + 8 * buffer.length
  | .publish _ _ (.write buffer) => 4 + 8 * buffer.length
  | .setRunning _ (.write buffer) => 5 + 8 * buffer.length
  | .writeThr _ (.write buffer) => 4 + 8 * buffer.length
  | .unmaskTx _ (.write buffer) => 3 + 8 * buffer.length
  | .putchReturn _ _ (.write buffer) => 2 + 8 * buffer.length
  | _ => 0

attribute [simp] left remaining

/-- How far the call of `uart0Write` made in state `s` has come in state `t`. -/
inductive Phase (s : State) (buffer : List UInt8) (t : State) : Prop
  | testing (pc : t.pc = .writeSpace buffer) (bytes : committed t.events = committed s.events)
      (running : results t.events = results s.events) (space : uart0Space s ≤ uart0Space t)
  | writing (bs : List UInt8) (pc : left t.pc = some bs)
      (bytes : committed t.events ++ bs = committed s.events ++ buffer)
      (running : results t.events = results s.events) (space : bs.length ≤ uart0Space t)
  | refused (pc : t.pc = .idle) (bytes : committed t.events = committed s.events)
      (result : results t.events = results s.events ++ [-1])
      (space : uart0Space s < buffer.length)
  | accepted (pc : t.pc = .idle) (bytes : committed t.events = committed s.events ++ buffer)
      (result : results t.events = results s.events ++ [0])

variable {s t u : State} {q q' : List UInt8} {buffer bs : List UInt8} {es : List Event} {a : Act}

theorem results_append (es es' : List Event) : results (es ++ es') = results es ++ results es' :=
  List.filterMap_append

theorem uart0Space_eq (h : Inv s q) : uart0Space s = uart0TxBufferSize - 1 - q.length := by
  have hl := h.ring.length_lt
  have he := h.ring.extract_lt
  have hi := h.ring.insert_eq
  rw [Plak1a.Lib.Ring.mod_of_lt_two_mul (by omega)] at hi
  simp only [uart0Space]
  split at hi <;> split <;> omega

/-- Only commits make a queue longer. -/
theorem fifo_length (h : fifo q es = some q') :
    q'.length ≤ q.length + (committed es).length := by
  induction es generalizing q with
  | nil =>
    obtain rfl := Option.some.inj h
    exact Nat.le_add_right _ _
  | cons e es ih =>
    cases e with
    | commit ch =>
      have hle := ih h
      rw [List.length_append, List.length_singleton] at hle
      show _ ≤ q.length + ((committed es).length + 1)
      omega
    | thr ch full =>
      cases q with
      | nil => cases h
      | cons x q =>
        simp only [fifo] at h
        split at h
        · have hle := ih h
          rw [List.length_cons]
          show _ ≤ q.length + 1 + (committed es).length
          omega
        · cases h
    | flush =>
      have hle := ih h
      rw [List.length_nil] at hle
      show _ ≤ q.length + (committed es).length
      omega
    | putch ch result => exact ih h
    | puts string => exact ih h
    | write result => exact ih h

/-- The space shrinks by the bytes committed at most. -/
theorem space_le (h : Inv s q) (h' : Inv t q') (he : t.events = s.events ++ es) :
    uart0Space s ≤ uart0Space t + (committed es).length := by
  have hq := h'.queue
  rw [he, fifo_append_of_fifo h.queue] at hq
  have hlen := fifo_length hq
  rw [uart0Space_eq h, uart0Space_eq h']
  omega

/-- One access in a call of `uart0Write` that has still `bs` to commit. -/
structure Advances (s t : State) (bs : List UInt8) (es : List Event) (bs' : List UInt8) : Prop where
  pc : left t.pc = some bs'
  events : t.events = s.events ++ es
  bytes : bs = committed es ++ bs'
  running : results es = []
  decreases : remaining t.pc < remaining s.pc

theorem advances_silent (hpc : left t.pc = some bs) (he : t.events = s.events)
    (hlt : remaining t.pc < remaining s.pc) : ∃ es bs', Advances s t bs es bs' :=
  ⟨[], bs, hpc, by rw [he, List.append_nil], rfl, rfl, hlt⟩

section Points

variable {ch : UInt8} {temp : Nat} {result : Int}

/-- `uart0Putch` finds the ring full for no byte the space was enough for. -/
theorem advances_putch (h : Inv s q) (hpc : s.pc = .putch ch (.write buffer))
    (hroom : ((ch :: buffer).length : Int) ≤ uart0Space s) :
    ∃ es bs', Advances s (task s) (ch :: buffer) es bs' := by
  have hnot : (s.uart0TxInsertIdx + 1) % uart0TxBufferSize ≠ s.uart0TxExtractIdx := by
    intro hfull
    have hlen := h.ring.succ_insert_eq_extract_iff.mp hfull
    rw [uart0Space_eq h, List.length_cons] at hroom
    omega
  have ht : task s =
      { s with pc := .maskTx ch ((s.uart0TxInsertIdx + 1) % uart0TxBufferSize)
                      (.write buffer) } := by
    simp only [task, hpc, if_neg hnot]
  rw [ht]
  exact advances_silent rfl rfl (by simp only [hpc, remaining]; omega)

theorem advances_maskTx (hpc : s.pc = .maskTx ch temp (.write buffer)) :
    ∃ es bs', Advances s (task s) (ch :: buffer) es bs' := by
  have ht : task s = { s with etbei := false, pc := .testRunning ch temp (.write buffer) } := by
    simp only [task, hpc]
  rw [ht]
  exact advances_silent rfl rfl (by simp only [hpc, remaining]; omega)

theorem advances_testRunning (hpc : s.pc = .testRunning ch temp (.write buffer)) :
    ∃ es bs', Advances s (task s) (ch :: buffer) es bs' := by
  apply advances_silent
  · simp only [task, hpc]
    split <;> rfl
  · simp only [task, hpc]
    split <;> rfl
  · simp only [task, hpc]
    split <;> simp only [remaining] <;> omega

theorem advances_store (hpc : s.pc = .store ch temp (.write buffer)) :
    ∃ es bs', Advances s (task s) (ch :: buffer) es bs' := by
  have ht : task s = { s with
      uart0TxBuffer := Function.update s.uart0TxBuffer s.uart0TxInsertIdx ch
      pc := .publish ch temp (.write buffer) } := by
    simp only [task, hpc]
  rw [ht]
  exact advances_silent rfl rfl (by simp only [hpc, remaining]; omega)

theorem advances_publish (hpc : s.pc = .publish ch temp (.write buffer)) :
    ∃ es bs', Advances s (task s) (ch :: buffer) es bs' := by
  refine ⟨[.commit ch], buffer, ?_, ?_, rfl, rfl, ?_⟩
  · simp only [task, hpc]
    rfl
  · simp only [task, hpc]
  · simp only [task, hpc, remaining]
    omega

theorem advances_setRunning (hpc : s.pc = .setRunning ch (.write buffer)) :
    ∃ es bs', Advances s (task s) (ch :: buffer) es bs' := by
  have ht : task s = { s with uart0TxRunning := true, pc := .writeThr ch (.write buffer) } := by
    simp only [task, hpc]
  rw [ht]
  exact advances_silent rfl rfl (by simp only [hpc, remaining]; omega)

theorem advances_writeThr (hpc : s.pc = .writeThr ch (.write buffer)) :
    ∃ es bs', Advances s (task s) (ch :: buffer) es bs' := by
  refine ⟨[.commit ch, .thr ch s.thrFull], buffer, ?_, ?_, rfl, rfl, ?_⟩
  · simp only [task, hpc]
    rfl
  · simp only [task, hpc]
  · simp only [task, hpc, remaining]
    omega

/-- The result of `uart0Putch` is the byte, which is not negative. -/
theorem advances_unmaskTx (hpc : s.pc = .unmaskTx ch (.write buffer)) :
    ∃ es bs', Advances s (task s) buffer es bs' := by
  have ht : task s = { s with etbei := true, pc := .putchReturn ch ch.toNat (.write buffer) } := by
    simp only [task, hpc]
  rw [ht]
  have hleft : left (.putchReturn ch ch.toNat (.write buffer)) = some buffer := by
    rw [left, if_pos (Int.natCast_nonneg ch.toNat)]
  exact advances_silent hleft rfl (by simp only [hpc, remaining]; omega)

theorem advances_putchReturn (hpc : s.pc = .putchReturn ch result (.write buffer))
    (hr : 0 ≤ result) : ∃ es bs', Advances s (task s) buffer es bs' := by
  refine ⟨[.putch ch result], buffer, ?_, ?_, rfl, rfl, ?_⟩
  · simp only [task, hpc, resume, if_pos hr]
    rfl
  · simp only [task, hpc, resume, if_pos hr]
  · simp only [task, hpc, resume, if_pos hr, remaining]
    omega

theorem advances_write (hpc : s.pc = .write (ch :: buffer)) :
    ∃ es bs', Advances s (task s) (ch :: buffer) es bs' := by
  have ht : task s = { s with pc := .putch ch (.write buffer) } := by
    simp only [task, hpc]
  rw [ht]
  exact advances_silent rfl rfl (by simp only [hpc, remaining, List.length_cons]; omega)

end Points

/-- The call goes on to commit its bytes, or it has none left and returns 0. -/
theorem task_writing (h : Inv s q) (hl : left s.pc = some bs) (hroom : bs.length ≤ uart0Space s) :
    (∃ es bs', Advances s (task s) bs es bs') ∨
      (bs = [] ∧ (task s).pc = .idle ∧ (task s).events = s.events ++ [.write 0] ∧
        0 < remaining s.pc) := by
  cases hpc : s.pc <;> rw [hpc] at hl
  case write buffer =>
    cases hl
    cases bs with
    | nil =>
      right
      rw [task, hpc]
      exact ⟨rfl, rfl, rfl, by decide⟩
    | cons ch buffer => exact .inl (advances_write hpc)
  case putchReturn ch result caller =>
    cases caller with
    | write buffer =>
      by_cases hr : 0 ≤ result
      · rw [left, if_pos hr] at hl
        cases hl
        exact .inl (advances_putchReturn hpc hr)
      · rw [left, if_neg hr] at hl
        cases hl
    | _ => cases hl
  case putch ch caller =>
    cases caller <;> cases hl
    exact .inl (advances_putch h hpc hroom)
  case maskTx ch temp caller =>
    cases caller <;> cases hl
    exact .inl (advances_maskTx hpc)
  case testRunning ch temp caller =>
    cases caller <;> cases hl
    exact .inl (advances_testRunning hpc)
  case store ch temp caller =>
    cases caller <;> cases hl
    exact .inl (advances_store hpc)
  case publish ch temp caller =>
    cases caller <;> cases hl
    exact .inl (advances_publish hpc)
  case setRunning ch caller =>
    cases caller <;> cases hl
    exact .inl (advances_setRunning hpc)
  case writeThr ch caller =>
    cases caller <;> cases hl
    exact .inl (advances_writeThr hpc)
  case unmaskTx ch caller =>
    cases caller <;> cases hl
    exact .inl (advances_unmaskTx hpc)
  all_goals cases hl

theorem phase_task (h : Inv t q) (hu : Inv (task t) q') (hp : Phase s buffer t)
    (hbusy : t.pc ≠ .idle) :
    Phase s buffer (task t) ∧ remaining (task t).pc + 1 ≤ remaining t.pc := by
  cases hp with
  | testing hpc hbytes hrun hspace =>
    by_cases hgt : (buffer.length : Int) > uart0Space t
    · simp only [task, hpc, if_pos hgt, remaining]
      constructor
      · apply Phase.refused rfl
        · rw [committed_append, hbytes]
          exact List.append_nil _
        · rw [results_append, hrun]
          rfl
        · exact Int.lt_of_le_of_lt hspace hgt
      · omega
    · simp only [task, hpc, if_neg hgt, remaining]
      constructor
      · exact .writing buffer rfl (by rw [hbytes]) hrun (Int.not_lt.mp hgt)
      · omega
  | writing bs hpc hbytes hrun hspace =>
    rcases task_writing h hpc hspace with ⟨es, bs', hadv⟩ | ⟨rfl, hidle, hev, hpos⟩
    · constructor
      · apply Phase.writing bs' hadv.pc
        · rw [hadv.events, committed_append, List.append_assoc, ← hadv.bytes, hbytes]
        · rw [hadv.events, results_append, hadv.running, List.append_nil, hrun]
        · have hle := space_le h hu hadv.events
          have hlen := congrArg List.length hadv.bytes
          rw [List.length_append] at hlen
          omega
      · exact hadv.decreases
    · constructor
      · apply Phase.accepted hidle
        · rw [hev, committed_append, ← hbytes]
          rfl
        · rw [hev, results_append, hrun]
          rfl
      · rw [hidle]
        exact hpos
  | refused hpc => exact absurd hpc hbusy
  | accepted hpc => exact absurd hpc hbusy

theorem phase_other (h : Inv t q) (hu : Inv u q') (hp : Phase s buffer t) (hpc' : u.pc = t.pc)
    (hev : u.events = t.events ++ es) (hnone : committed es = []) (hres : results es = []) :
    Phase s buffer u := by
  have hcommitted : committed u.events = committed t.events := by
    rw [hev, committed_append, hnone, List.append_nil]
  have hresults : results u.events = results t.events := by
    rw [hev, results_append, hres, List.append_nil]
  have hspace' : uart0Space t ≤ uart0Space u := by
    have hle := space_le h hu hev
    rw [hnone, List.length_nil] at hle
    omega
  cases hp with
  | testing hpc hbytes hrun hspace =>
    exact .testing (hpc'.trans hpc) (hcommitted.trans hbytes) (hresults.trans hrun)
      (Int.le_trans hspace hspace')
  | writing bs hpc hbytes hrun hspace =>
    exact .writing bs (by rw [hpc', hpc]) (by rw [hcommitted, hbytes]) (hresults.trans hrun)
      (Int.le_trans hspace hspace')
  | refused hpc hbytes hres hspace =>
    exact .refused (hpc'.trans hpc) (hcommitted.trans hbytes) (hresults.trans hres) hspace
  | accepted hpc hbytes hres =>
    exact .accepted (hpc'.trans hpc) (hcommitted.trans hbytes) (hresults.trans hres)

/-- Every step of a call of `uart0Write` keeps its phase, and the task comes closer to its end. -/
theorem phase_step (h : Inv t q) (hp : Phase s buffer t) (hcall : ∀ c, a ≠ .call c)
    (hs : step t a = some u) :
    Phase s buffer u ∧ remaining u.pc + (if a = .task then 1 else 0) ≤ remaining t.pc := by
  obtain ⟨q', hu⟩ := inv_step h hs
  by_cases ha : a = .task
  · subst ha
    simp only [step, Option.ite_none_right_eq_some, Option.some.injEq] at hs
    obtain ⟨⟨_, hbusy⟩, rfl⟩ := hs
    exact phase_task h hu hp hbusy
  · obtain ⟨hpc, es, hev, hes⟩ := other_step hs ha hcall
    have hnone : committed es = [] ∧ results es = [] := by
      rcases hes with rfl | ⟨ch, full, rfl⟩ <;> exact ⟨rfl, rfl⟩
    refine ⟨phase_other h hu hp hpc hev hnone.1 hnone.2, Nat.le_of_eq ?_⟩
    rw [if_neg ha, hpc, Nat.add_zero]

/-- From the call on the task makes as many accesses as were left at most. -/
theorem phase_run {as : List Act} (h : Inv t q) (hp : Phase s buffer t)
    (hcall : ∀ c, .call c ∉ as) (he : exec step t as = some u) :
    (∃ q', Inv u q') ∧ Phase s buffer u ∧
      remaining u.pc + as.countP (· = .task) ≤ remaining t.pc := by
  have hno : ∀ a ∈ as, ∀ _ : State, ∀ c, a ≠ .call c := by
    rintro a ha _ c rfl
    exact hcall c ha
  have hrun := variant_of_along (I := fun t => (∃ q, Inv t q) ∧ Phase s buffer t)
    (P := fun _ a => ∀ c, a ≠ .call c) (μ := fun t => remaining t.pc) (· = .task) ?_ ⟨⟨q, h⟩, hp⟩
    (along_of_mem hno t) he
  · exact ⟨hrun.1.1, hrun.1.2, hrun.2⟩
  · intro t a u ⟨⟨q, hq⟩, hp⟩ hcall hs
    obtain ⟨hp', hle⟩ := phase_step hq hp hcall hs
    refine ⟨⟨inv_step hq hs, hp'⟩, ?_⟩
    simpa only [decide_eq_true_eq] using hle

/-- A call of `uart0Write` made in any state that can be reached makes at most `2 + 8 * count`
accesses. When it has returned, its result is -1 and no byte was accepted, or 0 and all
were, in order; it is 0 if there was space for them at the call. -/
theorem uart0Write_all_or_nothing (buf : Nat → UInt8) (as₁ as₂ : List Act) (buffer : List UInt8)
    {s s' t : State} (h₁ : exec step (uart0Init buf) as₁ = some s)
    (hs : step s (.call (.uart0Write buffer)) = some s') (h₂ : exec step s' as₂ = some t)
    (hcall : ∀ c, .call c ∉ as₂) :
    as₂.countP (· = .task) ≤ 2 + 8 * buffer.length ∧
    (t.pc ≠ .idle → ∃ u, step t .task = some u ∨ step t .isr = some u) ∧
    (t.pc = .idle → ∃ r, results t.events = results s.events ++ [r] ∧
      (r = -1 ∧ accepted t.events = accepted s.events ∨
        r = 0 ∧ accepted t.events = accepted s.events ++ buffer) ∧
      (buffer.length ≤ uart0Space s → r = 0)) := by
  obtain ⟨q, h⟩ := inv_exec buf h₁
  obtain ⟨q', h'⟩ := inv_step h hs
  simp only [step, Option.ite_none_right_eq_some, Option.some.injEq] at hs
  obtain ⟨⟨_, hidle⟩, rfl⟩ := hs
  obtain ⟨⟨q₂, hq₂⟩, hphase, hcount⟩ :=
    phase_run h' (.testing rfl rfl rfl (Int.le_refl _)) hcall h₂
  refine ⟨Nat.le_trans (Nat.le_add_left _ _) hcount, ?_, ?_⟩
  · intro hbusy
    by_cases hisr : t.inIsr = true
    · exact ⟨uart0Isr t, Or.inr (if_pos hisr)⟩
    · exact ⟨task t, Or.inl (if_pos ⟨Bool.eq_false_iff.mpr hisr, hbusy⟩)⟩
  · intro hdone
    have hacc : committed s.events = accepted s.events := by
      rw [h.acceptance, hidle]
      exact List.append_nil _
    have hacc₂ : committed t.events = accepted t.events := by
      rw [hq₂.acceptance, hdone]
      exact List.append_nil _
    rw [← hacc, ← hacc₂]
    cases hphase with
    | testing hpc =>
      rw [hdone] at hpc
      cases hpc
    | writing bs hpc =>
      rw [hdone] at hpc
      cases hpc
    | refused _ hbytes hres hspace =>
      exact ⟨-1, hres, Or.inl ⟨rfl, hbytes⟩, fun hle => absurd hle (Int.not_le.mpr hspace)⟩
    | accepted _ hbytes hres => exact ⟨0, hres, Or.inr ⟨rfl, hbytes⟩, fun _ => rfl⟩

/-- Three bytes, the first of which goes straight to THR; the handler sends the second one before
the third one is queued, and the third one after the return. -/
def threeBytes : List Act :=
  List.replicate 17 .task ++ [.thrEmpties, .irq, .isr, .isr] ++ List.replicate 9 .task ++
    [.thrEmpties, .irq, .isr, .isr]

theorem uart0Write_three_bytes : ∃ t,
    exec step { uart0Init (fun _ => 0) with pc := .writeSpace [7, 8, 9] } threeBytes = some t ∧
      threeBytes.countP (· = .task) ≤ 2 + 8 * 3 ∧ results t.events = [0] ∧
      accepted t.events = [7, 8, 9] ∧ written t.events = [7, 8, 9] := by
  have hrun : (exec step { uart0Init (fun _ => 0) with pc := .writeSpace [7, 8, 9] }
      threeBytes).map (fun t => (t.pc, written t.events)) = some (.idle, [7, 8, 9]) := by decide
  obtain ⟨t, ht, hlog⟩ := Option.map_eq_some_iff.mp hrun
  obtain ⟨hidle, hwritten⟩ := Prod.mk.inj hlog
  have hcall : ∀ c, .call c ∉ threeBytes := by simp [threeBytes]
  obtain ⟨hcount, _, hdone⟩ :=
    uart0Write_all_or_nothing (fun _ => 0) [] threeBytes [7, 8, 9] rfl rfl ht hcall
  obtain ⟨r, hresult, hbytes, hspace⟩ := hdone hidle
  obtain rfl : r = 0 := hspace (by decide)
  refine ⟨t, ht, hcount, hresult, ?_, hwritten⟩
  rcases hbytes with ⟨hr, _⟩ | ⟨_, hall⟩
  · exact absurd hr (by decide)
  · exact hall

end Plak1a.Camera.TxWrite
