import Plak1a.Camera.UartTx

/-!
# The transmit path is a queue in every reachable state

The running flag and the interrupt mask carry the argument: while the flag is
clear nothing is queued and THR is empty, and between masking and unmasking the
handler cannot move, so the room found by `uart0Putch` and the state of the flag
it tested are still valid when it uses them. `Inv` states this for every point of
the task and every point of the handler.
-/

namespace Plak1a.Camera.TxFifo

open Plak1a.Lib
open Plak1a.Lib.Run
open Plak1a.Lib.Ring (Holds)
open Plak1a.Camera.UartTx

theorem fifo_append (q : List UInt8) (es es' : List Event) :
    fifo q (es ++ es') = (fifo q es).bind fun q' => fifo q' es' := by
  induction es generalizing q with
  | nil => rfl
  | cons e es ih =>
    cases e with
    | thr ch full =>
      cases q with
      | nil => rfl
      | cons x q =>
        simp only [List.cons_append, fifo]
        split
        · exact ih q
        · rfl
    | _ => exact ih _

theorem fifo_append_of_fifo {es es' : List Event} {q q' : List UInt8} (h : fifo q es = some q') :
    fifo q (es ++ es') = fifo q' es' := by
  rw [fifo_append, h, Option.bind_some]

/-- THR receives queued bytes in order, each at most once. -/
theorem fifo_written_sublist {es : List Event} {q q' : List UInt8} (h : fifo q es = some q') :
    (written es).Sublist (q ++ committed es) := by
  induction es generalizing q with
  | nil => exact List.nil_sublist _
  | cons e es ih =>
    cases e with
    | commit ch => simpa [written, committed] using ih h
    | thr ch full =>
      cases q with
      | nil => cases h
      | cons x q =>
        simp only [fifo] at h
        split at h
        · subst x
          simpa [written, committed] using ih h
        · cases h
    | flush => exact (ih h).trans (List.sublist_append_right q _)
    | putch ch result => exact ih h
    | puts string => exact ih h
    | write result => exact ih h

/-- Without a flush every byte is written or still queued. -/
theorem fifo_complete {es : List Event} {q q' : List UInt8} (h : fifo q es = some q')
    (hf : .flush ∉ es) : q ++ committed es = written es ++ q' := by
  induction es generalizing q with
  | nil =>
    obtain rfl := Option.some.inj h
    exact List.append_nil q
  | cons e es ih =>
    have hf' : .flush ∉ es := fun hm => hf (List.mem_cons_of_mem _ hm)
    cases e with
    | commit ch => simpa [written, committed] using ih h hf'
    | thr ch full =>
      cases q with
      | nil => cases h
      | cons x q =>
        simp only [fifo] at h
        split at h
        · subst x
          simpa [written, committed] using ih h hf'
        · cases h
    | flush => exact absurd List.mem_cons_self hf
    | putch ch result => exact ih h hf'
    | puts string => exact ih h hf'
    | write result => exact ih h hf'

/-- The index `uart0Putch` has computed is still the next one and leaves a free slot. -/
def Room (s : State) (q : List UInt8) (temp : Nat) : Prop :=
  temp = (s.uart0TxInsertIdx + 1) % uart0TxBufferSize ∧ q.length + 1 < uart0TxBufferSize

/-- What the task may rely on before its next access. -/
def PcInv (s : State) (q : List UInt8) : Prop :=
  match s.pc with
  | .maskTx _ temp _ => Room s q temp
  | .testRunning _ temp _ => Room s q temp ∧ s.etbei = false
  | .store _ temp _ => Room s q temp ∧ s.etbei = false ∧ s.uart0TxRunning = true
  | .publish ch temp _ => Room s q temp ∧ s.etbei = false ∧ s.uart0TxRunning = true ∧
      s.uart0TxBuffer s.uart0TxInsertIdx = ch
  | .setRunning _ _ => s.etbei = false ∧ s.uart0TxRunning = false
  | .writeThr _ _ => s.etbei = false ∧ s.uart0TxRunning = true ∧ q = [] ∧ s.thrFull = false
  | .unmaskTx _ _ => s.etbei = false
  | .flushIndices => s.etbei = false
  | _ => True

structure Inv (s : State) (q : List UInt8) : Prop where
  ring : Holds uart0TxBufferSize s.uart0TxBuffer s.uart0TxExtractIdx s.uart0TxInsertIdx q
  queue : fifo [] s.events = some q
  acceptance : committed s.events = accepted s.events ++ pending s.pc
  no_overwrite : ∀ ch full, .thr ch full ∈ s.events → full = false
  stopped : s.uart0TxRunning = false → q = [] ∧ s.thrFull = false
  masked : s.inIsr = true → s.etbei = true
  at_pc : PcInv s q

theorem inv_uart0Init (buf : Nat → UInt8) : Inv (uart0Init buf) [] where
  ring := Ring.holds_nil (by decide : 0 < uart0TxBufferSize)
  queue := rfl
  acceptance := rfl
  no_overwrite := by simp [uart0Init]
  stopped := fun _ => ⟨rfl, rfl⟩
  masked := by simp [uart0Init]
  at_pc := trivial

variable {s t : State} {q : List UInt8}

theorem Inv.faithful (h : Inv s q) : Faithful s := by
  have hq : queued s = q := h.ring.contents_eq
  have hw := fifo_written_sublist h.queue
  refine ⟨by rw [hq]; exact h.queue, h.acceptance, hw, ?_, ?_, h.no_overwrite, ?_⟩
  · rw [hq]
    exact fifo_complete h.queue
  · intro es₁ es₂ he
    have h₂ := h.queue
    rw [he, fifo_append] at h₂
    obtain ⟨q₁, _, hfl⟩ := Option.bind_eq_some_iff.mp h₂
    rw [hq]
    exact ⟨fifo_written_sublist (q := []) hfl, fifo_complete (q := []) hfl⟩
  · intro hr
    exact h.ring.insert_eq_extract_iff.mpr (h.stopped hr).1

/-- Appending events that are neither commits nor writes nor flushes. -/
theorem queue_log {es es' : List Event} (h : fifo [] es = some q) (hn : fifo q es' = some q) :
    fifo [] (es ++ es') = some q := by
  rw [fifo_append_of_fifo h, hn]

theorem committed_append (es es' : List Event) :
    committed (es ++ es') = committed es ++ committed es' := List.filterMap_append

theorem accepted_append (es es' : List Event) :
    accepted (es ++ es') = accepted es ++ accepted es' := List.filterMap_append

theorem no_overwrite_append {es es' : List Event}
    (h : ∀ ch full, .thr ch full ∈ es → full = false)
    (h' : ∀ ch full, .thr ch full ∈ es' → full = false) :
    ∀ ch full, .thr ch full ∈ es ++ es' → full = false := by
  intro ch full hm
  rcases List.mem_append.mp hm with hm | hm
  · exact h ch full hm
  · exact h' ch full hm

/-- The handler removes the oldest byte, or finds nothing queued and stops. -/
theorem inv_uart0Isr (h : Inv s q) (hisr : s.inIsr = true) : ∃ q', Inv (uart0Isr s) q' := by
  have hon := h.masked hisr
  by_cases hfull : s.thrFull = true
  · have hs : uart0Isr s = { s with inIsr := false } := by simp only [uart0Isr, if_pos hfull]
    rw [hs]
    exact ⟨q, h.ring, h.queue, h.acceptance, h.no_overwrite, h.stopped, by simp, h.at_pc⟩
  have hempty : s.thrFull = false := by simpa using hfull
  cases q with
  | nil =>
    have he : s.uart0TxInsertIdx = s.uart0TxExtractIdx := h.ring.insert_eq_extract_iff.mpr rfl
    have hs : uart0Isr s = { s with uart0TxRunning := false, inIsr := false } := by
      simp [uart0Isr, hempty, he]
    rw [hs]
    refine ⟨[], h.ring, h.queue, h.acceptance, h.no_overwrite, fun _ => ⟨rfl, hempty⟩, by simp, ?_⟩
    have hp := h.at_pc
    unfold PcInv at hp ⊢
    cases hpc : s.pc <;> simp only [hpc] at hp ⊢ <;> simp_all [Room]
  | cons x q =>
    have hne : s.uart0TxInsertIdx ≠ s.uart0TxExtractIdx := fun he =>
      List.cons_ne_nil x q (h.ring.insert_eq_extract_iff.mp he)
    have hs : uart0Isr s =
        { s with
          thrFull := true
          uart0TxExtractIdx := (s.uart0TxExtractIdx + 1) % uart0TxBufferSize
          events := s.events ++ [.thr x false] } := by
      simp [uart0Isr, hempty, hne, h.ring.front]
    rw [hs]
    refine ⟨q, h.ring.pop, ?_, ?_, no_overwrite_append h.no_overwrite (by simp), ?_, h.masked, ?_⟩
    · rw [fifo_append_of_fifo h.queue]
      simp [fifo]
    · rw [committed_append, accepted_append, h.acceptance]
      simp [committed, accepted]
    · intro hr
      exact absurd (h.stopped hr).1 (List.cons_ne_nil x q)
    · have hp := h.at_pc
      unfold PcInv at hp ⊢
      cases hpc : s.pc <;> simp only [hpc] at hp ⊢ <;> simp_all [Room]
      omega

/-- Continuing in the caller touches only the program counter and the log. -/
theorem inv_resume {caller : Caller} {ch : UInt8} {result : Int} (h : Inv s q)
    (hpc : s.pc = .putchReturn ch result caller) :
    Inv (resume { s with events := s.events ++ [.putch ch result] } ch result caller) q := by
  have hacc : committed (s.events ++ [.putch ch result]) =
      accepted (s.events ++ [.putch ch result]) := by
    rw [committed_append, accepted_append, h.acceptance, hpc]
    by_cases hr : 0 ≤ result <;> simp [committed, accepted, pending, hr]
  have hover : ∀ c full, .thr c full ∈ s.events ++ [.putch ch result] → full = false :=
    no_overwrite_append h.no_overwrite (by simp)
  have hqueue : fifo [] (s.events ++ [.putch ch result]) = some q := queue_log h.queue rfl
  cases caller with
  | direct =>
    refine ⟨h.ring, hqueue, ?_, hover, h.stopped, h.masked, trivial⟩
    simpa [pending, resume] using hacc
  | puts string =>
    by_cases hr : 0 ≤ result
    · simp only [resume, if_pos hr]
      refine ⟨h.ring, hqueue, ?_, hover, h.stopped, h.masked, trivial⟩
      simpa [pending] using hacc
    · simp only [resume, if_neg hr]
      refine ⟨h.ring, queue_log hqueue rfl, ?_, no_overwrite_append hover (by simp), h.stopped,
        h.masked, trivial⟩
      rw [committed_append, hacc, accepted_append (_ ++ _)]
      simp [committed, accepted, pending]
  | write buffer =>
    by_cases hr : 0 ≤ result
    · simp only [resume, if_pos hr]
      refine ⟨h.ring, hqueue, ?_, hover, h.stopped, h.masked, trivial⟩
      simpa [pending] using hacc
    · simp only [resume, if_neg hr]
      refine ⟨h.ring, queue_log hqueue rfl, ?_, no_overwrite_append hover (by simp), h.stopped,
        h.masked, trivial⟩
      rw [committed_append, hacc, accepted_append (_ ++ _)]
      simp [committed, accepted, pending]

/-- A step of the task that moves only the program counter and logs at most the
return of `uart0Puts` or `uart0Write`. -/
theorem Inv.move (h : Inv s q) (pc : Pc) (es : List Event) (hold : pending s.pc = [])
    (hnew : pending pc = []) (hes : ∀ e ∈ es, (∃ x, e = .puts x) ∨ ∃ r, e = .write r)
    (hp : PcInv { s with pc := pc, events := s.events ++ es } q) :
    Inv { s with pc := pc, events := s.events ++ es } q := by
  have hnone : committed es = [] ∧ accepted es = [] ∧ ∀ q, fifo q es = some q := by
    induction es with
    | nil => exact ⟨rfl, rfl, fun _ => rfl⟩
    | cons e es ih =>
      have h' := ih (fun e he => hes e (List.mem_cons_of_mem _ he)) hp
      rcases hes e List.mem_cons_self with ⟨x, rfl⟩ | ⟨r, rfl⟩ <;> exact h'
  refine ⟨h.ring, queue_log h.queue (hnone.2.2 q), ?_, ?_, h.stopped, h.masked, hp⟩
  · rw [committed_append, accepted_append, h.acceptance, hold, hnew, hnone.1, hnone.2.1]
  · refine no_overwrite_append h.no_overwrite ?_
    intro ch full hm
    rcases hes _ hm with ⟨x, hx⟩ | ⟨r, hr⟩
    · cases hx
    · cases hr

theorem Inv.goto (h : Inv s q) (pc : Pc) (hold : pending s.pc = []) (hnew : pending pc = [])
    (hp : PcInv { s with pc := pc } q) : Inv { s with pc := pc } q := by
  simpa only [List.append_nil] using h.move pc [] hold hnew (by simp) (by rwa [List.append_nil])

/-- Between two handler runs the task may clear ETBEI. -/
theorem Inv.mask (h : Inv s q) (hisr : s.inIsr = false) (pc : Pc) (hold : pending s.pc = [])
    (hnew : pending pc = []) (hp : PcInv { s with etbei := false, pc := pc } q) :
    Inv { s with etbei := false, pc := pc } q := by
  refine ⟨h.ring, h.queue, ?_, h.no_overwrite, h.stopped, ?_, hp⟩
  · show committed s.events = accepted s.events ++ pending pc
    rw [h.acceptance, hold, hnew]
  · show s.inIsr = true → false = true
    rw [hisr]
    exact id

/-- A ring that is not full leaves room for one more byte. -/
theorem Inv.room (h : Inv s q)
    (hfull : (s.uart0TxInsertIdx + 1) % uart0TxBufferSize ≠ s.uart0TxExtractIdx) :
    Room s q ((s.uart0TxInsertIdx + 1) % uart0TxBufferSize) := by
  have hl := h.ring.length_lt
  have ht := h.ring.succ_insert_eq_extract_iff
  exact ⟨rfl, by omega⟩

/-- Moving the insert index over the stored byte queues it. -/
theorem inv_publish {ch : UInt8} {temp : Nat} {caller : Caller} (h : Inv s q)
    (hpc : s.pc = .publish ch temp caller) : Inv (task s) (q ++ [ch]) := by
  have hp := h.at_pc
  have hacc := h.acceptance
  simp only [PcInv, hpc] at hp
  obtain ⟨⟨htemp, hroom⟩, hoff, hrun, hslot⟩ := hp
  simp only [task, hpc]
  refine ⟨?_, ?_, ?_, no_overwrite_append h.no_overwrite (by simp), ?_, h.masked, hoff⟩
  · have hpush := h.ring.push ch hroom
    rw [← hslot, Function.update_eq_self, hslot, ← htemp] at hpush
    exact hpush
  · rw [fifo_append_of_fifo h.queue]
    rfl
  · rw [committed_append, accepted_append, hacc, hpc]
    simp [committed, accepted, pending]
  · simp [hrun]

/-- With nothing queued and THR empty the byte takes the direct way. -/
theorem inv_writeThr {ch : UInt8} {caller : Caller} (h : Inv s q)
    (hpc : s.pc = .writeThr ch caller) : Inv (task s) [] := by
  have hp := h.at_pc
  have hacc := h.acceptance
  simp only [PcInv, hpc] at hp
  obtain ⟨hoff, hrun, rfl, hthr⟩ := hp
  simp only [task, hpc, hthr]
  refine ⟨h.ring, ?_, ?_, no_overwrite_append h.no_overwrite (by simp), ?_, h.masked, hoff⟩
  · rw [fifo_append_of_fifo h.queue]
    simp [fifo]
  · rw [committed_append, accepted_append, hacc, hpc]
    simp [committed, accepted, pending]
  · simp [hrun]

theorem inv_flushIndices (h : Inv s q) (hpc : s.pc = .flushIndices) : Inv (task s) [] := by
  have hacc := h.acceptance
  simp only [task, hpc]
  refine ⟨Ring.holds_nil (by decide : 0 < uart0TxBufferSize), ?_, ?_,
    no_overwrite_append h.no_overwrite (by simp), fun hr => ⟨rfl, (h.stopped hr).2⟩, h.masked,
    trivial⟩
  · rw [fifo_append_of_fifo h.queue]
    rfl
  · rw [committed_append, accepted_append, hacc, hpc]
    simp [committed, accepted, pending]

theorem inv_putch {ch : UInt8} {caller : Caller} (h : Inv s q) (hpc : s.pc = .putch ch caller) :
    Inv (task s) q := by
  by_cases hfull : (s.uart0TxInsertIdx + 1) % uart0TxBufferSize = s.uart0TxExtractIdx
  · simp only [task, hpc, if_pos hfull]
    exact h.goto _ (by rw [hpc]; rfl) rfl trivial
  · simp only [task, hpc, if_neg hfull]
    exact h.goto _ (by rw [hpc]; rfl) rfl (h.room hfull)

theorem inv_maskTx {ch : UInt8} {temp : Nat} {caller : Caller} (h : Inv s q)
    (hisr : s.inIsr = false) (hpc : s.pc = .maskTx ch temp caller) : Inv (task s) q := by
  have hp := h.at_pc
  simp only [PcInv, hpc] at hp
  simp only [task, hpc]
  exact h.mask hisr _ (by rw [hpc]; rfl) rfl ⟨hp, rfl⟩

/-- The flag that is tested cannot change before it is used. -/
theorem inv_testRunning {ch : UInt8} {temp : Nat} {caller : Caller} (h : Inv s q)
    (hpc : s.pc = .testRunning ch temp caller) : Inv (task s) q := by
  have hp := h.at_pc
  simp only [PcInv, hpc] at hp
  by_cases hr : s.uart0TxRunning = true
  · simp only [task, hpc, if_pos hr]
    exact h.goto _ (by rw [hpc]; rfl) rfl ⟨hp.1, hp.2, hr⟩
  · simp only [task, hpc, if_neg hr]
    exact h.goto _ (by rw [hpc]; rfl) rfl ⟨hp.2, by simpa using hr⟩

theorem inv_store {ch : UInt8} {temp : Nat} {caller : Caller} (h : Inv s q)
    (hpc : s.pc = .store ch temp caller) : Inv (task s) q := by
  have hp := h.at_pc
  simp only [PcInv, hpc] at hp
  simp only [task, hpc]
  exact ⟨h.ring.store ch, h.queue, by rw [h.acceptance, hpc]; rfl, h.no_overwrite, h.stopped,
    h.masked, ⟨hp.1, hp.2.1, hp.2.2, Function.update_self ..⟩⟩

/-- Before the flag is set nothing is queued and THR is empty. -/
theorem inv_setRunning {ch : UInt8} {caller : Caller} (h : Inv s q)
    (hpc : s.pc = .setRunning ch caller) : Inv (task s) q := by
  have hp := h.at_pc
  simp only [PcInv, hpc] at hp
  obtain ⟨hq, hthr⟩ := h.stopped hp.2
  simp only [task, hpc]
  exact ⟨h.ring, h.queue, by rw [h.acceptance, hpc]; rfl, h.no_overwrite, by simp, h.masked,
    ⟨hp.1, rfl, hq, hthr⟩⟩

theorem inv_unmaskTx {ch : UInt8} {caller : Caller} (h : Inv s q)
    (hpc : s.pc = .unmaskTx ch caller) : Inv (task s) q := by
  simp only [task, hpc]
  refine ⟨h.ring, h.queue, ?_, h.no_overwrite, h.stopped, fun _ => rfl, trivial⟩
  rw [h.acceptance, hpc]
  simp [pending]

theorem inv_puts {string : List UInt8} (h : Inv s q) (hpc : s.pc = .puts string) :
    Inv (task s) q := by
  cases string with
  | nil =>
    simp only [task, hpc]
    exact h.move _ _ (by rw [hpc]; rfl) rfl (by simp) trivial
  | cons ch string =>
    by_cases hz : ch = 0
    · simp only [task, hpc, if_pos hz]
      exact h.move _ _ (by rw [hpc]; rfl) rfl (by simp) trivial
    · simp only [task, hpc, if_neg hz]
      exact h.goto _ (by rw [hpc]; rfl) rfl trivial

theorem inv_writeSpace {buffer : List UInt8} (h : Inv s q) (hpc : s.pc = .writeSpace buffer) :
    Inv (task s) q := by
  by_cases hspace : (buffer.length : Int) > uart0Space s
  · simp only [task, hpc, if_pos hspace]
    exact h.move _ _ (by rw [hpc]; rfl) rfl (by simp) trivial
  · simp only [task, hpc, if_neg hspace]
    exact h.goto _ (by rw [hpc]; rfl) rfl trivial

theorem inv_write {buffer : List UInt8} (h : Inv s q) (hpc : s.pc = .write buffer) :
    Inv (task s) q := by
  cases buffer with
  | nil =>
    simp only [task, hpc]
    exact h.move _ _ (by rw [hpc]; rfl) rfl (by simp) trivial
  | cons ch buffer =>
    simp only [task, hpc]
    exact h.goto _ (by rw [hpc]; rfl) rfl trivial

theorem inv_flushFifo (h : Inv s q) (hpc : s.pc = .flushFifo) : Inv (task s) q := by
  simp only [task, hpc]
  exact h.goto _ (by rw [hpc]; rfl) rfl trivial

theorem inv_flushMask (h : Inv s q) (hisr : s.inIsr = false) (hpc : s.pc = .flushMask) :
    Inv (task s) q := by
  simp only [task, hpc]
  exact h.mask hisr _ (by rw [hpc]; rfl) rfl rfl

/-- Every access of the task keeps the invariant. -/
theorem inv_task (h : Inv s q) (hisr : s.inIsr = false) : ∃ q', Inv (task s) q' := by
  cases hpc : s.pc with
  | idle => exact ⟨q, by simpa only [task, hpc] using h⟩
  | putch ch caller => exact ⟨q, inv_putch h hpc⟩
  | maskTx ch temp caller => exact ⟨q, inv_maskTx h hisr hpc⟩
  | testRunning ch temp caller => exact ⟨q, inv_testRunning h hpc⟩
  | store ch temp caller => exact ⟨q, inv_store h hpc⟩
  | publish ch temp caller => exact ⟨_, inv_publish h hpc⟩
  | setRunning ch caller => exact ⟨q, inv_setRunning h hpc⟩
  | writeThr ch caller => exact ⟨_, inv_writeThr h hpc⟩
  | unmaskTx ch caller => exact ⟨q, inv_unmaskTx h hpc⟩
  | putchReturn ch result caller =>
    refine ⟨q, ?_⟩
    simp only [task, hpc]
    exact inv_resume h hpc
  | puts string => exact ⟨q, inv_puts h hpc⟩
  | writeSpace buffer => exact ⟨q, inv_writeSpace h hpc⟩
  | write buffer => exact ⟨q, inv_write h hpc⟩
  | flushFifo => exact ⟨q, inv_flushFifo h hpc⟩
  | flushMask => exact ⟨q, inv_flushMask h hisr hpc⟩
  | flushIndices => exact ⟨_, inv_flushIndices h hpc⟩

/-- The handler and the transmitter leave the task where it is, and log at most one byte that is
written to THR. -/
theorem other_step {a : Act} (h : step s a = some t) (htask : a ≠ .task)
    (hcall : ∀ c, a ≠ .call c) :
    t.pc = s.pc ∧ ∃ es, t.events = s.events ++ es ∧ (es = [] ∨ ∃ ch full, es = [.thr ch full]) := by
  have hnone : s.events = s.events ++ [] := (List.append_nil _).symm
  cases a with
  | call c => exact absurd rfl (hcall c)
  | task => exact absurd rfl htask
  | irq =>
    simp only [step, Option.ite_none_right_eq_some, Option.some.injEq] at h
    obtain ⟨_, rfl⟩ := h
    exact ⟨rfl, [], hnone, .inl rfl⟩
  | isr =>
    simp only [step, Option.ite_none_right_eq_some, Option.some.injEq] at h
    obtain ⟨_, rfl⟩ := h
    rw [uart0Isr]
    split
    · exact ⟨rfl, [], hnone, .inl rfl⟩
    · split
      · exact ⟨rfl, _, rfl, .inr ⟨_, _, rfl⟩⟩
      · exact ⟨rfl, [], hnone, .inl rfl⟩
  | thrEmpties =>
    simp only [step, Option.ite_none_right_eq_some, Option.some.injEq] at h
    obtain ⟨_, rfl⟩ := h
    exact ⟨rfl, [], hnone, .inl rfl⟩

theorem inv_step {a : Act} (h : Inv s q) (hs : step s a = some t) : ∃ q', Inv t q' := by
  cases a with
  | call c =>
    simp only [step, Option.ite_none_right_eq_some, Option.some.injEq] at hs
    obtain ⟨⟨_, hidle⟩, rfl⟩ := hs
    refine ⟨q, ?_⟩
    exact h.goto c.entry (by rw [hidle]; rfl) (by cases c <;> rfl) (by cases c <;> trivial)
  | task =>
    simp only [step, Option.ite_none_right_eq_some, Option.some.injEq] at hs
    obtain ⟨⟨hisr, _⟩, rfl⟩ := hs
    exact inv_task h hisr
  | irq =>
    simp only [step, Option.ite_none_right_eq_some, Option.some.injEq] at hs
    obtain ⟨⟨_, hon, _⟩, rfl⟩ := hs
    exact ⟨q, h.ring, h.queue, h.acceptance, h.no_overwrite, h.stopped, fun _ => hon, h.at_pc⟩
  | isr =>
    simp only [step, Option.ite_none_right_eq_some, Option.some.injEq] at hs
    obtain ⟨hisr, rfl⟩ := hs
    exact inv_uart0Isr h hisr
  | thrEmpties =>
    simp only [step, Option.ite_none_right_eq_some, Option.some.injEq] at hs
    obtain ⟨_, rfl⟩ := hs
    refine ⟨q, h.ring, h.queue, h.acceptance, h.no_overwrite, fun hr => ⟨(h.stopped hr).1, rfl⟩,
      h.masked, ?_⟩
    have hp := h.at_pc
    unfold PcInv at hp ⊢
    cases hpc : s.pc <;> simp only [hpc] at hp ⊢ <;> simp_all [Room]

/-- The invariant holds in every state of every run from `uart0Init`. -/
theorem inv_exec (buf : Nat → UInt8) {as : List Act} {s : State}
    (he : exec step (uart0Init buf) as = some s) : ∃ q, Inv s q :=
  inv_of_exec (I := fun s => ∃ q, Inv s q) (fun _ _ _ ⟨_, hu⟩ hv => inv_step hu hv)
    ⟨[], inv_uart0Init buf⟩ he

end Plak1a.Camera.TxFifo
