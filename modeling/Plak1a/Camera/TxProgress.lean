import Mathlib.Data.List.Infix
import Plak1a.Camera.TxFifo

/-!
# What is queued is sent

An interrupt finds THR empty, so that the handler writes the oldest byte of the queue before
there can be another interrupt, and clears the running flag when it finds none. While bytes
are queued the interrupt is enabled, except where `uart0Putch` or the flush has masked it.
-/

namespace Plak1a.Camera.TxProgress

open Plak1a.Lib
open Plak1a.Lib.Run
open Plak1a.Camera.UartTx Plak1a.Camera.TxFifo

/-- A step of the handler or of the transmitter. -/
def OfHandler (a : Act) : Prop := a = .irq ∨ a = .isr ∨ a = .thrEmpties

/-- How many accesses the task has still to make with the interrupt masked. -/
def masked : Pc → Nat
  | .testRunning _ _ _ => 4
  | .store _ _ _ => 3
  | .publish _ _ _ => 2
  | .setRunning _ _ => 3
  | .writeThr _ _ => 2
  | .unmaskTx _ _ => 1
  | .flushIndices => 1
  | _ => 0

/-- What becomes of the queue from a state on. -/
structure Delivers (s : State) : Prop where
  /-- every interrupt but the last one has sent a byte of the queue, in order, or found none left -/
  interrupts : ∀ as t es, exec step s as = some t → t.events = s.events ++ es → .flush ∉ es →
    (queued s).take (as.count .irq - 1) <+: written es
  /-- with no step of the task the handler sends the queue and then clears the flag -/
  handler : ∀ as t es, (∀ a ∈ as, OfHandler a) → exec step s as = some t →
    t.events = s.events ++ es → (queued s).length + 2 ≤ as.count .irq →
    written es = queued s ∧ queued t = [] ∧ t.uart0TxRunning = false
  /-- nothing but a masked section of the task keeps the interrupt of a queued byte away -/
  enabled : queued s ≠ [] → s.etbei = true ∨ 0 < masked s.pc
  /-- no other call is needed for the queue to be sent as a whole -/
  sent : ∃ as t es, (∀ c, .call c ∉ as) ∧ exec step s as = some t ∧ t.events = s.events ++ es ∧
    queued t = [] ∧ (.flush ∉ es → written es = queued s ++ committed es)

variable {s t u : State} {q q' : List UInt8} {es es' : List Event} {a : Act} {as : List Act}

theorem resume_log (s : State) (ch : UInt8) (result : Int) (caller : Caller) :
    ∃ es, (resume s ch result caller).events = s.events ++ es := by
  cases caller with
  | direct => exact ⟨[], (List.append_nil _).symm⟩
  | _ =>
    by_cases hr : 0 ≤ result
    · exact ⟨[], by simp [resume, hr]⟩
    · exact ⟨_, by simp only [resume, if_neg hr]; rfl⟩

/-- The log only grows. -/
theorem task_log (s : State) : ∃ es, (task s).events = s.events ++ es := by
  have hnone : s.events = s.events ++ [] := (List.append_nil _).symm
  cases hpc : s.pc with
  | putchReturn ch result caller =>
    obtain ⟨es, hes⟩ := resume_log { s with events := s.events ++ [.putch ch result] } ch result
      caller
    refine ⟨[.putch ch result] ++ es, ?_⟩
    rw [← List.append_assoc]
    simpa only [task, hpc] using hes
  | puts string =>
    cases string with
    | nil => exact ⟨[.puts []], by simp only [task, hpc]⟩
    | cons ch string =>
      by_cases hz : ch = 0
      · exact ⟨[.puts (ch :: string)], by simp only [task, hpc, if_pos hz]⟩
      · exact ⟨[], by simp only [task, hpc, if_neg hz, List.append_nil]⟩
  | writeSpace buffer =>
    by_cases hspace : (buffer.length : Int) > uart0Space s
    · exact ⟨[.write (-1)], by simp only [task, hpc, if_pos hspace]⟩
    · exact ⟨[], by simp only [task, hpc, if_neg hspace, List.append_nil]⟩
  | write buffer =>
    cases buffer with
    | nil => exact ⟨[.write 0], by simp only [task, hpc]⟩
    | cons ch buffer => exact ⟨[], by simp only [task, hpc, List.append_nil]⟩
  | putch ch caller =>
    refine ⟨[], ?_⟩
    simp only [task, hpc]
    split <;> exact hnone
  | testRunning ch temp caller =>
    refine ⟨[], ?_⟩
    simp only [task, hpc]
    split <;> exact hnone
  | publish ch temp caller => exact ⟨[.commit ch], by simp only [task, hpc]⟩
  | writeThr ch caller => exact ⟨[.commit ch, .thr ch s.thrFull], by simp only [task, hpc]⟩
  | flushIndices => exact ⟨[.flush], by simp only [task, hpc]⟩
  | _ => exact ⟨[], by simp only [task, hpc, List.append_nil]⟩

theorem step_log (h : step s a = some t) : ∃ es, t.events = s.events ++ es := by
  cases a with
  | call c =>
    simp only [step, Option.ite_none_right_eq_some, Option.some.injEq] at h
    obtain ⟨_, rfl⟩ := h
    exact ⟨[], (List.append_nil _).symm⟩
  | task =>
    simp only [step, Option.ite_none_right_eq_some, Option.some.injEq] at h
    obtain ⟨_, rfl⟩ := h
    exact task_log s
  | _ =>
    obtain ⟨_, es, hes, _⟩ := other_step h (by simp) (by simp)
    exact ⟨es, hes⟩

theorem run_log (h : exec step s as = some t) : ∃ es, t.events = s.events ++ es := by
  refine inv_of_exec (I := fun u => ∃ es, u.events = s.events ++ es) ?_
    ⟨[], (List.append_nil _).symm⟩ h
  intro u a v ⟨es, hes⟩ hv
  obtain ⟨es', hes'⟩ := step_log hv
  exact ⟨es ++ es', by rw [hes', hes, List.append_assoc]⟩

theorem written_append (es es' : List Event) :
    written (es ++ es') = written es ++ written es' := List.filterMap_append

/-- Without a flush what was queued and what came to it is written or still queued. -/
theorem conserved (h : Inv s q) (h' : Inv t q') (he : t.events = s.events ++ es)
    (hf : .flush ∉ es) : q ++ committed es = written es ++ q' := by
  have hq := h'.queue
  rw [he, fifo_append_of_fifo h.queue] at hq
  exact fifo_complete hq hf

/-- A pass of the handler's loop that finds THR empty is due. -/
def due (s : State) : Nat := if s.inIsr = true ∧ s.thrFull = false then 1 else 0

theorem due_of_not_inIsr (h : s.inIsr = false) : due s = 0 := by
  rw [due, h]
  exact if_neg fun hd => Bool.false_ne_true hd.1

theorem due_of_thrFull (h : s.thrFull = true) : due s = 0 :=
  if_neg fun hd => Bool.false_ne_true (hd.2.symm.trans h)

theorem due_le_one (s : State) : due s ≤ 1 := by
  rw [due]
  split <;> decide

/-- A pass that is due writes a byte, or it finds nothing queued and clears the flag. -/
theorem step_due (h : Inv s q) (hs : step s a = some t) (he : t.events = s.events ++ es) :
    (if a = .irq then 1 else 0) + due s ≤ (written es).length + due t ∨
      q = [] ∧ t.uart0TxRunning = false := by
  cases a with
  | call c =>
    simp only [step, Option.ite_none_right_eq_some, Option.some.injEq] at hs
    rw [due_of_not_inIsr hs.1.1]
    exact .inl (Nat.zero_le _)
  | task =>
    simp only [step, Option.ite_none_right_eq_some, Option.some.injEq] at hs
    rw [due_of_not_inIsr hs.1.1]
    exact .inl (Nat.zero_le _)
  | irq =>
    simp only [step, Option.ite_none_right_eq_some, Option.some.injEq] at hs
    obtain ⟨⟨hisr, _, hthr⟩, rfl⟩ := hs
    have hdue : due { s with inIsr := true } = 1 := if_pos ⟨rfl, hthr⟩
    rw [due_of_not_inIsr hisr, hdue, if_pos rfl]
    exact .inl (Nat.le_add_left _ _)
  | isr =>
    simp only [step, Option.ite_none_right_eq_some, Option.some.injEq] at hs
    obtain ⟨hisr, rfl⟩ := hs
    rw [if_neg (by simp), Nat.zero_add]
    cases hthr : s.thrFull with
    | true =>
      rw [due_of_thrFull hthr]
      exact .inl (Nat.zero_le _)
    | false =>
      by_cases hq : q = []
      · have heq : s.uart0TxInsertIdx = s.uart0TxExtractIdx := h.ring.insert_eq_extract_iff.mpr hq
        exact .inr ⟨hq, by simp [uart0Isr, hthr, heq]⟩
      · have hne : s.uart0TxInsertIdx ≠ s.uart0TxExtractIdx := fun heq =>
          hq (h.ring.insert_eq_extract_iff.mp heq)
        have hes : es = [.thr (s.uart0TxBuffer s.uart0TxExtractIdx) s.thrFull] := by
          simp only [uart0Isr, hthr, Bool.false_eq_true, if_false, if_pos hne] at he
          rw [hthr]
          exact (List.append_cancel_left he).symm
        left
        rw [hes]
        exact Nat.le_trans (due_le_one s) (Nat.le_add_right _ _)
  | thrEmpties =>
    simp only [step, Option.ite_none_right_eq_some, Option.some.injEq] at hs
    obtain ⟨hthr, rfl⟩ := hs
    rw [due_of_thrFull hthr]
    exact .inl (Nat.zero_le _)

/-- As long as bytes of the queue at the start are left, each interrupt has been answered with a
byte, or its pass is due. -/
theorem interrupts_count (h : Inv s q) (hrun : exec step s as = some t) :
    ∃ es q', t.events = s.events ++ es ∧ Inv t q' ∧ (.flush ∉ es →
      q.length ≤ (written es).length ∨ as.count .irq ≤ (written es).length + due t) := by
  refine inv_of_actions (J := fun as t => ∃ es q', t.events = s.events ++ es ∧ Inv t q' ∧
    (.flush ∉ es → q.length ≤ (written es).length ∨ as.count .irq ≤ (written es).length + due t))
    ?_ ⟨[], q, (List.append_nil _).symm, h, fun _ => .inr (Nat.zero_le _)⟩ hrun
  intro as u a v ⟨es, q₁, hes, hu, hcount⟩ hstep
  obtain ⟨es', hes'⟩ := step_log hstep
  obtain ⟨q₂, hv⟩ := inv_step hu hstep
  refine ⟨es ++ es', q₂, by rw [hes', hes, List.append_assoc], hv, fun hf => ?_⟩
  rw [written_append, List.length_append]
  have hflush : .flush ∉ es := fun hm => hf (List.mem_append_left _ hm)
  rcases hcount hflush with hall | hle
  · exact .inl (Nat.le_trans hall (Nat.le_add_right _ _))
  · rcases step_due hu hstep hes' with hdue | ⟨hnil, _⟩
    · right
      rw [List.count_append, List.count_singleton]
      simp only [beq_iff_eq]
      omega
    · left
      have hall := congrArg List.length (conserved h hu hes hflush)
      rw [hnil, List.append_nil, List.length_append] at hall
      omega

theorem interrupts_written (h : Inv s q) (hrun : exec step s as = some t)
    (he : t.events = s.events ++ es) (hf : .flush ∉ es) :
    q.take (as.count .irq - 1) <+: written es := by
  obtain ⟨es', q', he', ht, hcount⟩ := interrupts_count h hrun
  obtain rfl : es = es' := List.append_cancel_left (he.symm.trans he')
  have hle := due_le_one t
  have hwritten : written es <+: q ++ committed es := ⟨q', (conserved h ht he hf).symm⟩
  have htake : q.take (as.count .irq - 1) <+: q ++ committed es :=
    (List.take_prefix _ _).trans (List.prefix_append _ _)
  refine List.prefix_of_prefix_length_le htake hwritten ?_
  rw [List.length_take]
  rcases hcount hf with hall | hcount
  · exact Nat.le_trans (Nat.min_le_right _ _) hall
  · omega

/-- The handler commits and flushes nothing, and only clears the flag. -/
theorem handler_step (ha : OfHandler a) (hs : step s a = some t)
    (he : t.events = s.events ++ es) :
    committed es = [] ∧ .flush ∉ es ∧ (s.uart0TxRunning = false → t.uart0TxRunning = false) := by
  have htask : a ≠ .task := by rcases ha with rfl | rfl | rfl <;> simp
  have hcall : ∀ c, a ≠ .call c := by rcases ha with rfl | rfl | rfl <;> simp
  obtain ⟨_, es', he', hes⟩ := other_step hs htask hcall
  obtain rfl : es = es' := List.append_cancel_left (he.symm.trans he')
  have hlog : committed es = [] ∧ .flush ∉ es := by
    rcases hes with rfl | ⟨ch, full, rfl⟩
    · exact ⟨rfl, List.not_mem_nil⟩
    · exact ⟨rfl, by simp⟩
  refine ⟨hlog.1, hlog.2, fun hr => ?_⟩
  rcases ha with rfl | rfl | rfl
  · simp only [step, Option.ite_none_right_eq_some, Option.some.injEq] at hs
    obtain ⟨_, rfl⟩ := hs
    exact hr
  · simp only [step, Option.ite_none_right_eq_some, Option.some.injEq] at hs
    obtain ⟨_, rfl⟩ := hs
    rw [uart0Isr]
    split
    · exact hr
    · split
      · exact hr
      · rfl
  · simp only [step, Option.ite_none_right_eq_some, Option.some.injEq] at hs
    obtain ⟨_, rfl⟩ := hs
    exact hr

/-- With the handler alone every interrupt writes a byte, until the flag is clear. -/
theorem handler_count (h : Inv s q) (ha : ∀ a ∈ as, OfHandler a)
    (hrun : exec step s as = some t) :
    ∃ es q', t.events = s.events ++ es ∧ Inv t q' ∧ committed es = [] ∧ .flush ∉ es ∧
      (t.uart0TxRunning = false ∨ as.count .irq ≤ (written es).length + due t) := by
  refine inv_of_actions (J := fun as t => (∀ a ∈ as, OfHandler a) → ∃ es q',
    t.events = s.events ++ es ∧ Inv t q' ∧ committed es = [] ∧ .flush ∉ es ∧
      (t.uart0TxRunning = false ∨ as.count .irq ≤ (written es).length + due t))
    ?_ (fun _ => ⟨[], q, (List.append_nil _).symm, h, rfl, List.not_mem_nil,
      .inr (Nat.zero_le _)⟩) hrun ha
  intro as u a v hu hstep ha
  obtain ⟨es, q₁, hes, hinv, hnone, hflush, hcount⟩ := hu fun b hb =>
    ha b (List.mem_append_left _ hb)
  obtain ⟨es', hes'⟩ := step_log hstep
  obtain ⟨q₂, hv⟩ := inv_step hinv hstep
  obtain ⟨hnone', hflush', hclear⟩ :=
    handler_step (ha a (List.mem_append_right _ (List.mem_singleton_self a))) hstep hes'
  refine ⟨es ++ es', q₂, by rw [hes', hes, List.append_assoc], hv, ?_, ?_, ?_⟩
  · rw [committed_append, hnone, hnone', List.append_nil]
  · exact fun hm => (List.mem_append.mp hm).elim hflush hflush'
  · rcases hcount with hr | hle
    · exact .inl (hclear hr)
    · rcases step_due hinv hstep hes' with hdue | ⟨_, hr⟩
      · right
        rw [written_append, List.length_append, List.count_append, List.count_singleton]
        simp only [beq_iff_eq]
        omega
      · exact .inl hr

theorem handler_written (h : Inv s q) (ha : ∀ a ∈ as, OfHandler a)
    (hrun : exec step s as = some t) (he : t.events = s.events ++ es)
    (hcount : q.length + 2 ≤ as.count .irq) :
    written es = q ∧ queued t = [] ∧ t.uart0TxRunning = false := by
  obtain ⟨es', q', he', ht, hnone, hflush, hwritten⟩ := handler_count h ha hrun
  obtain rfl : es = es' := List.append_cancel_left (he.symm.trans he')
  have hall := conserved h ht he hflush
  rw [hnone, List.append_nil] at hall
  have hle := due_le_one t
  have hlength := congrArg List.length hall
  rw [List.length_append] at hlength
  have hr : t.uart0TxRunning = false := hwritten.resolve_right (by omega)
  obtain rfl := (ht.stopped hr).1
  rw [List.append_nil] at hall
  exact ⟨hall.symm, ht.ring.contents_eq, hr⟩

/-- While bytes are in the ring the interrupt is enabled, or the task has masked it. -/
def Open (s : State) : Prop :=
  s.uart0TxInsertIdx ≠ s.uart0TxExtractIdx → s.etbei = true ∨ 0 < masked s.pc

theorem Open.task (h : Open s) : Open (task s) := by
  have hkeep : masked s.pc = 0 → ∀ t : State, t.uart0TxInsertIdx = s.uart0TxInsertIdx →
      t.uart0TxExtractIdx = s.uart0TxExtractIdx → t.etbei = s.etbei → Open t := by
    intro hm t hi he hb hne
    rw [hi, he] at hne
    exact .inl (hb.trans ((h hne).resolve_right (by omega)))
  cases hpc : s.pc with
  | idle => simpa only [UartTx.task, hpc] using h
  | putch ch caller =>
    rw [UartTx.task, hpc]
    dsimp only
    split <;> exact hkeep (by rw [hpc]; rfl) _ rfl rfl rfl
  | testRunning ch temp caller =>
    rw [UartTx.task, hpc]
    dsimp only
    split <;> exact fun _ => .inr (Nat.succ_pos _)
  | unmaskTx ch caller =>
    simp only [UartTx.task, hpc]
    exact fun _ => .inl rfl
  | putchReturn ch result caller =>
    have hm : masked s.pc = 0 := by rw [hpc]; rfl
    rw [UartTx.task, hpc]
    cases caller with
    | direct => exact hkeep hm _ rfl rfl rfl
    | _ =>
      dsimp only [resume]
      split <;> exact hkeep hm _ rfl rfl rfl
  | puts string =>
    have hm : masked s.pc = 0 := by rw [hpc]; rfl
    rw [UartTx.task, hpc]
    cases string with
    | nil => exact hkeep hm _ rfl rfl rfl
    | cons ch string =>
      dsimp only
      split <;> exact hkeep hm _ rfl rfl rfl
  | writeSpace buffer =>
    have hm : masked s.pc = 0 := by rw [hpc]; rfl
    rw [UartTx.task, hpc]
    dsimp only
    split <;> exact hkeep hm _ rfl rfl rfl
  | write buffer =>
    have hm : masked s.pc = 0 := by rw [hpc]; rfl
    rw [UartTx.task, hpc]
    cases buffer with
    | nil => exact hkeep hm _ rfl rfl rfl
    | cons ch buffer => exact hkeep hm _ rfl rfl rfl
  | flushFifo =>
    simp only [UartTx.task, hpc]
    exact hkeep (by rw [hpc]; rfl) _ rfl rfl rfl
  | flushIndices =>
    simp only [UartTx.task, hpc]
    exact fun hne => absurd rfl hne
  | _ =>
    simp only [UartTx.task, hpc]
    exact fun _ => .inr (Nat.succ_pos _)

theorem Open.step (h : Open s) (hs : step s a = some t) : Open t := by
  cases a with
  | call c =>
    simp only [UartTx.step, Option.ite_none_right_eq_some, Option.some.injEq] at hs
    obtain ⟨⟨_, hidle⟩, rfl⟩ := hs
    intro hne
    refine .inl ((h hne).resolve_right ?_)
    rw [hidle]
    exact Nat.lt_irrefl 0
  | task =>
    simp only [UartTx.step, Option.ite_none_right_eq_some, Option.some.injEq] at hs
    obtain ⟨_, rfl⟩ := hs
    exact h.task
  | irq =>
    simp only [UartTx.step, Option.ite_none_right_eq_some, Option.some.injEq] at hs
    obtain ⟨_, rfl⟩ := hs
    exact h
  | isr =>
    simp only [UartTx.step, Option.ite_none_right_eq_some, Option.some.injEq] at hs
    obtain ⟨_, rfl⟩ := hs
    rw [uart0Isr]
    split
    · exact h
    · split
      next hne => exact fun _ => h hne
      · exact h
  | thrEmpties =>
    simp only [UartTx.step, Option.ite_none_right_eq_some, Option.some.injEq] at hs
    obtain ⟨_, rfl⟩ := hs
    exact h

theorem Open.enabled (h : Open s) (hs : Inv s q) (hq : queued s ≠ []) :
    s.etbei = true ∨ 0 < masked s.pc := by
  refine h fun heq => hq ?_
  rw [queued, hs.ring.contents_eq]
  exact hs.ring.insert_eq_extract_iff.mp heq

/-- A state that steps without a call lead to. -/
def Comes (s t : State) : Prop := ∃ as, (∀ c, .call c ∉ as) ∧ exec step s as = some t

theorem Comes.refl (s : State) : Comes s s := ⟨[], fun _ => List.not_mem_nil, rfl⟩

theorem Comes.trans (h : Comes s t) (h' : Comes t u) : Comes s u := by
  obtain ⟨as, hcall, hrun⟩ := h
  obtain ⟨bs, hcall', hrun'⟩ := h'
  refine ⟨as ++ bs, fun c hm => ?_, by rw [exec_append_of_exec hrun, hrun']⟩
  exact (List.mem_append.mp hm).elim (hcall c) (hcall' c)

theorem comes_step (ha : ∀ c, a ≠ .call c) (hs : step s a = some t) : Comes s t :=
  ⟨[a], fun c hm => ha c (List.mem_singleton.mp hm).symm, by rw [exec_cons_of_step hs]; rfl⟩

/-- The handler comes to its end where THR is full. -/
theorem comes_full (hisr : s.inIsr = true) (hthr : s.thrFull = true) :
    Comes s { s with inIsr := false } := by
  refine comes_step (a := .isr) (by simp) ?_
  simp only [step, if_pos hisr, uart0Isr, if_pos hthr]

/-- The handler comes to its end in two passes. -/
theorem comes_out (s : State) : ∃ t, Comes s t ∧ t.inIsr = false := by
  cases hisr : s.inIsr with
  | false => exact ⟨s, .refl s, hisr⟩
  | true =>
    cases hthr : s.thrFull with
    | true => exact ⟨_, comes_full hisr hthr, rfl⟩
    | false =>
      have hpass : Comes s (uart0Isr s) := comes_step (a := .isr) (by simp) (if_pos hisr)
      rw [uart0Isr, hthr, if_neg Bool.false_ne_true] at hpass
      split at hpass
      · exact ⟨_, hpass.trans (comes_full hisr rfl), rfl⟩
      · exact ⟨_, hpass, rfl⟩

/-- With every access in a masked section fewer are left, or the interrupt is enabled, or the flush
has emptied the queue. -/
theorem masked_task (hm : 0 < masked s.pc) : (task s).inIsr = s.inIsr ∧
    (0 < masked (task s).pc ∧ masked (task s).pc < masked s.pc ∨
      (task s).etbei = true ∨ (task s).uart0TxInsertIdx = (task s).uart0TxExtractIdx) := by
  cases hpc : s.pc with
  | testRunning ch temp caller =>
    simp only [task, hpc]
    split <;> exact ⟨rfl, .inl ⟨Nat.succ_pos _, Nat.lt_succ_self _⟩⟩
  | store ch temp caller =>
    simp only [task, hpc]
    exact ⟨trivial, .inl ⟨Nat.succ_pos _, Nat.lt_succ_self _⟩⟩
  | publish ch temp caller =>
    simp only [task, hpc]
    exact ⟨trivial, .inl ⟨Nat.succ_pos _, Nat.lt_succ_self _⟩⟩
  | setRunning ch caller =>
    simp only [task, hpc]
    exact ⟨trivial, .inl ⟨Nat.succ_pos _, Nat.lt_succ_self _⟩⟩
  | writeThr ch caller =>
    simp only [task, hpc]
    exact ⟨trivial, .inl ⟨Nat.succ_pos _, Nat.lt_succ_self _⟩⟩
  | unmaskTx ch caller =>
    simp only [task, hpc]
    exact ⟨trivial, .inr (.inl trivial)⟩
  | flushIndices =>
    simp only [task, hpc]
    exact ⟨trivial, .inr (.inr trivial)⟩
  | _ =>
    rw [hpc] at hm
    exact absurd hm (Nat.lt_irrefl 0)

theorem comes_unmasked (n : Nat) (hn : masked s.pc = n) (hisr : s.inIsr = false) (hm : 0 < n) :
    ∃ t, Comes s t ∧ t.inIsr = false ∧
      (t.etbei = true ∨ t.uart0TxInsertIdx = t.uart0TxExtractIdx) := by
  induction n using Nat.strongRecOn generalizing s with
  | _ n ih =>
    subst hn
    have hbusy : s.pc ≠ .idle := by
      intro hidle
      rw [hidle] at hm
      exact Nat.lt_irrefl 0 hm
    have hstep : Comes s (task s) := comes_step (a := .task) (by simp) (if_pos ⟨hisr, hbusy⟩)
    obtain ⟨hkeep, ⟨hpos, hlt⟩ | hdone⟩ := masked_task hm
    · obtain ⟨t, ht, hout⟩ := ih _ hlt rfl (hkeep.trans hisr) hpos
      exact ⟨t, hstep.trans ht, hout⟩
    · exact ⟨_, hstep, hkeep.trans hisr, hdone⟩

/-- An enabled interrupt sends a byte. -/
theorem comes_sent (hisr : s.inIsr = false) (hon : s.etbei = true)
    (hne : s.uart0TxInsertIdx ≠ s.uart0TxExtractIdx) :
    ∃ t ch, Comes s t ∧ t.inIsr = false ∧ t.etbei = true ∧
      t.events = s.events ++ [.thr ch false] := by
  have hempty : Comes s { s with thrFull := false } := by
    cases hthr : s.thrFull with
    | true => exact comes_step (a := .thrEmpties) (by simp) (if_pos hthr)
    | false =>
      rw [← hthr]
      exact .refl s
  have hirq : Comes { s with thrFull := false } { s with thrFull := false, inIsr := true } :=
    comes_step (a := .irq) (by simp) (if_pos ⟨hisr, hon, rfl⟩)
  have hwrites : Comes { s with thrFull := false, inIsr := true }
      { s with
        thrFull := true
        inIsr := true
        uart0TxExtractIdx := (s.uart0TxExtractIdx + 1) % uart0TxBufferSize
        events := s.events ++ [.thr (s.uart0TxBuffer s.uart0TxExtractIdx) false] } := by
    refine comes_step (a := .isr) (by simp) ?_
    simp [step, uart0Isr, hne]
  exact ⟨_, _, ((hempty.trans hirq).trans hwrites).trans (comes_full rfl rfl), rfl, hon, rfl⟩

theorem Comes.inv (h : Comes s t) (hs : Inv s q) : ∃ q', Inv t q' := by
  obtain ⟨as, _, hrun⟩ := h
  exact inv_of_exec (I := fun s => ∃ q, Inv s q) (fun _ _ _ ⟨_, hu⟩ hv => inv_step hu hv) ⟨q, hs⟩
    hrun

/-- With the interrupt enabled one byte after the other is sent. -/
theorem comes_empty (h : Inv s q) (hisr : s.inIsr = false) (hon : s.etbei = true) :
    ∃ t, Comes s t ∧ Inv t [] := by
  induction q generalizing s with
  | nil => exact ⟨s, .refl s, h⟩
  | cons x q ih =>
    have hne : s.uart0TxInsertIdx ≠ s.uart0TxExtractIdx := fun heq =>
      List.cons_ne_nil x q (h.ring.insert_eq_extract_iff.mp heq)
    obtain ⟨t, ch, ht, hisr', hon', hevents⟩ := comes_sent hisr hon hne
    obtain ⟨q', hq'⟩ := ht.inv h
    have hkept : x :: q ++ [] = [ch] ++ q' := conserved h hq' hevents (by simp)
    rw [List.append_nil] at hkept
    obtain rfl : q = q' := (List.cons.inj hkept).2
    obtain ⟨u, hu, hempty⟩ := ih hq' hisr' hon'
    exact ⟨u, ht.trans hu, hempty⟩

theorem Open.comes (h : Open s) (hst : Comes s t) : Open t := by
  obtain ⟨as, _, hrun⟩ := hst
  exact inv_of_exec (fun _ _ _ hu hv => Open.step hu hv) h hrun

/-- Out of the handler, out of the masked section, and then one byte after the other. -/
theorem comes_delivered (h : Inv s q) (hopen : Open s) : ∃ t, Comes s t ∧ Inv t [] := by
  obtain ⟨u, hu, hisr⟩ := comes_out s
  have hopen' := hopen.comes hu
  have hready : ∃ v, Comes u v ∧ v.inIsr = false ∧
      (v.etbei = true ∨ v.uart0TxInsertIdx = v.uart0TxExtractIdx) := by
    by_cases heq : u.uart0TxInsertIdx = u.uart0TxExtractIdx
    · exact ⟨u, .refl u, hisr, .inr heq⟩
    · rcases hopen' heq with hon | hm
      · exact ⟨u, .refl u, hisr, .inl hon⟩
      · exact comes_unmasked _ rfl hisr hm
  obtain ⟨v, hv, hisr', hcase⟩ := hready
  obtain ⟨q', hq'⟩ := (hu.trans hv).inv h
  rcases hcase with hon | heq
  · obtain ⟨t, ht, hempty⟩ := comes_empty hq' hisr' hon
    exact ⟨t, (hu.trans hv).trans ht, hempty⟩
  · obtain rfl := hq'.ring.insert_eq_extract_iff.mp heq
    exact ⟨v, hu.trans hv, hq'⟩

theorem Open.delivers (hopen : Open s) (h : Inv s q) : Delivers s := by
  have hq : queued s = q := h.ring.contents_eq
  refine ⟨?_, ?_, hopen.enabled h, ?_⟩
  · intro as t es hrun he hf
    rw [hq]
    exact interrupts_written h hrun he hf
  · intro as t es ha hrun he hcount
    rw [hq] at hcount ⊢
    exact handler_written h ha hrun he hcount
  · obtain ⟨t, ⟨as, hcall, hrun⟩, ht⟩ := comes_delivered h hopen
    obtain ⟨es, hes⟩ := run_log hrun
    refine ⟨as, t, es, hcall, hrun, hes, ht.ring.contents_eq, fun hf => ?_⟩
    have hall := conserved h ht hes hf
    rw [List.append_nil] at hall
    rw [hq, hall]

/-- Every state of every run from `uart0Init` has transmitted faithfully, and what it has queued
is sent by the interrupts to come. -/
theorem transmit_faithful (buf : Nat → UInt8) (as : List Act) {s : State}
    (he : exec step (uart0Init buf) as = some s) : Faithful s ∧ Delivers s := by
  obtain ⟨q, h⟩ := inv_exec buf he
  have hopen : Open s := inv_of_exec (fun _ _ _ hu hv => Open.step hu hv)
    (fun hne => absurd rfl hne) he
  exact ⟨h.faithful, hopen.delivers h⟩

/-- Two bytes sent before the transmitter is empty: the second one waits in the ring. -/
def twoBytes : List Act :=
  .call (.uart0Putch 7) :: List.replicate 7 .task ++ .call (.uart0Putch 8) ::
    List.replicate 7 .task

/-- The interrupt for the second byte, and those that find nothing left. -/
def threeInterrupts : List Act :=
  [.thrEmpties, .irq, .isr, .isr, .thrEmpties, .irq, .isr, .irq]

theorem transmit_faithful_two : ∃ s t, exec step (uart0Init fun _ => 0) twoBytes = some s ∧
    queued s = [8] ∧ Faithful s ∧ exec step s threeInterrupts = some t ∧
      written t.events = [7, 8] ∧ queued t = [] ∧ t.uart0TxRunning = false := by
  have hbefore : (exec step (uart0Init fun _ => 0) twoBytes).map
      (fun s => (queued s, written s.events)) = some ([8], [7]) := by decide
  have hafter : (exec step (uart0Init fun _ => 0) (twoBytes ++ threeInterrupts)).isSome = true := by
    decide
  obtain ⟨s, hs, hlog⟩ := Option.map_eq_some_iff.mp hbefore
  obtain ⟨hqueued, hwritten⟩ := Prod.mk.inj hlog
  rw [exec_append_of_exec hs] at hafter
  obtain ⟨t, ht⟩ := Option.isSome_iff_exists.mp hafter
  obtain ⟨es, hes⟩ := run_log ht
  obtain ⟨hfaithful, hdelivers⟩ := transmit_faithful (fun _ => 0) twoBytes hs
  have hhandler : ∀ a ∈ threeInterrupts, OfHandler a := by simp [threeInterrupts, OfHandler]
  have hcount : (queued s).length + 2 ≤ threeInterrupts.count .irq := by
    rw [hqueued]
    decide
  obtain ⟨hsent, hempty, hstopped⟩ := hdelivers.handler threeInterrupts t es hhandler ht hes hcount
  refine ⟨s, t, hs, hqueued, hfaithful, ht, ?_, hempty, hstopped⟩
  rw [hes, written_append, hwritten, hsent, hqueued]
  rfl

end Plak1a.Camera.TxProgress
