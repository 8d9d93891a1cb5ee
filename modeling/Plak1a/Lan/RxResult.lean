import Plak1a.Lan.RxQueue

/-!
# What `lan9118_read` reports

The loop behind the rounds ends at the first free entry of the queue and sets `len` to -1
there, so the lengths of the packets it has handed over never reach the caller.
-/

namespace Plak1a.Lan.RxResult

open Receive RxSync RxQueue Lib.Run

/-- A call: it begins where the one before has ended, takes these rounds, ends with the
last of them and returns `r`. -/
structure Call (s : LanDriver) (rounds : List Event) (t : LanDriver) (r : Int) : Prop where
  begins : s.loopCount = 0
  runs : exec lanStep s rounds = some t
  ends : t.loopCount = 0
  result : t.returned = r :: s.returned

/-- The result is not negative exactly if `NetReceive` got a frame, and -1 if it got none. -/
def Reports (s t : LanDriver) (r : Int) : Prop :=
  (0 ≤ r ↔ t.received ≠ s.received) ∧ (t.received = s.received → r = -1)

/-- The status words that the rounds pop, in order. -/
def statusesPopped (s : LanDriver) (rounds : List Event) : List UInt32 :=
  outputs (fun s e => (popped s.chip s.loopCount e).toList) lanStep s rounds

variable {s t : LanDriver} {e : Event} {rounds : List Event} {frames : List Packet} {r : Int}

theorem deliver_result (n : Nat) : ∀ s : LanDriver, (LanDriver.deliver n s).1 = -1 := by
  induction n with
  | zero => exact fun s => rfl
  | succ n ih =>
    intro s
    rw [LanDriver.deliver]
    dsimp only
    split
    · rfl
    · exact ih _

/-- The call is over, and has returned -1. -/
theorem finish_result (s : LanDriver) :
    s.finish.returned = -1 :: s.returned ∧ s.finish.loopCount = 0 := by
  have hresult := deliver_result (numRxBuff + 1) s
  unfold LanDriver.finish
  refine ⟨?_, rfl⟩
  split
  · show (LanDriver.deliver (numRxBuff + 1) s).1 :: s.returned = _
    rw [hresult]
  · rfl

theorem body_cases (s : LanDriver) (busy : Nat) (rxStatus : UInt32) :
    ((s.body busy rxStatus).returned = -1 :: s.returned ∧ (s.body busy rxStatus).loopCount = 0) ∨
    ((s.body busy rxStatus).returned = s.returned ∧
      (s.body busy rxStatus).loopCount = s.loopCount + 1) := by
  unfold LanDriver.body
  dsimp only
  split
  · split
    · exact Or.inr ⟨rfl, rfl⟩
    · exact Or.inl (finish_result _)
  · split
    · exact Or.inl (finish_result _)
    · exact Or.inr ⟨rfl, rfl⟩

/-- A round ends its call with the result -1 or is counted. -/
theorem round_cases (s : LanDriver) (e : Event) :
    ((s.round e).returned = -1 :: s.returned ∧ (s.round e).loopCount = 0) ∨
    ((s.round e).returned = s.returned ∧ (s.round e).loopCount = s.loopCount + 1 ∧
      s.loopCount < numRxBuff) := by
  unfold LanDriver.round
  dsimp only
  split
  · exact Or.inl (finish_result _)
  · rename_i rxStatus statuses _
    split
    · exact Or.inl (finish_result _)
    · rename_i hloop
      rcases body_cases { s with chip := { s.chip.arrive e.arrivals with statuses := statuses } }
          e.ffwdBusy rxStatus with ⟨hreturned, hcount⟩ | ⟨hreturned, hcount⟩
      · exact Or.inl ⟨hreturned, hcount⟩
      · exact Or.inr ⟨hreturned, hcount, Nat.lt_of_not_le hloop⟩

/-- Whatever a run returns, it is -1. -/
theorem returned_of_exec (h : exec lanStep s rounds = some t) :
    ∃ k, t.returned = List.replicate k (-1) ++ s.returned := by
  refine inv_of_exec (I := fun t => ∃ k, t.returned = List.replicate k (-1) ++ s.returned)
    ?_ ⟨0, rfl⟩ h
  intro u e v hu hv
  obtain ⟨k, hk⟩ := hu
  cases hv
  rcases round_cases u e with ⟨hreturned, _⟩ | ⟨hreturned, _⟩
  · exact ⟨k + 1, by rw [hreturned, hk]; rfl⟩
  · exact ⟨k, hreturned.trans hk⟩

theorem Call.result_eq (h : Call s rounds t r) : r = -1 := by
  obtain ⟨k, hk⟩ := returned_of_exec h.runs
  rw [h.result] at hk
  have hlen := congrArg List.length hk
  rw [List.length_append, List.length_replicate, List.length_cons] at hlen
  obtain rfl : k = 1 := by omega
  exact (List.cons.inj hk).1

/-- A call takes no more than one round for each buffer and the one that ends it. -/
theorem exists_call (events : List Event) (hbegins : s.loopCount = 0)
    (hlen : numRxBuff < events.length) :
    ∃ n t, n ≤ numRxBuff + 1 ∧ Call s (events.take n) t (-1) := by
  -- the rounds left to the call bound the induction
  have hrun : ∀ (k : Nat) (u : LanDriver) (es : List Event), u.loopCount + k = numRxBuff →
      k < es.length → ∃ n t, n ≤ k + 1 ∧ exec lanStep u (es.take n) = some t ∧
        t.loopCount = 0 ∧ t.returned = -1 :: u.returned := by
    intro k
    induction k with
    | zero =>
      intro u es hcount hes
      cases es with
      | nil => exact absurd hes (Nat.not_lt_zero _)
      | cons e es =>
        rcases round_cases u e with ⟨hreturned, hzero⟩ | ⟨_, _, hlt⟩
        · exact ⟨1, u.round e, Nat.le_refl 1, rfl, hzero, hreturned⟩
        · omega
    | succ k ih =>
      intro u es hcount hes
      cases es with
      | nil => exact absurd hes (Nat.not_lt_zero _)
      | cons e es =>
        rcases round_cases u e with ⟨hreturned, hzero⟩ | ⟨hreturned, hnext, _⟩
        · exact ⟨1, u.round e, by omega, rfl, hzero, hreturned⟩
        · obtain ⟨n, t, hn, hexec, hzero, hlast⟩ := ih (u.round e) es (by omega)
            (Nat.lt_of_succ_lt_succ hes)
          exact ⟨n + 1, t, by omega, hexec, hzero, by rw [hlast, hreturned]⟩
  obtain ⟨n, t, hn, hexec, hends, hresult⟩ := hrun numRxBuff s events (by omega) hlen
  exact ⟨n, t, hn, hbegins, hexec, hends, hresult⟩

theorem accepted_eq_nil_iff :
    accepted s e = [] ↔ ∀ rxStatus ∈ (popped s.chip s.loopCount e).toList, ¬ Accepts rxStatus := by
  unfold accepted
  cases popped s.chip s.loopCount e with
  | none => exact iff_of_true rfl fun _ h => absurd h List.not_mem_nil
  | some rxStatus =>
    dsimp only [Option.toList]
    rw [List.forall_mem_singleton]
    split
    · rename_i haccepts
      exact iff_of_false (List.cons_ne_nil _ _) (not_not.mpr haccepts)
    · rename_i haccepts
      exact iff_of_true rfl haccepts

theorem outputs_accepted_eq_nil_iff :
    outputs accepted lanStep s rounds = [] ↔
      ∀ rxStatus ∈ statusesPopped s rounds, ¬ Accepts rxStatus := by
  induction rounds generalizing s with
  | nil => exact iff_of_true rfl fun _ h => absurd h List.not_mem_nil
  | cons e rounds ih =>
    have hstatuses : statusesPopped s (e :: rounds) =
        (popped s.chip s.loopCount e).toList ++ statusesPopped (s.round e) rounds := rfl
    have haccepted : outputs accepted lanStep s (e :: rounds) =
        accepted s e ++ outputs accepted lanStep (s.round e) rounds := rfl
    rw [hstatuses, haccepted, List.append_eq_nil_iff, List.forall_mem_append, ih,
      accepted_eq_nil_iff]

/-- Between two calls everything accepted has gone up. -/
theorem Delivering.received (h : Delivering s frames) (hzero : s.loopCount = 0) :
    s.received.reverse = frames.map handOver := by
  obtain ⟨handed, waiting, rfl, hreceived, hinv⟩ := h
  have hrounds := hinv.rounds.1
  rw [hzero] at hrounds
  obtain rfl := List.length_eq_zero_iff.mp (Nat.le_zero.mp hrounds)
  rw [hreceived, List.append_nil]

/-- A call hands nothing over exactly if it accepts nothing. -/
theorem Call.received_eq_iff (hs : Delivering s frames) (h : Call s rounds t r) :
    t.received = s.received ↔ outputs accepted lanStep s rounds = [] := by
  have ht : Delivering t (frames ++ outputs accepted lanStep s rounds) :=
    inv_of_outputs (fun u e v os hu hv => by
      cases hv
      exact hu.round e) hs h.runs
  have hbefore := Delivering.received hs h.begins
  have hafter := Delivering.received ht h.ends
  rw [List.map_append, ← hbefore] at hafter
  constructor
  · intro heq
    rw [heq] at hafter
    have hnone := List.append_right_eq_self.mp hafter.symm
    exact List.map_eq_nil_iff.mp hnone
  · intro hnone
    rw [hnone, List.map_nil, List.append_nil] at hafter
    exact List.reverse_inj.mp hafter

/-- Any call of any run from `lan9118_open` on reports what it did exactly if it popped no
status of a frame that is accepted. -/
theorem read_reports_iff (fs : List Frame) (rxbp : Nat → List UInt32) (past : List Event)
    (hs : exec lanStep (LanDriver.opened fs rxbp) past = some s) (h : Call s rounds t r) :
    Reports s t r ↔ ∀ rxStatus ∈ statusesPopped s rounds, ¬ Accepts rxStatus := by
  have hreceived := h.received_eq_iff (delivering_of_exec hs)
  have hr := h.result_eq
  rw [← outputs_accepted_eq_nil_iff, ← hreceived]
  constructor
  · intro hreports
    by_contra hne
    have hpos := hreports.1.mpr hne
    omega
  · intro heq
    refine ⟨⟨fun hpos => ?_, fun hne => absurd heq hne⟩, fun _ => hr⟩
    omega

/-- A call that drops an errored frame and then finds the FIFO empty. -/
theorem longError_reports :
    ∃ t, Call (LanDriver.opened [longError] fun _ => []) [⟨[], 0⟩, ⟨[], 0⟩] t (-1) ∧
      Reports (LanDriver.opened [longError] fun _ => []) t (-1) := by
  have hcall : Call (LanDriver.opened [longError] fun _ => []) [⟨[], 0⟩, ⟨[], 0⟩]
      (((LanDriver.opened [longError] fun _ => []).round ⟨[], 0⟩).round ⟨[], 0⟩) (-1) :=
    ⟨rfl, rfl, rfl, rfl⟩
  refine ⟨_, hcall, (read_reports_iff [longError] (fun _ => []) [] rfl hcall).mpr ?_⟩
  exact List.forall_mem_singleton.mpr (show ¬ Accepts longError.status by decide)

/-- A proper frame goes up, and the call returns -1. -/
theorem nextFrame_not_reported :
    ∃ t, Call (LanDriver.opened [nextFrame] fun _ => []) [⟨[], 0⟩, ⟨[], 0⟩] t (-1) ∧
      t.received = [(List.replicate 16 0, 60)] ∧
      ¬ Reports (LanDriver.opened [nextFrame] fun _ => []) t (-1) := by
  refine ⟨_, ⟨rfl, rfl, rfl, rfl⟩, rfl, fun h => ?_⟩
  have hpos : (0 : Int) ≤ -1 := h.1.mpr nofun
  omega

end Plak1a.Lan.RxResult
