import Mathlib.Data.Nat.Bitwise
import Plak1a.Lan.Transmit
import Plak1a.Lib.Fields
import Plak1a.Lib.Run

/-!
# Completions belong to the frame just sent

A call takes the first status it sees for its own, and the loop that should discard old
statuses only looks at their number. With the clock of `lan` no call times out, so none
leaves a completion behind and every status taken is the right one. With a clock that runs
this holds as long as no call takes a status after an earlier completion was outstanding
when it sent its frame.
-/

namespace Plak1a.Lan.TxComplete

open Transmit Lib.Fields Lib.Run

/-- The tag in a status word. -/
def statusTag (txStatus : UInt32) : UInt16 := (txStatus >>> 16).toUInt16

/-- A status decides a call only if it is that of the frame the call sent. -/
def OwnStatus : Result → Prop
  | .sent _ own popped txStatus =>
    popped = own ∧ statusTag txStatus = own.tag ∧ txStatus &&& txStatusFifoEs = 0
  | .error own popped txStatus => popped = own ∧ statusTag txStatus = own.tag
  | .timeout _ => True

/-- A status is only taken where the call's own frame was the only one outstanding. -/
def CleanPop (s : State) : Action → Prop
  | .task _ => ∀ len startTime, s.pc = .popStatus len startTime → s.clean = true
  | _ => True

/-- The upper half of a status word is the tag. -/
theorem tag_statusOf (f : Frame) (low : UInt16) : statusTag (statusOf f low) = f.tag := by
  have ht := f.tag.toNat_lt
  have hl := low.toNat_lt
  apply UInt16.toNat_inj.mp
  have htag : (f.tag.toUInt32 <<< 16).toNat = f.tag.toNat * 2 ^ 16 := by
    rw [toNat_shiftLeft _ 16 rfl (by decide), UInt16.toNat_toUInt32]
    omega
  rw [statusTag, UInt32.toNat_toUInt16, toNat_shiftRight _ 16 rfl (by decide), statusOf,
    UInt32.toNat_or, htag, UInt16.toNat_toUInt32, or_eq_add _ hl]
  omega

/-- The error test of the driver: its mask is a single bit. -/
theorem noError_of_ne {txStatus : UInt32} (h : ¬ txStatus &&& txStatusFifoEs = txStatusFifoEs) :
    txStatus &&& txStatusFifoEs = 0 := by
  have hmask : (txStatus &&& txStatusFifoEs).toNat = txStatus.toNat &&& 2 ^ 15 := by
    rw [UInt32.toNat_and]
    rfl
  rw [Nat.and_two_pow] at hmask
  cases hbit : txStatus.toNat.testBit 15 with
  | false =>
    rw [hbit] at hmask
    exact UInt32.toNat_inj.mp hmask
  | true =>
    rw [hbit] at hmask
    exact absurd (UInt32.toNat_inj.mp hmask) h

/-- Between sending a frame and taking a status. -/
def Waiting : Pc → Prop
  | .startTime _ | .poll _ _ | .testTime _ _ | .popStatus _ _ => True
  | _ => False

instance : DecidablePred Waiting := fun pc => by
  cases pc <;> unfold Waiting <;> infer_instance

/-- The start time kept, read from the clock of `lan`. -/
def StartsAtZero : Pc → Prop
  | .poll _ startTime | .testTime _ startTime => startTime = 0
  | _ => True

/-- What an access of the task can do: move on, send the frame, give up, or take the oldest
status and return. With the clock of `lan` a start time is 0. -/
theorem task_cases {s t : State} {copy : Copy} {addr clock : UInt32}
    (ht : task copy addr s clock = some t) :
    (∃ pc, t = { s with pc := pc } ∧ (Waiting pc ↔ Waiting s.pc) ∧
      (copy = .lan → StartsAtZero s.pc → StartsAtZero pc)) ∨
    (∃ len, s.pc = .send len ∧ t = send addr s len) ∨
    (∃ len startTime, s.pc = .testTime len startTime ∧
      txTimeout < getTime copy clock - startTime ∧ t = s.return (.timeout s.own)) ∨
    ∃ len startTime f txStatus rest r, s.pc = .popStatus len startTime ∧
      s.txStatusFifo = (f, txStatus) :: rest ∧ t = { s with txStatusFifo := rest }.return r ∧
      (r = .error s.own f txStatus ∨
        ∃ len, r = .sent len s.own f txStatus ∧ txStatus &&& txStatusFifoEs = 0) := by
  unfold task at ht
  cases hpc : s.pc <;> rw [hpc] at ht <;> dsimp only at ht
  case idle => cases ht
  case drain len timeout =>
    left
    split at ht
    · split at ht
      all_goals
        cases ht
        exact ⟨_, rfl, Iff.rfl, fun _ _ => trivial⟩
    · cases ht
      exact ⟨_, rfl, Iff.rfl, fun _ _ => trivial⟩
  case send len =>
    cases ht
    exact Or.inr (Or.inl ⟨len, rfl, rfl⟩)
  case startTime len =>
    cases ht
    refine Or.inl ⟨_, rfl, Iff.rfl, ?_⟩
    rintro rfl _
    rfl
  case poll len startTime =>
    left
    split at ht
    · cases ht
      exact ⟨_, rfl, Iff.rfl, fun _ => id⟩
    · cases ht
      exact ⟨_, rfl, Iff.rfl, fun _ _ => trivial⟩
  case testTime len startTime =>
    split at ht
    · rename_i hlate
      cases ht
      exact Or.inr (Or.inr (Or.inl ⟨len, startTime, rfl, hlate, rfl⟩))
    · cases ht
      exact Or.inl ⟨_, rfl, Iff.rfl, fun _ => id⟩
  case popStatus len startTime =>
    right; right; right
    split at ht
    · cases ht
    · rename_i f txStatus rest hfifo
      refine ⟨len, startTime, f, txStatus, rest, ?_⟩
      split at ht
      · cases ht
        exact ⟨_, rfl, hfifo, rfl, Or.inl rfl⟩
      · rename_i herr
        cases ht
        exact ⟨_, rfl, hfifo, rfl, Or.inr ⟨len, rfl, noError_of_ne herr⟩⟩

/-- What holds between two steps of either copy. -/
structure Inv (s : State) : Prop where
  tags : ∀ e ∈ s.txStatusFifo, statusTag e.2 = e.1.tag
  flying : s.clean = true → ∀ f ∈ s.inFlight, f = s.own
  queued : s.clean = true → ∀ e ∈ s.txStatusFifo, e.1 = s.own
  results : ∀ r ∈ s.results, OwnStatus r

theorem inv_opened (txbp : Nat → UInt8) : Inv (opened txbp) where
  tags := fun _ h => absurd h List.not_mem_nil
  flying := fun _ _ h => absurd h List.not_mem_nil
  queued := fun _ _ h => absurd h List.not_mem_nil
  results := fun _ h => absurd h List.not_mem_nil

theorem inv_return {s : State} {r : Result} (h : Inv s) (hr : OwnStatus r) : Inv (s.return r) where
  tags := h.tags
  flying := h.flying
  queued := h.queued
  results := by
    intro r' hr'
    rcases List.mem_cons.mp hr' with rfl | hr'
    · exact hr
    · exact h.results r' hr'

theorem inv_send {addr : UInt32} {s : State} (h : Inv s) (len : Nat) : Inv (send addr s len) where
  tags := h.tags
  flying := by
    intro hclean f hf
    obtain ⟨hflight, -⟩ := Bool.and_eq_true_iff.mp hclean
    change f ∈ s.inFlight ++ [_] at hf
    rw [List.isEmpty_iff.mp hflight] at hf
    exact List.mem_singleton.mp hf
  queued := by
    intro hclean e he
    obtain ⟨-, hfifo⟩ := Bool.and_eq_true_iff.mp hclean
    change e ∈ s.txStatusFifo at he
    rw [List.isEmpty_iff.mp hfifo] at he
    exact absurd he List.not_mem_nil
  results := h.results

theorem inv_push {s : State} (h : Inv s) {i : Nat} {f : Frame} (hf : s.inFlight[i]? = some f)
    (low : UInt16) : Inv { s with
      inFlight := s.inFlight.eraseIdx i
      txStatusFifo := s.txStatusFifo ++ [(f, statusOf f low)] } where
  tags := by
    intro e he
    rcases List.mem_append.mp he with he | he
    · exact h.tags e he
    · rw [List.mem_singleton.mp he]
      exact tag_statusOf f low
  flying := fun hclean g hg => h.flying hclean g (List.mem_of_mem_eraseIdx hg)
  queued := by
    intro hclean e he
    rcases List.mem_append.mp he with he | he
    · exact h.queued hclean e he
    · rw [List.mem_singleton.mp he]
      exact h.flying hclean f (List.mem_of_getElem? hf)
  results := h.results

/-- Taking a status of the call's own frame ends the call rightly. -/
theorem inv_pop {s : State} {f : Frame} {txStatus : UInt32} {rest : List (Frame × UInt32)}
    {r : Result} (h : Inv s) (hclean : s.clean = true)
    (hfifo : s.txStatusFifo = (f, txStatus) :: rest)
    (hr : r = .error s.own f txStatus ∨
      ∃ len, r = .sent len s.own f txStatus ∧ txStatus &&& txStatusFifoEs = 0) :
    Inv ({ s with txStatusFifo := rest }.return r) := by
  have hmem : (f, txStatus) ∈ s.txStatusFifo := by
    rw [hfifo]
    exact List.mem_cons_self
  have hown : f = s.own := h.queued hclean (f, txStatus) hmem
  have htag : statusTag txStatus = s.own.tag := by
    rw [← hown]
    exact h.tags (f, txStatus) hmem
  have hrest : Inv { s with txStatusFifo := rest } :=
    { tags := fun e he => h.tags e (by rw [hfifo]; exact List.mem_cons_of_mem _ he)
      flying := h.flying
      queued := fun hc e he => h.queued hc e (by rw [hfifo]; exact List.mem_cons_of_mem _ he)
      results := h.results }
  apply inv_return hrest
  rcases hr with rfl | ⟨len, rfl, hes⟩
  · exact ⟨hown, htag⟩
  · exact ⟨hown, htag, hes⟩

theorem inv_goto {s : State} (h : Inv s) (pc : Pc) : Inv { s with pc := pc } :=
  { tags := h.tags, flying := h.flying, queued := h.queued, results := h.results }

theorem inv_task {s t : State} {copy : Copy} {addr clock : UInt32} (h : Inv s)
    (hclean : CleanPop s (.task clock)) (ht : task copy addr s clock = some t) : Inv t := by
  rcases task_cases ht with ⟨pc, rfl, _⟩ | ⟨len, _, rfl⟩ | ⟨len, startTime, _, _, rfl⟩ |
    ⟨len, startTime, f, txStatus, rest, r, hpc, hfifo, rfl, hr⟩
  · exact inv_goto h pc
  · exact inv_send h len
  · exact inv_return h trivial
  · exact inv_pop h (hclean len startTime hpc) hfifo hr

theorem inv_step {s t : State} {copy : Copy} {addr : UInt32} {a : Action} (h : Inv s)
    (hclean : CleanPop s a) (ht : step copy addr s a = some t) : Inv t := by
  cases a with
  | call ptr len =>
    rw [step] at ht
    split at ht
    · cases ht
      exact { tags := h.tags, flying := h.flying, queued := h.queued, results := h.results }
    · cases ht
  | task clock => exact inv_task h hclean ht
  | push i low =>
    rw [step] at ht
    split at ht
    · cases ht
    · rename_i f hf
      cases ht
      exact inv_push h hf low

/-- The copy under `lan` keeps exactly one completion outstanding while it waits, and none
otherwise. -/
structure OneOutstanding (s : State) : Prop where
  count : s.inFlight.length + s.txStatusFifo.length = if Waiting s.pc then 1 else 0
  clean : s.clean = true
  stopped : StartsAtZero s.pc

theorem oneOutstanding_opened (txbp : Nat → UInt8) : OneOutstanding (opened txbp) :=
  ⟨rfl, rfl, trivial⟩

/-- Before a frame is sent nothing is outstanding, so it is the only one behind. -/
theorem oneOutstanding_send {addr : UInt32} {s : State} {len : Nat} (h : OneOutstanding s)
    (hpc : s.pc = .send len) : OneOutstanding (send addr s len) := by
  have hcount := h.count
  rw [hpc] at hcount
  change s.inFlight.length + s.txStatusFifo.length = 0 at hcount
  have hflight := List.eq_nil_of_length_eq_zero (show s.inFlight.length = 0 by omega)
  have hfifo := List.eq_nil_of_length_eq_zero (show s.txStatusFifo.length = 0 by omega)
  refine ⟨?_, ?_, trivial⟩
  · show (s.inFlight ++ [_]).length + s.txStatusFifo.length = 1
    rw [hflight, hfifo]
    rfl
  · show (s.inFlight.isEmpty && s.txStatusFifo.isEmpty) = true
    rw [hflight, hfifo]
    rfl

theorem oneOutstanding_task {s t : State} {addr clock : UInt32} (h : OneOutstanding s)
    (ht : task .lan addr s clock = some t) : OneOutstanding t := by
  have hcount := h.count
  have hzero := h.stopped
  rcases task_cases ht with ⟨pc, rfl, hwait, hstart⟩ | ⟨len, hpc, rfl⟩ |
    ⟨len, startTime, hpc, hlate, rfl⟩ | ⟨len, startTime, f, txStatus, rest, r, hpc, hfifo, rfl, -⟩
  · refine ⟨?_, h.clean, hstart rfl hzero⟩
    show s.inFlight.length + s.txStatusFifo.length = if Waiting pc then 1 else 0
    rw [hcount, if_congr hwait rfl rfl]
  · exact oneOutstanding_send h hpc
  · -- a clock that stands still never shows a time-out
    rw [hpc] at hzero
    rw [show startTime = 0 from hzero] at hlate
    exact absurd hlate (by show ¬ txTimeout < (0 : UInt32) - 0; decide)
  · refine ⟨?_, h.clean, trivial⟩
    show s.inFlight.length + rest.length = 0
    rw [hpc] at hcount
    change s.inFlight.length + s.txStatusFifo.length = 1 at hcount
    rw [hfifo, List.length_cons] at hcount
    omega

theorem oneOutstanding_step {s t : State} {addr : UInt32} {a : Action} (h : OneOutstanding s)
    (ht : step .lan addr s a = some t) : OneOutstanding t := by
  have hcount := h.count
  cases a with
  | call ptr len =>
    rw [step] at ht
    split at ht
    · rename_i hidle
      cases ht
      rw [hidle] at hcount
      exact ⟨hcount, h.clean, trivial⟩
    · cases ht
  | task clock => exact oneOutstanding_task h ht
  | push i low =>
    rw [step] at ht
    split at ht
    · cases ht
    · rename_i f hf
      cases ht
      refine ⟨?_, h.clean, h.stopped⟩
      have hi := (List.getElem?_eq_some_iff.mp hf).1
      show (s.inFlight.eraseIdx i).length + (s.txStatusFifo ++ [_]).length = _
      rw [← hcount, List.length_eraseIdx_of_lt hi, List.length_append, List.length_singleton]
      omega

/-- Under `lan` every call that takes a status takes that of its own frame. Under `uip-1.0`
this holds in every run in which a status is only taken by a call that found no earlier
completion outstanding when it sent its frame. -/
theorem writes_match_completions (addr : UInt32) (txbp : Nat → UInt8) (as : List Action) :
    (∀ s, exec (step .lan addr) (opened txbp) as = some s → ∀ r ∈ s.results, OwnStatus r) ∧
    (∀ s, Along CleanPop (step .uip addr) (opened txbp) as →
      exec (step .uip addr) (opened txbp) as = some s → ∀ r ∈ s.results, OwnStatus r) := by
  constructor
  · intro s hexec
    have hinv := inv_of_exec (I := fun s => Inv s ∧ OneOutstanding s) (fun s a t hs ht => by
      refine ⟨inv_step hs.1 ?_ ht, oneOutstanding_step hs.2 ht⟩
      cases a with
      | task clock => exact fun _ _ _ => hs.2.clean
      | call ptr len => trivial
      | push i low => trivial) ⟨inv_opened txbp, oneOutstanding_opened txbp⟩ hexec
    exact hinv.1.results
  · intro s halong hexec
    exact (inv_of_along (I := Inv) (fun s a t hs ha ht => inv_step hs ha ht) (inv_opened txbp)
      halong hexec).results

/-- Whether the next access takes a status. -/
def takesStatus : Pc → Bool
  | .popStatus _ _ => true
  | _ => false

theorem cleanPop_task_iff (s : State) (clock : UInt32) :
    CleanPop s (.task clock) ↔ (takesStatus s.pc = true → s.clean = true) := by
  rw [CleanPop]
  cases s.pc <;> simp [takesStatus]

instance (s : State) : ∀ a, Decidable (CleanPop s a)
  | .call _ _ => isTrue trivial
  | .task clock => decidable_of_iff _ (cleanPop_task_iff s clock).symm
  | .push _ _ => isTrue trivial

/-- The status of the first call comes while it polls; that of the second call comes after one look
at the clock and has the error bit. -/
def twoWrites : List Action :=
  [.call (fun _ => 0) 60, .task 0, .task 0, .task 0, .push 0 0, .task 0, .task 0,
    .call (fun _ => 1) 1514, .task 9, .task 9, .task 9, .task 9, .task 9, .push 0 0x8000, .task 9,
    .task 9]

theorem twoWrites_match :
    ∃ s t, exec (step .lan 0) (opened fun _ => 0) twoWrites = some s ∧
      exec (step .uip 0) (opened fun _ => 0) twoWrites = some t ∧
      s.results.map Result.value = [-1, 60] ∧ t.results.map Result.value = [-1, 60] ∧
      (∀ r ∈ s.results, OwnStatus r) ∧ ∀ r ∈ t.results, OwnStatus r := by
  obtain ⟨hlan, huip⟩ := writes_match_completions 0 (fun _ => 0) twoWrites
  exact ⟨_, _, rfl, rfl, rfl, rfl, hlan _ rfl, huip _ (by decide) rfl⟩

/-- The first call times out, its status comes late, and the second call looks at it thirty
times before it sends its own frame. -/
def lateCompletion : List Action :=
  [.call (fun _ => 0) 60, .task 0, .task 0, .task 0, .task 0, .task 3001, .push 0 0,
    .call (fun _ => 0) 60] ++ List.replicate 35 (.task 0)

/-- The second call takes the first frame's status for its own and reports success. -/
theorem late_completion_mistaken :
    ∃ s, exec (step .uip 0) (opened fun _ => 0) lateCompletion = some s ∧
      ∃ r ∈ s.results, r.value = 60 ∧ ¬ OwnStatus r := by
  refine ⟨_, rfl, _, List.mem_cons_self, rfl, fun h => ?_⟩
  exact absurd h.1 (by decide)

end Plak1a.Lan.TxComplete
