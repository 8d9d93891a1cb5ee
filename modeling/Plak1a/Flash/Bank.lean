import Mathlib.Data.List.Basic
import Mathlib.Data.Nat.Find

/-!
# The flash bank on the bus

What the driver writes to the bank, and how it waits for an operation of the device. The
moments of a wait are counted by what the loop looks at: in round `i` it reads the status at
moment `2 * i`, and the timer at moment `2 * i + 1` if the device was still busy.
-/

namespace Plak1a.Flash.Bank

/-- A write to the bank; a datum is what a programming command asks for. -/
inductive Cycle where
  | command (addr : UInt32) (data : UInt16)
  | datum (addr : UInt32) (data : UInt16)
deriving DecidableEq

def cfgFlashAddr0 : UInt32 := 0x555
def cfgFlashAddr1 : UInt32 := 0xaaa

/-- Timeouts in ms -/
def cfgFlashEraseTout : UInt32 := 120000
def cfgFlashWriteTout : UInt32 := 1000

/-- The command that returns the bank to read mode. -/
def resetBank (addr : UInt32) : Cycle := .command addr 0x00F0

/-- An operation of the device: the moment at which it is finished, if ever, and what
`get_timer(start)` returns in the rounds of the wait. -/
structure Operation where
  finish : Option Nat
  timer : Nat → UInt32

def Operation.finishedBy (op : Operation) (moment : Nat) : Bool := op.finish.any (· ≤ moment)

/-- Whether the status that round `i` of the wait reads is that of a finished operation. -/
def Operation.done (op : Operation) (i : Nat) : Bool := op.finishedBy (2 * i)

/-- The round in which a wait is left, among the first `polls` ones. -/
def wait (tout : UInt32) (polls : Nat) (done : Nat → Bool) (timer : Nat → UInt32) : Option Nat :=
  (List.range polls).find? fun i => done i || tout < timer i

/-- A call of the driver: what it has written, what it returned, which is nothing while it is
still waiting, and whether the device has then finished what it was last asked to do. -/
structure Outcome where
  cycles : List Cycle
  result : Option Nat
  finished : Bool

/-- A call that returned after a command has reset the bank, or the device is idle. -/
def LeftReadable (o : Outcome) : Prop :=
  o.result ≠ none → o.cycles = [] ∨ (∃ addr, o.cycles.getLast? = some (resetBank addr)) ∨
    o.finished = true

/-- The device finishes by the time the wait for it is given up. -/
def InTime (tout : UInt32) (op : Operation) : Prop :=
  ∀ i, tout < op.timer i → (∀ j < i, op.timer j ≤ tout) → op.finishedBy (2 * i + 1) = true

/-- The wait sees the operation finished. -/
def Seen (tout : UInt32) (op : Operation) : Prop :=
  ∃ i, op.done i = true ∧ ∀ j < i, op.timer j ≤ tout

/-- The wait is over within `polls` rounds because the operation is finished. -/
def Completes (tout : UInt32) (polls : Nat) (op : Operation) : Prop :=
  ∃ i, wait tout polls op.done op.timer = some i ∧ op.done i = true

/-- The wait is over within `polls` rounds, and the device still busy. -/
def Late (tout : UInt32) (polls : Nat) (op : Operation) : Prop :=
  ∃ i, wait tout polls op.done op.timer = some i ∧ op.finishedBy (2 * i + 1) = false

variable {tout : UInt32} {polls i t : Nat} {op : Operation} {done : Nat → Bool}
  {timer : Nat → UInt32}

theorem wait_eq_some : wait tout polls done timer = some i ↔
    (done i = true ∨ tout < timer i) ∧ i < polls ∧ ∀ j < i, done j = false ∧ timer j ≤ tout := by
  rw [wait, List.find?_range_eq_some, List.mem_range, Bool.or_eq_true, decide_eq_true_iff]
  simp only [Bool.not_or, Bool.and_eq_true, Bool.not_eq_true', decide_eq_false_iff_not,
    UInt32.not_lt]

theorem Operation.finishedBy_mono (h : op.finishedBy i = true) (hle : i ≤ t) :
    op.finishedBy t = true := by
  rw [Operation.finishedBy, Option.any_eq_true] at h ⊢
  obtain ⟨f, hf, hfi⟩ := h
  exact ⟨f, hf, decide_eq_true (Nat.le_trans (of_decide_eq_true hfi) hle)⟩

theorem Completes.not_late (h : Completes tout polls op) : ¬ Late tout polls op := by
  intro ⟨i, hi, hbusy⟩
  obtain ⟨j, hj, hdone⟩ := h
  obtain rfl := Option.some.inj (hi.symm.trans hj)
  exact absurd (hbusy.symm.trans (Operation.finishedBy_mono hdone (Nat.le_succ (2 * i))))
    Bool.false_ne_true

theorem not_completes_of_none (h : wait tout polls op.done op.timer = none) :
    ¬ Completes tout polls op := by
  intro ⟨i, hi, _⟩
  cases h.symm.trans hi

theorem completes_iff (h : wait tout polls op.done op.timer = some i) :
    Completes tout polls op ↔ op.done i = true := by
  constructor
  · intro hc
    obtain ⟨j, hj, hdone⟩ := hc
    obtain rfl := Option.some.inj (h.symm.trans hj)
    exact hdone
  · exact fun hdone => ⟨i, h, hdone⟩

theorem not_late_of_none (h : wait tout polls op.done op.timer = none) : ¬ Late tout polls op := by
  intro ⟨i, hi, _⟩
  cases h.symm.trans hi

theorem not_late_iff (h : wait tout polls op.done op.timer = some i) :
    ¬ Late tout polls op ↔ op.finishedBy (2 * i + 1) = true := by
  constructor
  · intro hlate
    by_contra hbusy
    exact hlate ⟨i, h, Bool.eq_false_iff.mpr hbusy⟩
  · intro hfinished ⟨j, hj, hbusy⟩
    obtain rfl := Option.some.inj (h.symm.trans hj)
    exact absurd (hbusy.symm.trans hfinished) Bool.false_ne_true

theorem Completes.seen (h : Completes tout polls op) : Seen tout op := by
  obtain ⟨i, hi, hdone⟩ := h
  exact ⟨i, hdone, fun j hj => ((wait_eq_some.mp hi).2.2 j hj).2⟩

theorem InTime.not_late (h : InTime tout op) : ¬ Late tout polls op := by
  intro ⟨i, hi, hbusy⟩
  obtain ⟨hstop, _, hbefore⟩ := wait_eq_some.mp hi
  apply absurd hbusy
  rw [Bool.not_eq_false]
  rcases hstop with hdone | htimer
  · exact Operation.finishedBy_mono hdone (Nat.le_succ (2 * i))
  · exact h i htimer fun j hj => (hbefore j hj).2

/-- An operation that the wait can see finished is seen with enough polls. -/
theorem Seen.completes (h : Seen tout op) : ∃ n, ∀ polls, n ≤ polls → Completes tout polls op := by
  classical
  obtain ⟨_, hdone, htimer⟩ := h
  have hex : ∃ i, op.done i = true := ⟨_, hdone⟩
  have hle := Nat.find_min' hex hdone
  refine ⟨Nat.find hex + 1, fun polls hpolls => ⟨Nat.find hex, ?_, Nat.find_spec hex⟩⟩
  rw [wait_eq_some]
  refine ⟨Or.inl (Nat.find_spec hex), hpolls, fun j hj => ⟨?_, htimer j (by omega)⟩⟩
  exact Bool.eq_false_iff.mpr (Nat.find_min hex hj)

theorem seen_completes {ops : Nat → Operation} {k : Nat} (h : ∀ j < k, Seen tout (ops j)) :
    ∃ n, ∀ polls, n ≤ polls → ∀ j < k, Completes tout polls (ops j) := by
  induction k with
  | zero => exact ⟨0, fun _ _ j hj => absurd hj (Nat.not_lt_zero j)⟩
  | succ k ih =>
    obtain ⟨n, hn⟩ := ih fun j hj => h j (Nat.lt_succ_of_lt hj)
    obtain ⟨m, hm⟩ := (h k (Nat.lt_succ_self k)).completes
    refine ⟨max n m, fun polls hpolls j hj => ?_⟩
    rcases Nat.lt_succ_iff_lt_or_eq.mp hj with hlt | rfl
    · exact hn polls (Nat.le_trans (Nat.le_max_left n m) hpolls) j hlt
    · exact hm polls (Nat.le_trans (Nat.le_max_right n m) hpolls)

/-- An operation that is not in time is given up with enough polls. -/
theorem late_of_not_inTime (h : ¬ InTime tout op) :
    ∃ n, ∀ polls, n ≤ polls → Late tout polls op := by
  obtain ⟨i, hi⟩ := not_forall.mp h
  obtain ⟨htimer, hi⟩ := Classical.not_imp.mp hi
  obtain ⟨hbefore, hbusy⟩ := Classical.not_imp.mp hi
  rw [Bool.not_eq_true] at hbusy
  refine ⟨i + 1, fun polls hpolls => ⟨i, ?_, hbusy⟩⟩
  rw [wait_eq_some]
  refine ⟨Or.inr htimer, hpolls, fun j hj => ⟨?_, hbefore j hj⟩⟩
  rw [Bool.eq_false_iff]
  intro hdone
  exact absurd (hbusy.symm.trans (Operation.finishedBy_mono hdone (by omega))) Bool.false_ne_true

/-- Without a reset at the end, the device has to be idle. -/
theorem leftReadable_iff_finished {o : Outcome} {c : Cycle} (hlast : o.cycles.getLast? = some c)
    (hc : ∀ addr, c ≠ resetBank addr) :
    LeftReadable o ↔ (o.result ≠ none → o.finished = true) := by
  constructor
  · intro h hres
    rcases h hres with hnil | ⟨addr, haddr⟩ | hfinished
    · rw [hnil] at hlast
      cases hlast
    · exact absurd (Option.some.inj (hlast.symm.trans haddr)) (hc addr)
    · exact hfinished
  · exact fun h hres => Or.inr (Or.inr (h hres))

end Plak1a.Flash.Bank
