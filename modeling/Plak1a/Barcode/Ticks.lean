import Mathlib.Data.UInt
import Mathlib.Logic.Function.Basic
import Plak1a.Lib.Run
import Plak1a.Barcode.Timer

/-!
# Runs of the tick counter and its timers

`Timer0Handler` counts `ticks`; `counter_read` loads it once, and the load is the moment of
the call. From one call to the next the 32-bit counter keeps step with the ticks. What it
cannot know is how often `ticks` had wrapped around before the first call, so that only
differences of its values are times.
-/

namespace Plak1a.Barcode.Ticks

open Plak1a.Lib.Run Plak1a.Barcode.Timer

inductive Act where
  | timer0Handler
  | counterRead
  | timerStart (x : Nat)
  | timerRestart (i : Nat) (t : UInt32)
  | timerElapsed (i : Nat)
  deriving DecidableEq

/-- Whether `counter_read` is called. -/
def Act.reads : Act → Bool
  | .counterRead | .timerStart _ | .timerElapsed _ => true
  | _ => false

def Act.isTick : Act → Bool
  | .timer0Handler => true
  | _ => false

/-- The global variables and the timer variables. The last three fields are not kept by the
code: the interrupts so far, and how many there had been at the first and at the latest call
of `counter_read`. -/
structure State where
  ticks : UInt16
  globals : Counter
  timers : Nat → UInt32
  time : Nat
  firstRead : Option Nat
  lastRead : Option Nat

/-- `counter_read()`: its result and the state behind it. -/
def State.counterRead (s : State) : UInt32 × State :=
  let c := Timer.counterRead s.ticks s.globals
  (c.counter, { s with
    globals := c
    firstRead := some (s.firstRead.getD s.time)
    lastRead := some s.time })

/-- The `e` of `timer_elapsed(i, e)`. -/
def State.elapsed (s : State) (i : Nat) : UInt32 := s.counterRead.1 - s.timers i

def step (s : State) : Act → Option State
  | .timer0Handler => some { s with ticks := s.ticks + 1, time := s.time + 1 }
  | .counterRead => some s.counterRead.2
  | .timerStart x =>
    let r := s.counterRead
    some { r.2 with timers := Function.update r.2.timers x r.1 }
  | .timerRestart i t =>
    some { s with timers := Function.update s.timers i (s.timers i + t) }
  | .timerElapsed _ => some s.counterRead.2

/-- The initial state, with any values in the timer variables. -/
def start (timers : Nat → UInt32) : State where
  ticks := 0
  globals := ⟨0, 0, 0⟩
  timers := timers
  time := 0
  firstRead := none
  lastRead := none

/-- A call of `counter_read` comes at most 65535 ticks after the one before it. -/
def InTime (s : State) (a : Act) : Prop :=
  a.reads = true → ∀ r, s.lastRead = some r → s.time - r ≤ 65535

instance (s : State) (a : Act) : Decidable (InTime s a) :=
  match h : s.lastRead with
  | none => isTrue fun _ _ hr => nomatch h.symm.trans hr
  | some l => decidable_of_iff (a.reads = true → s.time - l ≤ 65535)
      ⟨fun hl ha _ hr => Option.some.inj (h.symm.trans hr) ▸ hl ha, fun hs ha => hs ha l h⟩

/-- The ticks of the full periods before the first call, or before now if there was none. -/
def State.missed (s : State) : Nat := s.firstRead.getD s.time / 2 ^ 16 * 2 ^ 16

/-- Timer interrupts in a part of a run. -/
def ticksOf (as : List Act) : Nat := as.countP Act.isTick

/-- Ticks before the first call of `counter_read`. -/
def ticksBefore (as : List Act) : Nat := ticksOf (as.takeWhile fun a => !a.reads)

/-- What `timer_restart` adds to timer `i`. -/
def adjustments (i : Nat) (as : List Act) : List UInt32 :=
  as.filterMap fun
    | .timerRestart j t => if j = i then some t else none
    | _ => none

/-- The globals after a call at `l`, the first one having come at `f`. -/
structure CountsFrom (g : Counter) (f l : Nat) : Prop where
  le : f ≤ l
  synced : Synced (UInt16.ofNat l) g
  counter : g.counter = UInt32.ofNat (l - f / 2 ^ 16 * 2 ^ 16)

structure Counts (s : State) : Prop where
  ticks : s.ticks = UInt16.ofNat s.time
  unread : s.lastRead = none → s.firstRead = none ∧ s.globals = ⟨0, 0, 0⟩
  read : ∀ l, s.lastRead = some l →
    l ≤ s.time ∧ ∃ f, s.firstRead = some f ∧ CountsFrom s.globals f l

variable {s t u : State} {g : Counter} {f l n i : Nat} {a : Act} {as : List Act}

theorem toNat_ticks_sub (h : l ≤ n) (hn : n - l ≤ 65535) :
    (UInt16.ofNat n - UInt16.ofNat l).toNat = n - l := by
  rw [UInt16.toNat_sub, UInt16.toNat_ofNat', UInt16.toNat_ofNat']
  omega

/-- A call within a period of the last one. -/
theorem CountsFrom.next (h : CountsFrom g f l) (hle : l ≤ n) (hn : n - l ≤ 65535) :
    CountsFrom (Timer.counterRead (UInt16.ofNat n) g) f n where
  le := Nat.le_trans h.le hle
  synced := synced_counterRead _ g
  counter := by
    have hfl := h.le
    have hdiff : (UInt16.ofNat n - UInt16.ofNat l).toUInt32 = UInt32.ofNat (n - l) := by
      rw [← UInt32.toNat_inj, UInt16.toNat_toUInt32, toNat_ticks_sub hle hn, UInt32.toNat_ofNat']
      omega
    rw [counterRead_counter h.synced, h.counter, hdiff, ← UInt32.ofNat_add]
    congr 1
    omega

/-- The first call. -/
theorem countsFrom_first (n : Nat) :
    CountsFrom (Timer.counterRead (UInt16.ofNat n) ⟨0, 0, 0⟩) n n where
  le := Nat.le_refl n
  synced := synced_counterRead _ _
  counter := by
    have hsync : Synced 0 ⟨0, 0, 0⟩ := ⟨rfl, rfl⟩
    rw [counterRead_counter hsync, ← UInt32.toNat_inj, UInt32.toNat_add, UInt16.toNat_toUInt32,
      UInt16.sub_zero, UInt16.toNat_ofNat', UInt32.toNat_ofNat']
    dsimp only
    rw [show (0 : UInt32).toNat = 0 from rfl]
    omega

theorem counts_start (timers : Nat → UInt32) : Counts (start timers) where
  ticks := rfl
  unread := fun _ => ⟨rfl, rfl⟩
  read := fun _ h => nomatch h

theorem Counts.countsFrom (h : Counts s) (ht : InTime s .counterRead) :
    CountsFrom s.counterRead.2.globals (s.firstRead.getD s.time) s.time := by
  show CountsFrom (Timer.counterRead s.ticks s.globals) _ _
  rw [h.ticks]
  cases hl : s.lastRead with
  | none =>
    obtain ⟨hfirst, hglobals⟩ := h.unread hl
    rw [hfirst, hglobals, Option.getD_none]
    exact countsFrom_first s.time
  | some l =>
    obtain ⟨hle, f, hfirst, hcounts⟩ := h.read l hl
    rw [hfirst, Option.getD_some]
    exact hcounts.next hle (ht rfl l hl)

/-- What a call returns. -/
theorem Counts.result (h : Counts s) (ht : InTime s .counterRead) :
    s.counterRead.1 = UInt32.ofNat (s.time - s.missed) := (h.countsFrom ht).counter

theorem Counts.counterRead (h : Counts s) (ht : InTime s .counterRead) :
    Counts s.counterRead.2 where
  ticks := h.ticks
  unread := fun hl => nomatch hl
  read := fun _ hl => by
    cases hl
    exact ⟨Nat.le_refl _, _, rfl, h.countsFrom ht⟩

/-- The timer variables do not matter. -/
theorem Counts.timers (h : Counts s) (timers : Nat → UInt32) : Counts { s with timers } where
  ticks := h.ticks
  unread := h.unread
  read := h.read

theorem counts_step (h : Counts s) (ht : InTime s a) (hs : step s a = some t) : Counts t := by
  cases a with
  | timer0Handler =>
    cases hs
    refine ⟨?_, h.unread, fun l hl => ?_⟩
    · show s.ticks + 1 = UInt16.ofNat (s.time + 1)
      rw [h.ticks, UInt16.ofNat_add]
      rfl
    · obtain ⟨hle, hread⟩ := h.read l hl
      exact ⟨Nat.le_succ_of_le hle, hread⟩
  | counterRead =>
    cases hs
    exact h.counterRead ht
  | timerStart x =>
    cases hs
    exact (h.counterRead ht).timers _
  | timerRestart i t =>
    cases hs
    exact h.timers _
  | timerElapsed i =>
    cases hs
    exact h.counterRead ht

theorem adjustments_cons (a : Act) (as : List Act) :
    adjustments i (a :: as) = adjustments i [a] ++ adjustments i as := by
  rw [← List.singleton_append, adjustments, List.filterMap_append]
  rfl

/-- What one action changes of timer `i`, unless it starts it. -/
theorem step_timer (hs : step s a = some t) (hne : a ≠ .timerStart i) :
    t.timers i = s.timers i + (adjustments i [a]).sum := by
  cases a with
  | timer0Handler =>
    cases hs
    exact (UInt32.add_zero _).symm
  | counterRead =>
    cases hs
    exact (UInt32.add_zero _).symm
  | timerStart x =>
    cases hs
    have hx : i ≠ x := fun heq => hne (heq ▸ rfl)
    exact (Function.update_of_ne hx _ _).trans (UInt32.add_zero _).symm
  | timerRestart j v =>
    cases hs
    show Function.update s.timers j (s.timers j + v) i = _
    by_cases hj : j = i
    · subst hj
      have hadj : adjustments j [.timerRestart j v] = [v] := by simp [adjustments]
      rw [Function.update_self, hadj, List.sum_singleton]
    · have hadj : adjustments i [.timerRestart j v] = [] := by simp [adjustments, hj]
      rw [Function.update_of_ne (Ne.symm hj), hadj, List.sum_nil, UInt32.add_zero]
  | timerElapsed j =>
    cases hs
    exact (UInt32.add_zero _).symm

theorem run_timer (as : List Act) : ∀ {s t : State}, exec step s as = some t →
    .timerStart i ∉ as → t.timers i = s.timers i + (adjustments i as).sum := by
  induction as with
  | nil =>
    intro s t he _
    cases he
    exact (UInt32.add_zero _).symm
  | cons a as ih =>
    intro s t he hne
    obtain ⟨u, hu, hrest⟩ := Option.bind_eq_some_iff.mp he
    have hsum := congrArg List.sum (adjustments_cons (i := i) a as)
    rw [ih hrest fun hmem => hne (List.mem_cons_of_mem a hmem),
      step_timer hu fun heq => hne (heq ▸ List.mem_cons_self), hsum, List.sum_append,
      UInt32.add_assoc]

/-- Time is the number of ticks, and the first call stays the first. -/
theorem step_time (hs : step s a = some t) :
    t.time = s.time + ticksOf [a] ∧ ∀ f, s.firstRead = some f → t.firstRead = some f := by
  have hread : ∀ f, s.firstRead = some f → s.counterRead.2.firstRead = some f := fun f hf => by
    show some (s.firstRead.getD s.time) = _
    rw [hf, Option.getD_some]
  cases a with
  | timer0Handler =>
    cases hs
    exact ⟨rfl, fun _ hf => hf⟩
  | counterRead =>
    cases hs
    exact ⟨rfl, hread⟩
  | timerStart x =>
    cases hs
    exact ⟨rfl, hread⟩
  | timerRestart j v =>
    cases hs
    exact ⟨rfl, fun _ hf => hf⟩
  | timerElapsed j =>
    cases hs
    exact ⟨rfl, hread⟩

theorem run_time (as : List Act) : ∀ {s t : State}, exec step s as = some t →
    t.time = s.time + ticksOf as ∧ ∀ f, s.firstRead = some f → t.firstRead = some f := by
  induction as with
  | nil =>
    intro s t he
    cases he
    exact ⟨rfl, fun _ hf => hf⟩
  | cons a as ih =>
    intro s t he
    obtain ⟨u, hu, hrest⟩ := Option.bind_eq_some_iff.mp he
    obtain ⟨htime, hfirst⟩ := step_time hu
    obtain ⟨htime', hfirst'⟩ := ih hrest
    refine ⟨?_, fun f hf => hfirst' f (hfirst f hf)⟩
    rw [htime', htime, ticksOf, ticksOf, ticksOf, Nat.add_assoc, ← List.countP_append,
      List.singleton_append]

theorem Counts.missed_le (h : Counts s) : s.missed ≤ s.time := by
  refine Nat.le_trans (Nat.div_mul_le_self _ _) ?_
  cases hl : s.lastRead with
  | none =>
    rw [(h.unread hl).1]
    exact Nat.le_refl _
  | some l =>
    obtain ⟨hle, f, hfirst, hcounts⟩ := h.read l hl
    rw [hfirst]
    exact Nat.le_trans hcounts.le hle

variable {timers : Nat → UInt32}

theorem counts_run (h : exec step (start timers) as = some s)
    (hs : Along InTime step (start timers) as) : Counts s :=
  inv_of_along (fun _ _ _ hc hp ht => counts_step hc hp ht) (counts_start timers) hs h

/-- A timer started in a run of calls less than a period apart, and read behind it. -/
theorem elapsed_run {as₁ as₂ : List Act}
    (h : exec step (start timers) (as₁ ++ .timerStart i :: as₂) = some s)
    (hs : Along InTime step (start timers) (as₁ ++ .timerStart i :: as₂))
    (hr : InTime s .counterRead) (hne : .timerStart i ∉ as₂) :
    s.elapsed i = UInt32.ofNat (ticksOf as₂) - (adjustments i as₂).sum := by
  obtain ⟨s₁, h₁, h₂⟩ := Option.bind_eq_some_iff.mp ((exec_append _ _ _).symm.trans h)
  obtain ⟨hs₁, hs₂⟩ := (along_append _ _ _).mp hs
  have hcounts₁ := counts_run h₁ hs₁
  have hr₁ : InTime s₁ .counterRead := fun _ => (hs₂ s₁ h₁).1 rfl
  obtain ⟨u, hu, hrest⟩ := Option.bind_eq_some_iff.mp h₂
  cases hu
  obtain ⟨htime, hfirst⟩ := run_time as₂ hrest
  have hmissed : s.missed = s₁.missed := by
    rw [State.missed, hfirst _ rfl, Option.getD_some]
    rfl
  have hresult : s.counterRead.1 =
      UInt32.ofNat (s₁.time - s₁.missed) + UInt32.ofNat (ticksOf as₂) := by
    rw [(counts_run h hs).result hr, hmissed, htime, ← UInt32.ofNat_add]
    exact congrArg UInt32.ofNat (Nat.sub_add_comm hcounts₁.missed_le)
  rw [State.elapsed, hresult, run_timer as₂ hrest hne]
  show _ - (Function.update s₁.counterRead.2.timers i s₁.counterRead.1 i + _) = _
  rw [Function.update_self, hcounts₁.result hr₁]
  grind

/-- The first call as the actions show it. -/
theorem firstRead_run (as : List Act) : ∀ {s t : State}, exec step s as = some t →
    s.firstRead = none → t.firstRead.getD t.time = s.time + ticksBefore as := by
  induction as with
  | nil =>
    intro s t he hnone
    cases he
    rw [hnone]
    rfl
  | cons a as ih =>
    intro s t he hnone
    obtain ⟨u, hu, hrest⟩ := Option.bind_eq_some_iff.mp he
    have htime := (step_time hu).1
    cases ha : a.reads with
    | true =>
      have hfirst : u.firstRead = some s.time := by
        have hread : s.counterRead.2.firstRead = some s.time := by
          show some (s.firstRead.getD s.time) = _
          rw [hnone, Option.getD_none]
        cases a <;> cases hu <;> first | exact hread | cases ha
      rw [(run_time as hrest).2 _ hfirst, Option.getD_some, ticksBefore,
        List.takeWhile_cons_of_neg (by rw [ha]; decide)]
      rfl
    | false =>
      have hfirst : u.firstRead = none := by
        cases a <;> cases hu <;> first | exact hnone | cases ha
      rw [ih hrest hfirst, htime, ticksBefore, ticksBefore,
        List.takeWhile_cons_of_pos (by rw [ha]; decide), Nat.add_assoc, ticksOf, ticksOf, ticksOf,
        ← List.countP_append, List.singleton_append]

theorem toNat_sum (l : List UInt32) : l.sum.toNat = (l.map UInt32.toNat).sum % 2 ^ 32 := by
  induction l with
  | nil => rfl
  | cons t l ih =>
    rw [List.sum_cons, List.map_cons, List.sum_cons, UInt32.toNat_add, ih, Nat.add_mod_mod]

theorem toNat_sub_sum {l : List UInt32} (hn : n < 2 ^ 32) (hle : (l.map UInt32.toNat).sum ≤ n) :
    (UInt32.ofNat n - l.sum).toNat = n - (l.map UInt32.toNat).sum := by
  have hsum : l.sum.toNat = (l.map UInt32.toNat).sum := by
    rw [toNat_sum, Nat.mod_eq_of_lt (Nat.lt_of_le_of_lt hle hn)]
  have hofNat : (UInt32.ofNat n).toNat = n := by
    rw [UInt32.toNat_ofNat', Nat.mod_eq_of_lt hn]
  rw [UInt32.toNat_sub_of_le _ _ (UInt32.le_iff_toNat_le.mpr (by rw [hsum, hofNat]; exact hle)),
    hsum, hofNat]

/-- In a run whose calls of `counter_read` are at most 65535 ticks apart, a call returns the
ticks since the start but for the full periods before the first call, and a timer shows the
ticks since its start but for its adjustments. -/
theorem counterRead_extends (h : exec step (start timers) as = some s)
    (hs : Along InTime step (start timers) as) (hr : InTime s .counterRead) :
    s.counterRead.1 = UInt32.ofNat (ticksOf as - ticksBefore as / 2 ^ 16 * 2 ^ 16) ∧
      ∀ as₁ as₂ i, as = as₁ ++ .timerStart i :: as₂ → .timerStart i ∉ as₂ →
        s.elapsed i = UInt32.ofNat (ticksOf as₂) - (adjustments i as₂).sum ∧
          (ticksOf as₂ < 2 ^ 32 → ((adjustments i as₂).map UInt32.toNat).sum ≤ ticksOf as₂ →
            (s.elapsed i).toNat =
              ticksOf as₂ - ((adjustments i as₂).map UInt32.toNat).sum) := by
  constructor
  · have htime : s.time = ticksOf as := by
      rw [(run_time as h).1]
      exact Nat.zero_add _
    have hfirst : s.firstRead.getD s.time = ticksBefore as := by
      rw [firstRead_run as h rfl]
      exact Nat.zero_add _
    rw [(counts_run h hs).result hr, State.missed, hfirst, htime]
  · rintro as₁ as₂ i rfl hne
    have helapsed := elapsed_run h hs hr hne
    exact ⟨helapsed, fun hn hle => helapsed ▸ toNat_sub_sum hn hle⟩

/-- A timer started at tick 1, read two ticks later and adjusted by one tick. -/
theorem restarted_extends :
    let as : List Act := [.timer0Handler, .timerStart 0, .timer0Handler, .timer0Handler,
      .timerRestart 0 1]
    ∃ s, exec step (start fun _ => 0) as = some s ∧ s.counterRead.1 = 3 ∧ s.elapsed 0 = 1 := by
  refine ⟨_, rfl, ?_⟩
  have hrun : exec step (start fun _ => 0) [.timer0Handler, .timerStart 0, .timer0Handler,
      .timer0Handler, .timerRestart 0 1] = some _ := rfl
  obtain ⟨hcount, htimer⟩ := counterRead_extends hrun (by decide) (by decide)
  exact ⟨hcount, (htimer [.timer0Handler] [.timer0Handler, .timer0Handler, .timerRestart 0 1] 0
    rfl (by decide)).1⟩

theorem exec_ticks (n : Nat) : ∀ s : State, exec step s (List.replicate n .timer0Handler) =
    some { s with ticks := s.ticks + UInt16.ofNat n, time := s.time + n } := by
  induction n with
  | zero =>
    intro s
    show some s = _
    rw [show UInt16.ofNat 0 = 0 from rfl, UInt16.add_zero]
    rfl
  | succ n ih =>
    intro s
    rw [List.replicate_succ, exec_cons_of_step rfl, ih]
    dsimp only
    rw [UInt16.add_assoc, Nat.add_assoc, UInt16.ofNat_add, UInt16.add_comm 1, Nat.add_comm 1]
    rfl

/-- The first call comes after a full period of ticks, and returns 0. -/
theorem firstPeriod_missed :
    ¬ ∀ (timers : Nat → UInt32) (as : List Act) (s : State),
      exec step (start timers) as = some s → Along InTime step (start timers) as →
      InTime s .counterRead → s.counterRead.1 = UInt32.ofNat (ticksOf as) := by
  intro h
  have hrun := exec_ticks (2 ^ 16) (start fun _ => 0)
  have hticks : ticksOf (List.replicate (2 ^ 16) .timer0Handler) = 2 ^ 16 :=
    List.countP_replicate.trans (if_pos rfl)
  have hread := h _ _ _ hrun
    (along_of_mem (fun a ha s hreads => by
      rw [List.eq_of_mem_replicate ha] at hreads
      cases hreads) _)
    fun _ _ hl => nomatch hl
  rw [hticks] at hread
  exact absurd hread (by decide)

end Plak1a.Barcode.Ticks
