import Mathlib.Logic.Function.Basic
import Plak1a.Barcode.Timer

/-!
# `hand_barcode` of the barcode reader

The environment is what the accesses to the hardware return: a list of levels for
`read_signal` and a list of tick counts for `counter_read`, each consumed in program
order. A call whose polls use up a list is still waiting for the sensor.
-/

namespace Plak1a.Barcode.Reader

open Timer

/-- How an inner polling loop ends. -/
inductive Polled
  /-- Another level was read; `e` is the last elapsed time, if any was taken. -/
  | edge (e : Option UInt32) (c : Counter) (levels : List Bool) (ticks : List UInt16)
  /-- The elapsed time made the loop's body return. -/
  | quit (c : Counter)
  | waiting

/-- `while (read_signal() == aux) { timer_elapsed(timer, e); if (quit(e)) return; }` -/
def poll (quit : UInt32 → Bool) (aux : Bool) (timer : UInt32) :
    Option UInt32 → Counter → List Bool → List UInt16 → Polled
  | _, _, [], _ => .waiting
  | e, c, b :: levels, ticks =>
    if b = aux then
      match ticks with
      | [] => .waiting
      | t :: ticks =>
        let c := counterRead t c
        let e := c.counter - timer
        if quit e then .quit c else poll quit aux timer (some e) c levels ticks
    else .edge e c levels ticks

/-- `while (read_signal() == aux);` -/
def skip (aux : Bool) : List Bool → Option (List Bool)
  | [] => none
  | b :: levels => if b = aux then skip aux levels else some levels

/-- The variables of `hand_barcode` and the globals `code` and `i_code`. `bittimes` is the
history of `bittime`, latest first, which the code does not keep. -/
structure State where
  counter : Counter
  timer : UInt32
  bittime : UInt32
  actualtime : Option UInt32
  code : Nat → UInt8
  iCode : Nat
  bittimes : List UInt32

inductive Outcome
  | returned (n : Int) (s : State)
  /-- The input is used up. -/
  | waiting
  /-- A variable is read before it is assigned. -/
  | uninitialised
  | divZero
  /-- A store past the end of `code`. -/
  | outOfBounds

/-- From `timer_restart(timer, actualtime)` to the end of the loop body. -/
def recordWidth (s : State) (actualtime : UInt32) (k : State → Outcome) : Outcome :=
  let s := { s with timer := s.timer + actualtime, actualtime := some actualtime }
  if s.bittime = 0 then .divZero
  else
    let n := (actualtime + s.bittime / 2) / s.bittime
    if n + 1 = 0 then .divZero
    else
      let bittime := (actualtime + s.bittime) / (n + 1)
      let s := { s with bittime := bittime, bittimes := bittime :: s.bittimes }
      if 60 ≤ s.iCode then .outOfBounds
      else
        let s := { s with
          code := Function.update s.code s.iCode n.toUInt8
          iCode := s.iCode + 1 }
        if 60 < s.iCode then .returned (-1) s else k s

theorem poll_length {quit : UInt32 → Bool} {aux : Bool} {timer : UInt32} :
    ∀ {e c levels ticks e' c' levels' ticks'},
      poll quit aux timer e c levels ticks = .edge e' c' levels' ticks' →
        levels'.length < levels.length := by
  intro e c levels
  induction levels generalizing e c with
  | nil => intro ticks e' c' levels' ticks' h; cases h
  | cons b levels ih =>
    intro ticks e' c' levels' ticks' h
    unfold poll at h
    split at h
    · split at h
      · cases h
      · dsimp only at h
        split at h
        · cases h
        · have := ih h
          rw [List.length_cons]
          omega
    · cases h
      exact Nat.lt_succ_self _

/-- The `while (1)` loop. -/
def elements (s : State) (levels : List Bool) (ticks : List UInt16) : Outcome :=
  match levels with
  | [] => .waiting
  | aux :: levels =>
    match _h : poll (fun e => 5000 < e) aux s.timer s.actualtime s.counter levels ticks with
    | .waiting => .waiting
    | .quit c => .returned s.iCode { s with counter := c }
    | .edge e c levels' ticks' =>
      match e with
      | none => .uninitialised
      | some actualtime =>
        recordWidth { s with counter := c } actualtime fun s => elements s levels' ticks'
termination_by levels.length
decreasing_by
  have := poll_length _h
  rw [List.length_cons]
  omega

/-- `hand_barcode()`, entered with any `counter_read` globals and any contents of `code`. -/
def handBarcode (c : Counter) (code : Nat → UInt8) (levels : List Bool) (ticks : List UInt16) :
    Outcome :=
  match levels with
  | [] => .waiting
  | aux :: levels =>
    match skip aux levels, ticks with
    | some (aux :: levels), t :: ticks =>
      let c := counterRead t c
      let timer := c.counter
      -- the test of `bittime > 10000` only continues the loop
      match poll (fun _ => false) aux timer none c levels ticks with
      | .edge (some bittime) c levels ticks =>
        elements { counter := c, timer := timer + bittime, bittime, actualtime := none,
                   code := Function.update code 0 1, iCode := 1, bittimes := [bittime] }
          levels ticks
      | .edge none _ _ _ => .uninitialised
      | _ => .waiting
    | _, _ => .waiting

theorem elements_edge {s : State} {aux : Bool} {levels levels' : List Bool}
    {ticks ticks' : List UInt16} {t : UInt32} {c : Counter}
    (h : poll (fun e => 5000 < e) aux s.timer s.actualtime s.counter levels ticks =
      .edge (some t) c levels' ticks') :
    elements s (aux :: levels) ticks =
      recordWidth { s with counter := c } t fun s => elements s levels' ticks' := by
  rw [elements]
  split
  all_goals
    rename_i h'
    rw [h] at h'
    cases h'
  rfl

theorem elements_quit {s : State} {aux : Bool} {levels : List Bool} {ticks : List UInt16}
    {c : Counter}
    (h : poll (fun e => 5000 < e) aux s.timer s.actualtime s.counter levels ticks = .quit c) :
    elements s (aux :: levels) ticks = .returned s.iCode { s with counter := c } := by
  rw [elements]
  split
  all_goals
    rename_i h'
    rw [h] at h'
    cases h'
  rfl

end Plak1a.Barcode.Reader
