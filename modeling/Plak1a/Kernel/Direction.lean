import Mathlib.Algebra.Group.Nat.Defs
import Mathlib.Data.List.Induction
import Plak1a.Kernel.Gpio
import Plak1a.Lib.Writers

/-!
# The direction of a pin

A setter changes the pins of the port whose numbers are the bits of the number it is called
with. No number has the bit it is the number of, so a call never changes its own pin.
-/

namespace Plak1a.Kernel.Direction

open Gpio Lib.Masks Lib.Writers

inductive Call
  | setGpioInput (pin : Pin) (mode : Int32)
  | setGpioOutput (pin : Pin) (value : Int32)
deriving DecidableEq

def Call.pin : Call → Pin
  | setGpioInput pin _ => pin
  | setGpioOutput pin _ => pin

/-- The direction a call asks for, as `lpc22xx_get_gpio_dir` gives it. -/
def Call.dir : Call → Int32
  | setGpioInput _ _ => 0
  | setGpioOutput _ _ => 1

def Call.run (r : Registers) : Call → Registers
  | setGpioInput pin mode => (r.setGpioInput pin mode).2
  | setGpioOutput pin value => (r.setGpioOutput pin value).2

def run (r : Registers) (calls : List Call) : Registers := calls.foldl Call.run r

/-- The direction the last of the picked calls asks for, `initial` if there is none. -/
def lastDir (picks : Call → Bool) (initial : Int32) (calls : List Call) : Int32 :=
  ((lastWriter picks calls).map Call.dir).getD initial

/-- The direction of `p` that the calls for it ask for. -/
def requested (r : Registers) (calls : List Call) (p : Pin) : Int32 :=
  lastDir (fun c => c.pin = p) (r.getGpioDir p) calls

/-- The number of the pin a call is for has the bit of `p`, and the two pins share a port. -/
def Call.touches (c : Call) (p : Pin) : Bool :=
  c.pin.port = p.port && bit c.pin.bit p.bit.toNat

theorem lastDir_append (picks : Call → Bool) (initial : Int32) (done : List Call) (c : Call) :
    lastDir picks initial (done ++ [c]) =
      if picks c then c.dir else lastDir picks initial done := by
  rw [lastDir, lastWriter_append]
  split
  · rfl
  · rfl

theorem bit_toNat_lt (p : Pin) : p.bit.toNat < 32 := by
  have h : p.bit.toNat ≤ 31 := by
    rw [Pin.bit, UInt32.toNat_and]
    exact Nat.and_le_right
  omega

theorem not_touches_self (c : Call) : c.touches c.pin = false := by
  rw [Call.touches, bit_self, Bool.and_false]

theorem getGpioDir_eq (r : Registers) (p : Pin) :
    r.getGpioDir p = if bit (r.port p.port).fiodir p.bit.toNat then 1 else 0 := by
  have hdir : r.getGpioDir p = (((r.port p.port).fiodir >>> p.bit) &&& 1).toInt32 := by
    rw [Registers.getGpioDir, UInt32.mul_one]
  rw [hdir, shiftRight_and_one _ (bit_toNat_lt p)]
  split <;> rfl

theorem port_setPeriph (r : Registers) (pin : Pin) (pinsel : UInt32) (pinmode : Int32) :
    (r.setPeriph pin pinsel pinmode).2.port = r.port := by
  simp only [Registers.setPeriph, apply_ite Registers.port, ite_self]

theorem modifyPort_self (r : Registers) (port : Fin 5) (f : FioPort → FioPort) :
    (r.modifyPort port f).port port = f (r.port port) := Function.update_self ..

theorem modifyPort_of_ne (r : Registers) {port q : Fin 5} (f : FioPort → FioPort)
    (hq : q ≠ port) : (r.modifyPort port f).port q = r.port q := Function.update_of_ne hq ..

theorem fiodir_gpioSetValue (r : Registers) (pin : Pin) (value : Int32) (q : Fin 5) :
    ((r.gpioSetValue pin value).port q).fiodir = (r.port q).fiodir := by
  rw [Registers.gpioSetValue]
  by_cases hq : q = pin.port
  · subst hq
    split <;> rw [modifyPort_self]
  · split <;> rw [modifyPort_of_ne _ _ hq]

/-- The direction register of the pin's port after a call: the bits of the pin's number get
the direction. -/
theorem bit_run_self (r : Registers) (c : Call) {i : Nat} (hi : i < 32) :
    bit ((c.run r).port c.pin.port).fiodir i =
      if bit c.pin.bit i then decide (c.dir = 1) else bit (r.port c.pin.port).fiodir i := by
  cases c with
  | setGpioInput pin mode =>
    simp only [Call.run, Registers.setGpioInput, Call.pin, Call.dir, modifyPort_self,
      port_setPeriph, UInt32.mul_one, bit_and, bit_not _ hi]
    by_cases hbit : bit pin.bit i = true <;> simp [hbit]
  | setGpioOutput pin value =>
    simp only [Call.run, Registers.setGpioOutput, Call.pin, Call.dir, fiodir_gpioSetValue,
      modifyPort_self, port_setPeriph, UInt32.mul_one, bit_or]
    by_cases hbit : bit pin.bit i = true <;> simp [hbit]

theorem fiodir_run_of_ne (r : Registers) (c : Call) {q : Fin 5} (hq : q ≠ c.pin.port) :
    ((c.run r).port q).fiodir = (r.port q).fiodir := by
  cases c with
  | setGpioInput pin mode =>
    change q ≠ pin.port at hq
    simp only [Call.run, Registers.setGpioInput]
    rw [modifyPort_of_ne _ _ hq, port_setPeriph]
  | setGpioOutput pin value =>
    change q ≠ pin.port at hq
    simp only [Call.run, Registers.setGpioOutput, fiodir_gpioSetValue]
    rw [modifyPort_of_ne _ _ hq, port_setPeriph]

/-- A call gives its direction to the pins it touches and leaves the other ones. -/
theorem getGpioDir_call (r : Registers) (c : Call) (p : Pin) :
    (c.run r).getGpioDir p = if c.touches p then c.dir else r.getGpioDir p := by
  rw [getGpioDir_eq, getGpioDir_eq]
  by_cases hport : p.port = c.pin.port
  · have htouches : c.touches p = bit c.pin.bit p.bit.toNat := by
      rw [Call.touches, hport, decide_eq_true rfl, Bool.true_and]
    have hdir : c.dir = if decide (c.dir = 1) then 1 else 0 := by cases c <;> rfl
    rw [hport, bit_run_self r c (bit_toNat_lt p), htouches]
    split
    · exact hdir.symm
    · rfl
  · have htouches : c.touches p = false := by
      rw [Call.touches, decide_eq_false (Ne.symm hport), Bool.false_and]
    rw [fiodir_run_of_ne r c hport, htouches]
    rfl

/-- What a run leaves behind: the last call that touched the pin decides. -/
theorem getGpioDir_run (r : Registers) (calls : List Call) (p : Pin) :
    (run r calls).getGpioDir p = lastDir (fun c => c.touches p) (r.getGpioDir p) calls :=
  observe_foldl (fun r : Registers => r.getGpioDir p) (fun r c => getGpioDir_call r c p) r calls

/-- The claim after a sequence of calls. -/
def Follows (r : Registers) (calls : List Call) (p : Pin) : Prop :=
  (run r calls).getGpioDir p = requested r calls p

/-- A call that finds its own pin and all pins it touches in the direction it asks for. -/
def Call.Idle (r : Registers) (c : Call) : Prop :=
  r.getGpioDir c.pin = c.dir ∧ ∀ p, c.touches p = true → r.getGpioDir p = c.dir

/-- Calls that are idle at the start leave every direction alone, and ask for the one found. -/
theorem lastDir_of_idle {r : Registers} {calls : List Call} (h : ∀ c ∈ calls, c.Idle r)
    (p : Pin) {picks : Call → Bool}
    (hpicks : ∀ c, picks c = true → c.pin = p ∨ c.touches p = true) :
    lastDir picks (r.getGpioDir p) calls = r.getGpioDir p := by
  induction calls using List.reverseRecOn with
  | nil => rfl
  | append_singleton done c ih =>
    rw [lastDir_append]
    split
    next hc =>
      obtain ⟨hown, htouched⟩ := h c (by simp)
      obtain hpin | htouches := hpicks c hc
      · rw [← hpin, hown]
      · rw [htouched p htouches]
    next => exact ih fun d hd => h d (List.mem_append_left _ hd)

/-- A call behind idle ones is right for every pin only if it is idle as well. -/
theorem idle_of_follows {r : Registers} {done : List Call} {c : Call}
    (hdone : ∀ d ∈ done, d.Idle r) (h : ∀ p, Follows r (done ++ [c]) p) : c.Idle r := by
  have hafter : ∀ p, (run r (done ++ [c])).getGpioDir p =
      if c.touches p then c.dir else r.getGpioDir p := by
    intro p
    rw [getGpioDir_run, lastDir_append, lastDir_of_idle hdone p fun _ ht => .inr ht]
  have hrequested : ∀ p, requested r (done ++ [c]) p =
      if c.pin = p then c.dir else r.getGpioDir p := by
    intro p
    rw [requested, lastDir_append, lastDir_of_idle hdone p fun d hd => .inl (of_decide_eq_true hd)]
    simp only [decide_eq_true_eq]
  have hfollows : ∀ p, (if c.touches p then c.dir else r.getGpioDir p) =
      if c.pin = p then c.dir else r.getGpioDir p := by
    intro p
    rw [← hafter, ← hrequested]
    exact h p
  constructor
  · have hown := hfollows c.pin
    rw [not_touches_self, if_neg Bool.false_ne_true, if_pos rfl] at hown
    exact hown
  · intro p htouches
    have hne : c.pin ≠ p := by
      intro he
      rw [← he, not_touches_self] at htouches
      exact Bool.false_ne_true htouches
    have htouched := hfollows p
    rw [if_pos htouches, if_neg hne] at htouched
    exact htouched.symm

theorem follows_iff (r : Registers) (calls : List Call) :
    (∀ p, Follows r calls p ↔
      lastDir (fun c => c.touches p) (r.getGpioDir p) calls =
        lastDir (fun c => c.pin = p) (r.getGpioDir p) calls) ∧
    ((∀ done, done <+: calls → ∀ p, Follows r done p) ↔ ∀ c ∈ calls, c.Idle r) := by
  constructor
  · intro p
    rw [Follows, getGpioDir_run, requested]
  · constructor
    · intro h
      induction calls using List.reverseRecOn with
      | nil => exact fun c hc => absurd hc List.not_mem_nil
      | append_singleton done c ih =>
        have hdone := ih fun d hd => h d (hd.trans (List.prefix_append done [c]))
        have hc := idle_of_follows hdone (h _ List.prefix_rfl)
        intro d hd
        obtain hmem | hlast := List.mem_append.mp hd
        · exact hdone d hmem
        · rw [List.mem_singleton.mp hlast]
          exact hc
    · intro h done hpre p
      have hdone : ∀ c ∈ done, c.Idle r := fun c hc => h c (hpre.subset hc)
      rw [Follows, getGpioDir_run, requested, lastDir_of_idle hdone p fun _ ht => .inr ht,
        lastDir_of_idle hdone p fun d hd => .inl (of_decide_eq_true hd)]

/-- The reset state: all pins are inputs. -/
def allInputs : Registers where
  tabPinsel := fun _ => 0
  tabPinmode := fun _ => 0
  port := fun _ => ⟨0, 0, 0⟩
  log := []

/-- Pin 1 stays an input when it is set up as an output. -/
theorem pinOne_not_follows : ¬ Follows allInputs [.setGpioOutput 1 1] 1 := by
  rw [Follows, getGpioDir_run]
  decide

end Plak1a.Kernel.Direction
