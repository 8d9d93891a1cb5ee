import Mathlib.Data.List.Basic
import Plak1a.Lib.Masks

/-!
# The plate drive of the touch screen

Each `polarize` function makes the two plates of one axis outputs of port 1, the two of the
other axis inputs, and puts a voltage over the driven pair. The functions of the y axis have
the two masks of the direction register the other way round.
-/

namespace Plak1a.Touchscreen.Plates

open Lib.Masks

def yu : UInt32 := (1 : UInt32) <<< 20
def xl : UInt32 := (1 : UInt32) <<< 21
def yd : UInt32 := (1 : UInt32) <<< 22
def xr : UInt32 := (1 : UInt32) <<< 23

/-- Port 1. A write to `IO1SET` or `IO1CLR` sets or clears bits of the output latch. A read
of `IO1SET` shows the latch; what a read of `IO1CLR` shows is not documented. -/
structure Port where
  /-- `IO1DIR` -/
  dir : UInt32
  latch : UInt32
  clrRead : UInt32

namespace Port

/-- `IO1SET |= m` -/
def set (p : Port) (m : UInt32) : Port := { p with latch := p.latch ||| (p.latch ||| m) }

/-- `IO1CLR |= m` -/
def clr (p : Port) (m : UInt32) : Port := { p with latch := p.latch &&& ~~~ (p.clrRead ||| m) }

/-- The direction the functions of the x axis give: two steps on `IO1DIR`. -/
def driveX (p : Port) : Port :=
  let p := { p with dir := p.dir ||| (xl ||| xr) }
  { p with dir := p.dir &&& ~~~ (yu ||| yd) }

/-- The direction the functions of the y axis give. -/
def driveY (p : Port) : Port :=
  let p := { p with dir := p.dir &&& (xl ||| xr) }
  { p with dir := p.dir ||| ~~~ (yu ||| yd) }

def polarizeXx (p : Port) : Port := (p.driveX.set xl).clr xr
def polarizexX (p : Port) : Port := (p.driveX.clr xl).set xr
def polarizeYy (p : Port) : Port := (p.driveY.set yu).clr yd
def polarizeyY (p : Port) : Port := (p.driveY.clr yu).set yd

end Port

inductive Axis
  | x
  | y
deriving DecidableEq

def Axis.other : Axis → Axis
  | x => y
  | y => x

/-- The two plates of an axis. -/
def Axis.plates : Axis → UInt32
  | x => xl ||| xr
  | y => yu ||| yd

def allPlates : UInt32 := Axis.x.plates ||| Axis.y.plates

inductive Call
  | polarizeXx
  | polarizexX
  | polarizeYy
  | polarizeyY
deriving DecidableEq

def Call.axis : Call → Axis
  | polarizeXx => .x
  | polarizexX => .x
  | polarizeYy => .y
  | polarizeyY => .y

def Call.run (p : Port) : Call → Port
  | polarizeXx => p.polarizeXx
  | polarizexX => p.polarizexX
  | polarizeYy => p.polarizeYy
  | polarizeyY => p.polarizeyY

def run (p : Port) (calls : List Call) : Port := calls.foldl Call.run p

/-- The direction `dir` drives the axis, and is `initial` outside the four plates. -/
structure Drives (axis : Axis) (initial dir : UInt32) : Prop where
  selected : dir &&& axis.plates = axis.plates
  other : dir &&& axis.other.plates = 0
  frame : dir &&& ~~~ allPlates = initial &&& ~~~ allPlates

theorem plates_disjoint (axis : Axis) : axis.plates &&& axis.other.plates = 0 := by
  cases axis <;> decide

/-- A function of the x axis decides the four plates and keeps the rest. -/
theorem dir_run_x (p : Port) {call : Call} (hx : call.axis = .x) :
    (call.run p).dir = (p.dir ||| Axis.x.plates) &&& ~~~ Axis.y.plates := by
  cases call with
  | polarizeXx => rfl
  | polarizexX => rfl
  | polarizeYy => nomatch hx
  | polarizeyY => nomatch hx

/-- A function of the y axis leaves nothing of the old direction: the plates of its own axis
become inputs and all other pins outputs. -/
theorem dir_run_y (p : Port) {call : Call} (hy : call.axis = .y) :
    (call.run p).dir = ~~~ Axis.y.plates := by
  have hdir : (call.run p).dir = p.dir &&& Axis.x.plates ||| ~~~ Axis.y.plates := by
    cases call with
    | polarizeXx => nomatch hy
    | polarizexX => nomatch hy
    | polarizeYy => rfl
    | polarizeyY => rfl
  rw [hdir]
  exact and_or_compl p.dir (plates_disjoint .x)

theorem drives_run_x (p : Port) {call : Call} (hx : call.axis = .x) :
    Drives .x p.dir (call.run p).dir := by
  have hdir := dir_run_x p hx
  constructor
  · rw [hdir]
    exact or_and_compl_set p.dir (plates_disjoint .x)
  · rw [hdir]
    exact or_and_compl_cleared p.dir
  · rw [hdir]
    exact or_and_compl_frame p.dir

theorem not_drives_run_y (p : Port) (initial : UInt32) {call : Call} (hy : call.axis = .y) :
    ¬ Drives .y initial (call.run p).dir := by
  intro h
  have hselected := h.selected
  rw [dir_run_y p hy] at hselected
  exact absurd hselected (by decide)

/-- Every pin other than the four plates is an output. -/
def OthersDriven (dir : UInt32) : Prop := dir &&& ~~~ allPlates = ~~~ allPlates

theorem othersDriven_run_y (p : Port) {call : Call} (hy : call.axis = .y) :
    OthersDriven (call.run p).dir := by
  rw [OthersDriven, dir_run_y p hy]
  decide

theorem OthersDriven.call {p : Port} (h : OthersDriven p.dir) (call : Call) :
    OthersDriven (call.run p).dir := by
  cases hcall : call.axis with
  | x => exact (drives_run_x p hcall).frame.trans h
  | y => exact othersDriven_run_y p hcall

theorem run_append (p : Port) (done : List Call) (call : Call) :
    run p (done ++ [call]) = call.run (run p done) := by
  rw [run, List.foldl_append]
  rfl

theorem OthersDriven.run {p : Port} (h : OthersDriven p.dir) (done : List Call) :
    OthersDriven (run p done).dir := by
  induction done generalizing p with
  | nil => exact h
  | cons c done ih => exact ih (h.call c)

/-- A run over the x axis alone leaves the other pins as they were. One function of the y
axis makes all of them outputs for good. -/
theorem frame_run (p : Port) (done : List Call) :
    (∀ c ∈ done, c.axis = .x) ∧ (run p done).dir &&& ~~~ allPlates = p.dir &&& ~~~ allPlates ∨
      (∃ c ∈ done, c.axis = .y) ∧ OthersDriven (run p done).dir := by
  induction done generalizing p with
  | nil => exact .inl ⟨fun c hc => absurd hc List.not_mem_nil, rfl⟩
  | cons c done ih =>
    cases hc : c.axis with
    | y =>
      have hdriven := othersDriven_run_y p hc
      exact .inr ⟨⟨c, List.mem_cons_self, hc⟩, hdriven.run done⟩
    | x =>
      have hframe := (drives_run_x p hc).frame
      obtain ⟨hall, hrest⟩ | ⟨⟨y, hmem, hy⟩, hdriven⟩ := ih (c.run p)
      · exact .inl ⟨List.forall_mem_cons.mpr ⟨hc, hall⟩, hrest.trans hframe⟩
      · exact .inr ⟨⟨y, List.mem_cons_of_mem c hmem, hy⟩, hdriven⟩

/-- The state behind every call of a sequence: its own axis is driven and the other pins are
as they were before the sequence. -/
theorem drives_run_iff (p : Port) (done : List Call) (call : Call) :
    Drives call.axis p.dir (run p (done ++ [call])).dir ↔
      call.axis = .x ∧ ((∀ c ∈ done, c.axis = .x) ∨ OthersDriven p.dir) := by
  rw [run_append]
  cases hcall : call.axis with
  | y =>
    have hnot := not_drives_run_y (run p done) p.dir hcall
    exact iff_of_false hnot fun h => nomatch h.1
  | x =>
    have hx := drives_run_x (run p done) hcall
    constructor
    · intro h
      refine ⟨rfl, ?_⟩
      obtain ⟨hall, -⟩ | ⟨-, hdriven⟩ := frame_run p done
      · exact .inl hall
      · exact .inr (h.frame.symm.trans (hx.frame.trans hdriven))
    · intro ⟨_, hcase⟩
      refine ⟨hx.selected, hx.other, hx.frame.trans ?_⟩
      obtain ⟨-, hframe⟩ | ⟨⟨y, hmem, hy⟩, hdriven⟩ := frame_run p done
      · exact hframe
      · obtain hall | hinitial := hcase
        · rw [hall y hmem] at hy
          exact nomatch hy
        · exact hdriven.trans hinitial.symm

/-- One function of the y axis from all inputs. -/
theorem polarizeYy_not_drives : ¬ Drives .y 0 (run ⟨0, 0, 0⟩ ([] ++ [.polarizeYy])).dir :=
  fun h => absurd h.selected (by decide)

end Plak1a.Touchscreen.Plates
