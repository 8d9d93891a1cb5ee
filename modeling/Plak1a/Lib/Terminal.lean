import Mathlib.Data.List.GetD
import Mathlib.Logic.Function.Basic

/-!
# The line of a terminal

A line without an end. A backspace moves the cursor, and erases nothing.
-/

namespace Plak1a.Lib.Terminal

/-- The cells of the line, and the column of the cursor. -/
structure Screen where
  cell : Nat → UInt8
  cursor : Nat

def blank : UInt8 := 0x20
def backspace : UInt8 := 0x08
def bell : UInt8 := 0x07

def Screen.empty : Screen := ⟨fun _ => blank, 0⟩

/-- A character that takes a cell. -/
def Printable (c : UInt8) : Prop := blank ≤ c ∧ c ≠ 0x7f

instance (c : UInt8) : Decidable (Printable c) := inferInstanceAs (Decidable (_ ∧ _))

def Screen.put (s : Screen) (c : UInt8) : Screen :=
  if c = backspace then { s with cursor := s.cursor - 1 }
  else if c = bell then s
  else ⟨Function.update s.cell s.cursor c, s.cursor + 1⟩

def Screen.puts (s : Screen) (cs : List UInt8) : Screen := cs.foldl Screen.put s

/-- A text with the cursor behind it, and nothing else. -/
structure Shows (s : Screen) (text : List UInt8) : Prop where
  cell : ∀ i, s.cell i = text.getD i blank
  cursor : s.cursor = text.length

variable {s : Screen} {text cs ds : List UInt8} {c : UInt8}

theorem puts_append (s : Screen) (cs ds : List UInt8) :
    s.puts (cs ++ ds) = (s.puts cs).puts ds := List.foldl_append

theorem getD_concat (text : List UInt8) (c : UInt8) (i : Nat) :
    (text ++ [c]).getD i blank =
      if i = text.length then c else text.getD i blank := by
  split
  · next hi => rw [hi, List.getD_append_right _ _ _ _ (Nat.le_refl _), Nat.sub_self]; rfl
  · next hi =>
    rcases Nat.lt_or_gt_of_ne hi with hlt | hgt
    · rw [List.getD_append _ _ _ _ hlt]
    · have hlen : (text ++ [c]).length ≤ i := by
        rw [List.length_append]
        exact hgt
      rw [List.getD_eq_default _ _ (Nat.le_of_lt hgt), List.getD_eq_default _ _ hlen]

theorem empty_shows : Shows Screen.empty [] := ⟨fun _ => rfl, rfl⟩

theorem Shows.bell (h : Shows s text) : Shows (s.put bell) text := h

theorem Shows.put (h : Shows s text) (hc : Printable c) : Shows (s.put c) (text ++ [c]) := by
  have hplain : c ≠ backspace ∧ c ≠ Terminal.bell := by
    refine ⟨?_, ?_⟩ <;> rintro rfl <;> exact absurd hc (by decide)
  rw [Screen.put, if_neg hplain.1, if_neg hplain.2]
  refine ⟨fun i => ?_, ?_⟩
  · show Function.update s.cell s.cursor c i = _
    rw [getD_concat, Function.update_apply, h.cursor, h.cell]
  · show s.cursor + 1 = _
    rw [h.cursor, List.length_append]
    rfl

theorem Shows.puts (h : Shows s text) (hcs : ∀ c ∈ cs, Printable c) :
    Shows (s.puts cs) (text ++ cs) := by
  induction cs generalizing s text with
  | nil =>
    rw [List.append_nil]
    exact h
  | cons c cs ih =>
    have hrest := ih (h.put (hcs c List.mem_cons_self))
      fun d hd => hcs d (List.mem_cons_of_mem _ hd)
    rwa [List.append_assoc] at hrest

/-- Two backspaces with a blank between them take the last character away. -/
theorem Shows.erase (h : Shows s (text ++ [c])) :
    Shows (s.puts [backspace, blank, backspace]) text := by
  have hcursor : s.cursor = text.length + 1 := by simpa using h.cursor
  have hputs : s.puts [backspace, blank, backspace] =
      ⟨Function.update s.cell text.length blank, text.length⟩ := by
    simp [Screen.puts, Screen.put, backspace, blank, Terminal.bell, hcursor]
  rw [hputs]
  refine ⟨fun i => ?_, rfl⟩
  show Function.update s.cell text.length blank i = _
  rw [Function.update_apply, h.cell, getD_concat]
  split
  · next hi => rw [hi, List.getD_eq_default _ _ (Nat.le_refl _)]
  · rfl

end Plak1a.Lib.Terminal
