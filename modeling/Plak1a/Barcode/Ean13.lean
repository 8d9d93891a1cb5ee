import Mathlib.Data.Fin.VecNotation

/-!
# The EAN-13 symbology

Seven modules carry a digit, light first in the left half. Set R is the complement
of set L and set G is set R read backwards; the first of the thirteen digits is
carried by the choice between L and G in the left half. A scanner sees run lengths,
so a symbol is the list of its 59 element widths.
-/

namespace Plak1a.Barcode.Ean13

/-- The sets of the left half. -/
inductive Parity where
  | L
  | G
  deriving DecidableEq

/-- The set a digit seems to be in when it is scanned from the other end. -/
def Parity.mirror : Parity → Parity
  | .L => .G
  | .G => .L

/-- The modules of a digit in set L, `true` for a bar. -/
def modulesL : Fin 10 → List Bool
  | 0 => [false, false, false, true, true, false, true]
  | 1 => [false, false, true, true, false, false, true]
  | 2 => [false, false, true, false, false, true, true]
  | 3 => [false, true, true, true, true, false, true]
  | 4 => [false, true, false, false, false, true, true]
  | 5 => [false, true, true, false, false, false, true]
  | 6 => [false, true, false, true, true, true, true]
  | 7 => [false, true, true, true, false, true, true]
  | 8 => [false, true, true, false, true, true, true]
  | 9 => [false, false, false, true, false, true, true]

def modulesR (d : Fin 10) : List Bool := (modulesL d).map not

def modulesG (d : Fin 10) : List Bool := (modulesR d).reverse

/-- Widths of the maximal runs of equal modules. -/
def runs : List Bool → List UInt8
  | [] => []
  | m :: ms =>
    match ms, runs ms with
    | m' :: _, w :: ws => if m = m' then (w + 1) :: ws else 1 :: w :: ws
    | _, ws => 1 :: ws

def widthsR (d : Fin 10) : List UInt8 := runs (modulesR d)

def widths : Parity → Fin 10 → List UInt8
  | .L, d => runs (modulesL d)
  | .G, d => runs (modulesG d)

/-- The parity pattern that carries the first digit. -/
def parities : Fin 10 → List Parity
  | 0 => [.L, .L, .L, .L, .L, .L]
  | 1 => [.L, .L, .G, .L, .G, .G]
  | 2 => [.L, .L, .G, .G, .L, .G]
  | 3 => [.L, .L, .G, .G, .G, .L]
  | 4 => [.L, .G, .L, .L, .G, .G]
  | 5 => [.L, .G, .G, .L, .L, .G]
  | 6 => [.L, .G, .G, .G, .L, .L]
  | 7 => [.L, .G, .L, .G, .L, .G]
  | 8 => [.L, .G, .L, .G, .G, .L]
  | 9 => [.L, .G, .G, .L, .G, .L]

/-- A thirteen-digit code. -/
abbrev Code := Fin 13 → Fin 10

/-- A digit of a half with the set it is drawn from. -/
abbrev Mark := Parity × Fin 10

/-- The element widths of a run of digits. -/
def groups (ms : List Mark) : List UInt8 := (ms.map fun m => widths m.1 m.2).flatten

/-- The digits of a half as a scan from the other end meets them. -/
def turn (ms : List Mark) : List Mark := (ms.map fun m => (m.1.mirror, m.2)).reverse

def sideGuard : List UInt8 := [1, 1, 1]

def centre : List UInt8 := [1, 1, 1, 1, 1]

def leftDigits (d : Code) : List (Fin 10) := [d 1, d 2, d 3, d 4, d 5, d 6]

def rightDigits (d : Code) : List (Fin 10) := [d 7, d 8, d 9, d 10, d 11, d 12]

/-- The element widths of the symbol of a code, left to right. -/
def symbol (d : Code) : List UInt8 :=
  sideGuard ++ groups ((parities (d 0)).zip (leftDigits d)) ++ centre ++
    ((rightDigits d).map widthsR).flatten ++ sideGuard

/-- The digits of the left half with their sets. -/
def leftMarks (d : Code) : List Mark := (parities (d 0)).zip (leftDigits d)

def rightMarks (d : Code) : List Mark := (rightDigits d).map (Parity.L, ·)

theorem Parity.mirror_mirror (p : Parity) : p.mirror.mirror = p := by
  cases p <;> rfl

/-- Sets L and R have the same widths: they differ only in what is dark. -/
theorem widthsR_eq (d : Fin 10) : widthsR d = widths .L d := by
  revert d
  decide

/-- Sets L and G are mirror images of each other. -/
theorem widths_mirror (p : Parity) (d : Fin 10) :
    widths p.mirror d = (widths p d).reverse := by
  revert d
  cases p <;> decide

theorem widths_length (p : Parity) (d : Fin 10) : (widths p d).length = 4 := by
  revert d
  cases p <;> decide

/-- No width pattern belongs to two digits or to both sets. -/
theorem widths_injective {p p' : Parity} {d d' : Fin 10} (h : widths p d = widths p' d') :
    p = p' ∧ d = d' := by
  revert d d'
  cases p <;> cases p' <;> decide

theorem parities_length (d : Fin 10) : (parities d).length = 6 := by
  revert d
  decide

theorem groups_nil : groups [] = [] := rfl

theorem groups_cons (m : Mark) (ms : List Mark) :
    groups (m :: ms) = widths m.1 m.2 ++ groups ms := rfl

theorem groups_append (ms ms' : List Mark) : groups (ms ++ ms') = groups ms ++ groups ms' := by
  simp [groups]

theorem groups_length (ms : List Mark) : (groups ms).length = 4 * ms.length := by
  induction ms with
  | nil => rfl
  | cons m ms ih =>
    rw [groups_cons, List.length_append, widths_length, ih, List.length_cons]
    omega

/-- The widths of a half determine its digits and their sets. -/
theorem groups_injective {ms ms' : List Mark} (h : groups ms = groups ms') : ms = ms' := by
  induction ms generalizing ms' with
  | nil =>
    have hlen := congrArg List.length h
    rw [groups_length, groups_length, List.length_nil] at hlen
    exact (List.eq_nil_of_length_eq_zero (by omega)).symm
  | cons m ms ih =>
    cases ms' with
    | nil =>
      have hlen := congrArg List.length h
      rw [groups_length, groups_length, List.length_nil, List.length_cons] at hlen
      omega
    | cons m' ms' =>
      rw [groups_cons, groups_cons] at h
      have hw := List.append_inj h (by rw [widths_length, widths_length])
      have hm := widths_injective hw.1
      rw [Prod.ext hm.1 hm.2, ih hw.2]

theorem turn_length (ms : List Mark) : (turn ms).length = ms.length := by
  simp [turn]

theorem turn_turn (ms : List Mark) : turn (turn ms) = ms := by
  have h : ∀ m : Mark, (m.1.mirror.mirror, m.2) = m := fun m => by
    rw [Parity.mirror_mirror]
  simp only [turn, List.map_reverse, List.reverse_reverse, List.map_map]
  exact List.map_id'' h ms

/-- Scanning a half from the other end reverses its widths. -/
theorem groups_turn (ms : List Mark) : groups (turn ms) = (groups ms).reverse := by
  induction ms with
  | nil => rfl
  | cons m ms ih =>
    have h : turn (m :: ms) = turn ms ++ [(m.1.mirror, m.2)] := by simp [turn]
    rw [h, groups_append, ih, groups_cons m ms, List.reverse_append, ← widths_mirror]
    simp only [groups_cons, groups_nil, List.append_nil]

theorem symbol_eq (d : Code) :
    symbol d = sideGuard ++ groups ((parities (d 0)).zip (leftDigits d)) ++ centre ++
      groups ((rightDigits d).map (Parity.L, ·)) ++ sideGuard := by
  have h : (rightDigits d).map widthsR =
      ((rightDigits d).map (Parity.L, ·)).map fun m => widths m.1 m.2 := by
    rw [List.map_map]
    exact List.map_congr_left fun e _ => widthsR_eq e
  rw [symbol, h, groups, groups]

theorem symbol_length (d : Code) : (symbol d).length = 59 := by
  have hl := parities_length (d 0)
  rw [symbol_eq]
  simp [groups_length, sideGuard, centre, leftDigits, rightDigits, hl]

end Plak1a.Barcode.Ean13
