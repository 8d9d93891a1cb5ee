import Plak1a.Barcode.Decode
import Plak1a.Barcode.Ean13

/-!
# What `Decode` accepts

`Decode` compares the start guard, the centre guard and twelve groups of four
elements; it never compares the end guard, takes either set in either half, and
stores the parity digit without looking at it. An array that passes the comparisons
is a `strip`; a strip read from the other end is a strip again, and the digits
stored for it are the same.
-/

namespace Plak1a.Barcode.Symbols

open Ean13 Decode

/-- The arrays that pass the comparisons: nothing is asked of the last elements. -/
def strip (l r : List Mark) (e : List UInt8) : List UInt8 :=
  sideGuard ++ groups l ++ centre ++ groups r ++ e

def letter : Parity → Char
  | .L => 'L'
  | .G => 'G'

/-- What is stored for a strip read left to right. -/
def reading (l r : List Mark) : List UInt8 :=
  toChar (eanCode (l.map fun m => letter m.1)) :: (l ++ r).map fun m => toChar (m.2 : Nat)

/-- The thirteen bytes of `validData` after `Decode`. -/
def stored (validData : Nat → UInt8) (ean : Nat → Char) (w : List UInt8) : List UInt8 :=
  (List.range 13).map (decode validData ean w).2

theorem leftOdd_eq : leftOdd = (List.finRange 10).map (widths .L) := by decide

theorem leftEven_eq : leftEven = (List.finRange 10).map (widths .G) := by decide

/-- Row 7 of `right` is not the R pattern of 7, but the third look-up never decides:
every row of `right` is a row of one of the first two tables. -/
theorem mem_right {row : List UInt8} (h : row ∈ right) :
    row ∈ leftOdd ∨ row ∈ leftEven := by
  revert row
  decide

section Search

variable {α : Type} [DecidableEq α] {row : Fin 10 → List α} {n : Nat} {s : List α}

theorem search_of_row (hlen : ∀ d, (row d).length = n)
    (hinj : ∀ {d d'}, row d = row d' → d = d') {d : Fin 10} (h : s.take n = row d) :
    search s ((List.finRange 10).map row) n = (d : Nat) := by
  have hfind : ((List.finRange 10).map row).findIdx? (fun r => memcmp s r n) = some d := by
    apply List.findIdx?_eq_some_iff_getElem.mpr
    have hd : (d : Nat) < ((List.finRange 10).map row).length := by simp
    refine ⟨hd, ?_, fun j hj => ?_⟩
    · simp only [List.getElem_map, List.getElem_finRange, memcmp, h, decide_eq_true_eq]
      exact (List.take_of_length_le (by rw [hlen])).symm
    · have hne : (⟨j, by omega⟩ : Fin 10) ≠ d := fun e => by
        rw [← e] at hj
        exact Nat.lt_irrefl j hj
      simp only [List.getElem_map, List.getElem_finRange, memcmp, h, decide_eq_true_eq]
      intro e
      rw [List.take_of_length_le (by rw [hlen])] at e
      exact hne (hinj e).symm
  rw [search, hfind]
  rfl

theorem search_of_no_row (h : ∀ r ∈ (List.finRange 10).map row, s.take n ≠ r.take n) :
    search s ((List.finRange 10).map row) n = -1 := by
  have hfind : ((List.finRange 10).map row).findIdx? (fun r => memcmp s r n) = none := by
    apply List.findIdx?_eq_none_iff.mpr
    intro r hr
    exact decide_eq_false (h r hr)
  rw [search, hfind]

end Search

theorem widths_take (p : Parity) (d : Fin 10) : (widths p d).take 4 = widths p d :=
  List.take_of_length_le (by rw [widths_length])

section Table

variable {table : List (List UInt8)} {p : Parity} (ht : table = (List.finRange 10).map (widths p))

include ht

theorem find_table {ptr : List UInt8} {d : Fin 10} (h : ptr.take 4 = widths p d) :
    find ptr table = (d : Nat) := by
  rw [find, ht]
  exact search_of_row (widths_length p) (fun e => (widths_injective e).2) h

theorem find_table_none {ptr : List UInt8} (h : ∀ d, ptr.take 4 ≠ widths p d) :
    find ptr table = -1 := by
  rw [find, ht]
  apply search_of_no_row
  intro r hr
  obtain ⟨d, -, rfl⟩ := List.mem_map.mp hr
  rw [widths_take]
  exact h d

end Table

theorem find_right_none {ptr : List UInt8} (h : ∀ p d, ptr.take 4 ≠ widths p d) :
    find ptr right = -1 := by
  have hfind : right.findIdx? (fun r => memcmp ptr r 4) = none := by
    apply List.findIdx?_eq_none_iff.mpr
    intro r hr
    apply decide_eq_false
    have hrow := mem_right hr
    rw [leftOdd_eq, leftEven_eq] at hrow
    rcases hrow with hL | hG
    · obtain ⟨d, -, rfl⟩ := List.mem_map.mp hL
      rw [widths_take]
      exact h .L d
    · obtain ⟨d, -, rfl⟩ := List.mem_map.mp hG
      rw [widths_take]
      exact h .G d
  rw [find, search, hfind]

/-- The parity look-up finds the digit that a pattern carries. -/
theorem eanCode_parities (d : Fin 10) :
    toChar (eanCode ((parities d).map letter)) = toChar (d : Nat) := by
  revert d
  decide

/-- What one turn of the first loop does with a digit of one of the sets. -/
def leftPut (i : Nat) (m : Mark) (s : Scan) : Scan :=
  ((if i = 0 ∧ m.1 = .G then { s with reverse := true, pos := 12 } else s).mark i
    (letter m.1)).store (m.2 : Nat)

/-- What one turn of the second loop does with a digit of one of the sets. -/
def rightPut (i : Nat) (m : Mark) (s : Scan) : Scan :=
  (s.mark (5 - i) (letter m.1.mirror)).store (m.2 : Nat)

/-- A loop body that consumes one digit of either set and returns on anything else. -/
structure Reads (body : Nat → Scan → Except Scan Scan) (put : Nat → Mark → Scan → Scan) :
    Prop where
  read : ∀ {i s} {m : Mark}, s.ptr.take 4 = widths m.1 m.2 → body i s = .ok (put i m s)
  stop : ∀ {i s}, (∀ p d, s.ptr.take 4 ≠ widths p d) → ∃ s', body i s = .error s'
  ptr : ∀ i m s, (put i m s).ptr = s.ptr.drop 4

/-- Neither index is the -1 of a failed look-up. -/
theorem digit_ne (d : Fin 10) : ((d : Nat) : Int) ≠ -1 := by
  omega

theorem G_ne_L : Parity.G ≠ Parity.L := by decide

theorem widths_ne {p p' : Parity} (hp : p ≠ p') (d d' : Fin 10) : widths p d ≠ widths p' d' :=
  fun h => hp (widths_injective h).1

theorem reads_left : Reads leftDigit leftPut where
  read := by
    intro i s ⟨p, d⟩ h
    cases p with
    | L => simp [leftDigit, leftPut, find_table leftOdd_eq h, digit_ne, letter]
    | G =>
      have hL : ∀ d', s.ptr.take 4 ≠ widths .L d' := fun d' =>
        h ▸ widths_ne G_ne_L d d'
      simp [leftDigit, leftPut, find_table_none leftOdd_eq hL, find_table leftEven_eq h, digit_ne,
        letter]
  stop := by
    intro i s h
    refine ⟨s, ?_⟩
    simp [leftDigit, find_table_none leftOdd_eq (h .L), find_table_none leftEven_eq (h .G),
      find_right_none h]
  ptr := by
    intro i m s
    show (if i = 0 ∧ m.1 = .G then { s with reverse := true, pos := 12 } else s).ptr.drop 4 = _
    split <;> rfl

theorem reads_right : Reads rightDigit rightPut where
  read := by
    intro i s ⟨p, d⟩ h
    cases p with
    | L => simp [rightDigit, rightPut, find_table leftOdd_eq h, digit_ne, letter, Parity.mirror]
    | G =>
      have hL : ∀ d', s.ptr.take 4 ≠ widths .L d' := fun d' =>
        h ▸ widths_ne G_ne_L d d'
      simp [rightDigit, rightPut, find_table_none leftOdd_eq hL, find_table leftEven_eq h, digit_ne,
        letter, Parity.mirror]
  stop := by
    intro i s h
    refine ⟨s, ?_⟩
    simp [rightDigit, find_table_none leftOdd_eq (h .L), find_table_none leftEven_eq (h .G),
      find_right_none h]
  ptr _ _ _ := rfl

/-- The effect of a whole loop. -/
def puts (put : Nat → Mark → Scan → Scan) : Nat → List Mark → Scan → Scan
  | _, [], s => s
  | i, m :: ms, s => puts put (i + 1) ms (put i m s)

section Loop

variable {body : Nat → Scan → Except Scan Scan} {put : Nat → Mark → Scan → Scan}

theorem puts_ptr (h : Reads body put) (ms : List Mark) :
    ∀ (i : Nat) (s : Scan), (puts put i ms s).ptr = s.ptr.drop (4 * ms.length) := by
  induction ms with
  | nil => intro i s; rfl
  | cons m ms ih =>
    intro i s
    rw [puts, ih, h.ptr, List.drop_drop, List.length_cons]
    congr 1
    omega

/-- A loop over the widths of as many digits as it counts reads them all. -/
theorem forDigits_groups (h : Reads body put) (ms : List Mark) :
    ∀ (i : Nat) (s : Scan) (rest : List UInt8), s.ptr = groups ms ++ rest →
      forDigits body ms.length i s = .ok (puts put i ms s) := by
  induction ms with
  | nil => intro i s rest hp; rfl
  | cons m ms ih =>
    intro i s rest hp
    rw [groups_cons, List.append_assoc] at hp
    have hlen := widths_length m.1 m.2
    have hread : body i s = .ok (put i m s) := by
      apply h.read
      rw [hp, List.take_left' hlen]
    have hrest : (put i m s).ptr = groups ms ++ rest := by
      rw [h.ptr, hp, List.drop_left' hlen]
    show (body i s).bind (forDigits body ms.length (i + 1)) = _
    rw [hread]
    exact ih (i + 1) (put i m s) rest hrest

/-- A loop that does not return has read the widths of that many digits. -/
theorem groups_of_forDigits (h : Reads body put) (n : Nat) :
    ∀ (i : Nat) (s s' : Scan), forDigits body n i s = .ok s' →
      ∃ ms : List Mark, ms.length = n ∧ s.ptr = groups ms ++ s'.ptr := by
  induction n with
  | zero =>
    intro i s s' hs
    cases hs
    exact ⟨[], rfl, rfl⟩
  | succ n ih =>
    intro i s s' hs
    change (body i s).bind (forDigits body n (i + 1)) = .ok s' at hs
    by_cases hm : ∃ p d, s.ptr.take 4 = widths p d
    · obtain ⟨p, d, hw⟩ := hm
      have hread : body i s = .ok (put i (p, d) s) := h.read (m := (p, d)) hw
      rw [hread] at hs
      obtain ⟨ms, hlen, hp⟩ := ih (i + 1) _ s' hs
      rw [h.ptr] at hp
      refine ⟨(p, d) :: ms, by rw [List.length_cons, hlen], ?_⟩
      rw [groups_cons, List.append_assoc, ← hp, ← hw, List.take_append_drop]
    · simp only [not_exists] at hm
      obtain ⟨s₁, hstop⟩ := h.stop (i := i) hm
      rw [hstop] at hs
      cases hs

end Loop

theorem memcmp_append {n : Nat} {g : List UInt8} (hg : g = pattern.take n)
    (hn : g.length = n) (rest : List UInt8) : memcmp (g ++ rest) pattern n = true := by
  rw [memcmp, List.take_left' hn, hg]
  exact decide_eq_true rfl

theorem eq_append_of_memcmp {n : Nat} {s : List UInt8} (h : memcmp s pattern n = true) :
    s = pattern.take n ++ s.drop n := by
  rw [← of_decide_eq_true h, List.take_append_drop]

/-- The state of `Decode` when it enters its first loop. -/
def start (validData : Nat → UInt8) (ean : Nat → Char) (ptr : List UInt8) : Scan :=
  { ptr := ptr.drop 3, eanCode := ean, reverse := false, pos := 1, validData }

def afterLeft (s : Scan) : Scan := if s.reverse = false then s.storeFirst else s

def afterRight (s : Scan) : Scan := if s.reverse then s.storeFirst else s

theorem afterLeft_ptr (s : Scan) : (afterLeft s).ptr = s.ptr := by
  unfold afterLeft
  split <;> rfl

theorem eq_six {α : Type} {xs : List α} (h : xs.length = 6) :
    ∃ a b c d e f, xs = [a, b, c, d, e, f] := by
  match xs, h with
  | [a, b, c, d, e, f], _ => exact ⟨a, b, c, d, e, f, rfl⟩

section Decode

variable {validData : Nat → UInt8} {ean : Nat → Char}

theorem decode_eq (w : List UInt8) : decode validData ean w =
    if ¬ memcmp w pattern 3 then (-1, validData)
    else
      match forDigits leftDigit 6 0 (start validData ean w) with
      | .error s => (-2, s.validData)
      | .ok s =>
        if ¬ memcmp (afterLeft s).ptr pattern 5 then (-3, (afterLeft s).validData)
        else
          match forDigits rightDigit 6 0
              { afterLeft s with ptr := (afterLeft s).ptr.drop 5 } with
          | .error s => (-4, s.validData)
          | .ok s => (0, (afterRight s).validData) := rfl

/-- On a strip `Decode` runs both loops to their end. -/
theorem decode_strip {l r : List Mark} (hl : l.length = 6) (hr : r.length = 6) (e : List UInt8) :
    decode validData ean (strip l r e) = (0, (afterRight (puts rightPut 0 r
      { afterLeft (puts leftPut 0 l (start validData ean (strip l r e))) with
        ptr := groups r ++ e })).validData) := by
  have hptr : (start validData ean (strip l r e)).ptr =
      groups l ++ (centre ++ (groups r ++ e)) := by
    simp [start, strip, sideGuard]
  have hguard : memcmp (strip l r e) pattern 3 = true := by
    simp only [strip, List.append_assoc]
    exact memcmp_append rfl rfl _
  have hleft := forDigits_groups reads_left l 0 _ _ hptr
  have hmid : (afterLeft (puts leftPut 0 l (start validData ean (strip l r e)))).ptr =
      centre ++ (groups r ++ e) := by
    rw [afterLeft_ptr, puts_ptr reads_left, hptr, List.drop_left' (groups_length l)]
  have hcentre := memcmp_append (g := centre) (n := 5) rfl rfl (groups r ++ e)
  have hdrop : (centre ++ (groups r ++ e)).drop 5 = groups r ++ e := rfl
  have hright := forDigits_groups reads_right r 0
    { afterLeft (puts leftPut 0 l (start validData ean (strip l r e))) with
      ptr := groups r ++ e } e rfl
  rw [hl] at hleft
  rw [hr] at hright
  rw [decode_eq, hguard, hleft]
  simp only [hmid, hcentre, hdrop, hright, not_true_eq_false, if_false]

/-- Only strips get a 0. -/
theorem strip_of_decode {w : List UInt8} (h : (decode validData ean w).1 = 0) :
    ∃ l r e, l.length = 6 ∧ r.length = 6 ∧ w = strip l r e := by
  rw [decode_eq] at h
  split at h
  · cases h
  · rename_i hguard
    split at h
    · cases h
    · rename_i s hleft
      split at h
      · cases h
      · rename_i hcentre
        split at h
        · cases h
        · rename_i s' hright
          obtain ⟨l, hl, hp⟩ := groups_of_forDigits reads_left 6 0 _ _ hleft
          obtain ⟨r, hr, hq⟩ := groups_of_forDigits reads_right 6 0 _ _ hright
          refine ⟨l, r, s'.ptr, hl, hr, ?_⟩
          have hw : w = sideGuard ++ (start validData ean w).ptr :=
            eq_append_of_memcmp (by simpa using hguard)
          have hs : s.ptr = centre ++ s.ptr.drop 5 := by
            rw [afterLeft_ptr] at hcentre
            exact eq_append_of_memcmp (by simpa using hcentre)
          rw [afterLeft_ptr] at hq
          change s.ptr.drop 5 = groups r ++ s'.ptr at hq
          rw [hw, hp, hs, hq]
          simp only [strip, List.append_assoc]

/-- A strip whose first group is in set L is read left to right. -/
theorem stored_forward {l r : List Mark} (hl : l.length = 6) (hr : r.length = 6)
    (hL : l.head?.map Prod.fst = some .L) (e : List UInt8) :
    stored validData ean (strip l r e) = reading l r := by
  obtain ⟨⟨p, d₁⟩, m₂, m₃, m₄, m₅, m₆, rfl⟩ := eq_six hl
  obtain ⟨m₇, m₈, m₉, m₁₀, m₁₁, m₁₂, rfl⟩ := eq_six hr
  obtain rfl : p = .L := Option.some.inj hL
  rw [stored, decode_strip hl hr]
  rfl

/-- A strip whose first group is in set G is read right to left. -/
theorem stored_backward {l r : List Mark} (hl : l.length = 6) (hr : r.length = 6)
    (hG : l.head?.map Prod.fst = some .G) (e : List UInt8) :
    stored validData ean (strip l r e) = reading (turn r) (turn l) := by
  obtain ⟨⟨p, d₁⟩, m₂, m₃, m₄, m₅, m₆, rfl⟩ := eq_six hl
  obtain ⟨m₇, m₈, m₉, m₁₀, m₁₁, m₁₂, rfl⟩ := eq_six hr
  obtain rfl : p = .G := Option.some.inj hG
  rw [stored, decode_strip hl hr]
  rfl

end Decode

/-- The left half carries a first digit and the right half is in set R throughout. -/
def Forward (l r : List Mark) : Prop :=
  (∃ f, l.map Prod.fst = parities f) ∧ ∀ m ∈ r, m.1 = .L

instance (l r : List Mark) : Decidable (Forward l r) :=
  inferInstanceAs (Decidable (_ ∧ _))

/-- What `Decode` does not compare is as in a symbol read from one of its ends. -/
def Complete (l r : List Mark) (e : List UInt8) : Prop :=
  e = sideGuard ∧ (Forward l r ∨ Forward (turn r) (turn l))

instance (l r : List Mark) (e : List UInt8) : Decidable (Complete l r e) :=
  inferInstanceAs (Decidable (_ ∧ _))

/-- The widths of a symbol, read forward or backward. -/
def IsSymbol (w : List UInt8) : Prop := ∃ d : Code, w = symbol d ∨ w.reverse = symbol d

theorem leftMarks_length (d : Code) : (leftMarks d).length = 6 := by
  simp [leftMarks, parities_length, leftDigits]

theorem rightMarks_length (d : Code) : (rightMarks d).length = 6 := by
  simp [rightMarks, rightDigits]

theorem symbol_eq_strip (d : Code) : symbol d = strip (leftMarks d) (rightMarks d) sideGuard :=
  symbol_eq d

theorem leftMarks_fst (d : Code) : (leftMarks d).map Prod.fst = parities (d 0) :=
  List.map_fst_zip (by simp [parities_length, leftDigits])

theorem leftMarks_snd (d : Code) : (leftMarks d).map Prod.snd = leftDigits d :=
  List.map_snd_zip (by simp [parities_length, leftDigits])

theorem rightMarks_snd (d : Code) : (rightMarks d).map Prod.snd = rightDigits d := by
  simp only [rightMarks, List.map_map]
  exact List.map_id _

theorem forward_symbol (d : Code) : Forward (leftMarks d) (rightMarks d) := by
  refine ⟨⟨d 0, leftMarks_fst d⟩, fun m hm => ?_⟩
  obtain ⟨_, _, rfl⟩ := List.mem_map.mp hm
  rfl

/-- Halves of six digits in the right sets are those of a code. -/
theorem exists_code {l r : List Mark} (hl : l.length = 6) (hr : r.length = 6)
    (h : Forward l r) : ∃ d, l = leftMarks d ∧ r = rightMarks d := by
  obtain ⟨⟨f, hf⟩, hR⟩ := h
  obtain ⟨m₁, m₂, m₃, m₄, m₅, m₆, rfl⟩ := eq_six hl
  obtain ⟨⟨p₁, d₁⟩, ⟨p₂, d₂⟩, ⟨p₃, d₃⟩, ⟨p₄, d₄⟩, ⟨p₅, d₅⟩, ⟨p₆, d₆⟩, rfl⟩ := eq_six hr
  simp only [List.forall_mem_cons] at hR
  obtain ⟨rfl, rfl, rfl, rfl, rfl, rfl, -⟩ := hR
  refine ⟨![f, m₁.2, m₂.2, m₃.2, m₄.2, m₅.2, m₆.2, d₁, d₂, d₃, d₄, d₅, d₆], ?_, rfl⟩
  show _ = (parities f).zip _
  rw [← hf]
  rfl

/-- The widths of a strip determine its parts. -/
theorem strip_injective {l l' r r' : List Mark} {e e' : List UInt8} (hl : l.length = l'.length)
    (hr : r.length = r'.length) (h : strip l r e = strip l' r' e') :
    l = l' ∧ r = r' ∧ e = e' := by
  simp only [strip, List.append_assoc] at h
  have h₁ := List.append_inj (List.append_cancel_left h)
    (by rw [groups_length, groups_length, hl])
  have h₂ := List.append_inj (List.append_cancel_left h₁.2)
    (by rw [groups_length, groups_length, hr])
  exact ⟨groups_injective h₁.1, groups_injective h₂.1, h₂.2⟩

theorem strip_reverse (l r : List Mark) :
    (strip l r sideGuard).reverse = strip (turn r) (turn l) sideGuard := by
  have hg : sideGuard.reverse = sideGuard := rfl
  have hc : centre.reverse = centre := rfl
  simp only [strip, groups_turn, List.reverse_append, hg, hc, List.append_assoc]

/-- A strip is a symbol exactly when its uncompared parts are. -/
theorem isSymbol_strip {l r : List Mark} {e : List UInt8} (hl : l.length = 6)
    (hr : r.length = 6) : IsSymbol (strip l r e) ↔ Complete l r e := by
  constructor
  · rintro ⟨d, h | h⟩
    · rw [symbol_eq_strip] at h
      obtain ⟨rfl, rfl, rfl⟩ := strip_injective (by rw [hl, leftMarks_length])
        (by rw [hr, rightMarks_length]) h
      exact ⟨rfl, .inl (forward_symbol d)⟩
    · have h' : strip l r e = strip (turn (rightMarks d)) (turn (leftMarks d)) sideGuard := by
        rw [← strip_reverse, ← symbol_eq_strip, ← h, List.reverse_reverse]
      obtain ⟨rfl, rfl, rfl⟩ := strip_injective
        (by rw [hl, turn_length, rightMarks_length])
        (by rw [hr, turn_length, leftMarks_length]) h'
      refine ⟨rfl, .inr ?_⟩
      rw [turn_turn, turn_turn]
      exact forward_symbol d
  · rintro ⟨rfl, h | h⟩
    · obtain ⟨d, rfl, rfl⟩ := exists_code hl hr h
      exact ⟨d, .inl (symbol_eq_strip d).symm⟩
    · obtain ⟨d, hr', hl'⟩ := exists_code (by rw [turn_length, hr]) (by rw [turn_length, hl]) h
      refine ⟨d, .inr ?_⟩
      rw [strip_reverse, hr', hl', symbol_eq_strip]

theorem strip_of_isSymbol {w : List UInt8} (h : IsSymbol w) :
    ∃ l r, l.length = 6 ∧ r.length = 6 ∧ w = strip l r sideGuard := by
  obtain ⟨d, rfl | h⟩ := h
  · exact ⟨_, _, leftMarks_length d, rightMarks_length d, symbol_eq_strip d⟩
  · refine ⟨turn (rightMarks d), turn (leftMarks d), ?_, ?_, ?_⟩
    · rw [turn_length, rightMarks_length]
    · rw [turn_length, leftMarks_length]
    · rw [← strip_reverse, ← symbol_eq_strip, ← h, List.reverse_reverse]

theorem head_of_forward {l r : List Mark} (h : Forward l r) :
    l.head?.map Prod.fst = some .L := by
  obtain ⟨⟨f, hf⟩, -⟩ := h
  have hhead : ∀ f, (parities f).head? = some .L := by decide
  rw [← List.head?_map, hf, hhead]

theorem head_of_forward_turn {l r : List Mark} (hl : l.length = 6)
    (h : Forward (turn r) (turn l)) : l.head?.map Prod.fst = some .G := by
  obtain ⟨⟨p, d₁⟩, m₂, m₃, m₄, m₅, m₆, rfl⟩ := eq_six hl
  have hp : p.mirror = .L := h.2 (p.mirror, d₁) (by simp [turn])
  cases p with
  | L => cases hp
  | G => rfl

/-- Whichever end of a symbol is scanned first, the bytes stored are its left-to-right
reading. -/
theorem stored_complete {l r : List Mark} {e : List UInt8} (hl : l.length = 6)
    (hr : r.length = 6) (h : Complete l r e) (validData : Nat → UInt8) (ean : Nat → Char) :
    ∃ l' r', Forward l' r' ∧ stored validData ean (strip l r e) = reading l' r' := by
  obtain ⟨-, h | h⟩ := h
  · exact ⟨l, r, h, stored_forward hl hr (head_of_forward h) e⟩
  · exact ⟨turn r, turn l, h, stored_backward hl hr (head_of_forward_turn hl h) e⟩

theorem letters_of_forward {l r : List Mark} (h : Forward l r) :
    ∃ f : Fin 10, toChar (eanCode (l.map fun m => letter m.1)) = toChar (f : Nat) := by
  obtain ⟨⟨f, hf⟩, -⟩ := h
  refine ⟨f, ?_⟩
  rw [← eanCode_parities f, ← hf, List.map_map]
  rfl

theorem reading_le {l r : List Mark} (h : Forward l r) : ∀ b ∈ reading l r, b ≤ 9 := by
  have hdigit : ∀ d : Fin 10, toChar (d : Nat) ≤ 9 := by decide
  intro b hb
  rcases List.mem_cons.mp hb with rfl | hb
  · obtain ⟨f, hf⟩ := letters_of_forward h
    rw [hf]
    exact hdigit f
  · obtain ⟨m, -, rfl⟩ := List.mem_map.mp hb
    exact hdigit m.2

/-- `Decode` returns 0 for the widths of a symbol only, and stores digits only, exactly
on the arrays that either fail a comparison or are right where none is made. -/
theorem decode_accepts_symbols (w : List UInt8) :
    (∀ validData ean,
      ((decode validData ean w).1 = 0 ↔ IsSymbol w) ∧
      ((decode validData ean w).1 = 0 → ∀ b ∈ stored validData ean w, b ≤ 9)) ↔
    ∀ l r e, l.length = 6 → r.length = 6 → w = strip l r e → Complete l r e := by
  constructor
  · rintro h l r e hl hr rfl
    have hzero : (decode (fun _ => 0) (fun _ => 'L') (strip l r e)).1 = 0 := by
      rw [decode_strip hl hr]
    exact (isSymbol_strip hl hr).mp ((h _ _).1.mp hzero)
  · intro h validData ean
    constructor
    · constructor
      · intro hzero
        obtain ⟨l, r, e, hl, hr, rfl⟩ := strip_of_decode hzero
        exact (isSymbol_strip hl hr).mpr (h l r e hl hr rfl)
      · intro hsym
        obtain ⟨l, r, hl, hr, rfl⟩ := strip_of_isSymbol hsym
        rw [decode_strip hl hr]
    · intro hzero
      obtain ⟨l, r, e, hl, hr, rfl⟩ := strip_of_decode hzero
      obtain ⟨l', r', hfwd, hst⟩ := stored_complete hl hr (h l r e hl hr rfl) validData ean
      rw [hst]
      exact reading_le hfwd

/-- Six groups of set L with the third in set G, then a proper right half: the pattern
LLGLLL is not in `eanCodeSeq`. -/
def misread : List UInt8 :=
  [1,1,1, 3,2,1,1, 3,2,1,1, 1,1,2,3, 3,2,1,1, 3,2,1,1, 3,2,1,1, 1,1,1,1,1,
    3,2,1,1, 3,2,1,1, 3,2,1,1, 3,2,1,1, 3,2,1,1, 3,2,1,1, 1,1,1]

/-- `Decode` accepts a parity pattern outside `eanCodeSeq` and stores 255 for it. -/
theorem misread_accepted :
    misread.length = 59 ∧ (decode (fun _ => 0) (fun _ => 'L') misread).1 = 0 ∧
      ¬ IsSymbol misread ∧ 255 ∈ stored (fun _ => 0) (fun _ => 'L') misread := by
  have hstrip : misread = strip [(.L, 0), (.L, 0), (.G, 0), (.L, 0), (.L, 0), (.L, 0)]
      [(.L, 0), (.L, 0), (.L, 0), (.L, 0), (.L, 0), (.L, 0)] sideGuard := by decide
  refine ⟨by decide, ?_, ?_, ?_⟩
  · rw [hstrip, decode_strip rfl rfl]
  · rw [hstrip, isSymbol_strip rfl rfl]
    decide
  · rw [hstrip, stored_forward rfl rfl rfl]
    decide

/-- The digits of a code as `validData` holds them. -/
def digits (d : Code) : List UInt8 := List.ofFn fun i => UInt8.ofNat (d i)

theorem reading_symbol (d : Code) : reading (leftMarks d) (rightMarks d) = digits d := by
  have hchar : ∀ d : Fin 10, toChar (d : Nat) = UInt8.ofNat d := by decide
  have hfirst : (leftMarks d).map (fun m => letter m.1) = (parities (d 0)).map letter := by
    rw [← leftMarks_fst, List.map_map]
    rfl
  have hrest : (leftMarks d ++ rightMarks d).map (fun m => toChar (m.2 : Nat)) =
      (leftDigits d ++ rightDigits d).map fun n : Fin 10 => UInt8.ofNat n := by
    rw [← leftMarks_snd, ← rightMarks_snd, ← List.map_append, List.map_map]
    exact List.map_congr_left fun m _ => hchar m.2
  rw [reading, hfirst, eanCode_parities, hrest, hchar]
  rfl

/-- A symbol decodes to its digits from either end. -/
theorem decode_either_end (d : Code) (validData validData' : Nat → UInt8)
    (ean ean' : Nat → Char) :
    (decode validData ean (symbol d)).1 = 0 ∧
      (decode validData' ean' (symbol d).reverse).1 = 0 ∧
      stored validData ean (symbol d) = digits d ∧
      stored validData' ean' (symbol d).reverse = digits d := by
  have hl := leftMarks_length d
  have hr := rightMarks_length d
  have htl : (turn (leftMarks d)).length = 6 := by rw [turn_length, hl]
  have htr : (turn (rightMarks d)).length = 6 := by rw [turn_length, hr]
  have hfwd := forward_symbol d
  have hback : Forward (turn (turn (leftMarks d))) (turn (turn (rightMarks d))) := by
    rw [turn_turn, turn_turn]
    exact hfwd
  rw [symbol_eq_strip, strip_reverse]
  refine ⟨by rw [decode_strip hl hr], by rw [decode_strip htr htl], ?_, ?_⟩
  · rw [stored_forward hl hr (head_of_forward hfwd), reading_symbol]
  · rw [stored_backward htr htl (head_of_forward_turn htr hback), turn_turn, turn_turn,
      reading_symbol]

end Plak1a.Barcode.Symbols
