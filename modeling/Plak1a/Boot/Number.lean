import Mathlib.Data.Nat.Digits.Lemmas
import Plak1a.Boot.Strtoul

/-!
# `number` of the boot loader, which `sprintf` writes a number with

`long` has 32 bits, and `num` is given by them. What the function writes at `str` is given as a
list.
-/

namespace Plak1a.Boot.Number

open Strtoul

/-- The flags in `type`. -/
structure Flags where
  zeropad : Bool := false
  sign : Bool := false
  plus : Bool := false
  space : Bool := false
  left : Bool := false
  special : Bool := false
  large : Bool := false

def blank : UInt8 := 0x20
def zero : UInt8 := 0x30

/-- `digits[d]` -/
def digit (large : Bool) (d : UInt32) : UInt8 :=
  if d < 10 then zero + d.toUInt8 else (if large then 0x41 else 0x61) + (d.toUInt8 - 10)

/-- `while (num != 0) tmp[i++] = digits[do_div(num,base)]` -/
def tmpDigits (large : Bool) (base : UInt32) : (rounds : Nat) → (num : UInt32) → List UInt8
  | 0, _ => []
  | n + 1, num =>
    if num = 0 then []
    else digit large (num % base) :: tmpDigits large base n (num / base)

/-- `num < 0` -/
def isNegative (num : UInt32) : Bool := 0x80000000 ≤ num

/-- The sign that is written, what it leaves of `num`, and of `size`. -/
def signOf (num : UInt32) (size : Int) (type : Flags) : List UInt8 × UInt32 × Int :=
  if type.sign then
    if isNegative num then ([0x2d], -num, size - 1)
    else if type.plus then ([0x2b], num, size - 1)
    else if type.space then ([blank], num, size - 1)
    else ([], num, size)
  else ([], num, size)

/-- The prefix of a base that is written, and what it leaves of `size`. -/
def specialOf (base : UInt32) (size : Int) (type : Flags) : List UInt8 × Int :=
  if type.special then
    if base = 16 then ([zero, digit type.large 33], size - 2)
    else if base = 8 then ([zero], size - 1)
    else ([], size)
  else ([], size)

/-- `while (size-- > 0) *str++ = c`, when it is made, and what it leaves of `size`. -/
def fill (made : Bool) (size : Int) (c : UInt8) : List UInt8 × Int :=
  if made then (List.replicate size.toNat c, min size 0 - 1) else ([], size)

/-- `number` -/
def number (num base : UInt32) (size precision : Int) (type : Flags) : Option (List UInt8) :=
  let type := if type.left then { type with zeropad := false } else type
  if base < 2 ∨ base > 36 then none
  else
    let c := if type.zeropad then zero else blank
    let (sign, num, size) := signOf num size type
    let (special, size) := specialOf base size type
    let tmp := if num = 0 then [zero] else tmpDigits type.large base 32 num
    let precision : Int := if tmp.length > precision then tmp.length else precision
    let size := size - precision
    let (before, size) := fill (!(type.zeropad || type.left)) size blank
    let (inside, size) := fill (!type.left) size c
    let zeros := List.replicate (precision - tmp.length).toNat zero
    let (after, _) := fill true size blank
    some (before ++ sign ++ special ++ inside ++ zeros ++ tmp.reverse ++ after)

variable {num base : UInt32} {size precision : Int} {type : Flags} {large : Bool}
  {rest cp : List UInt8} {b r : Nat} {ds : List Nat}

/-- The character of a digit. -/
def digitChar (large : Bool) (d : Nat) : UInt8 := digit large (UInt32.ofNat d)

theorem digitChar_hex (large : Bool) {d : Nat} (h : d < 16) :
    isXDigit (digitChar large d) = true ∧ value (digitChar large d) = UInt32.ofNat d := by
  have hall : ∀ large : Bool, ∀ d : Fin 16, isXDigit (digitChar large d) = true ∧
      value (digitChar large d) = UInt32.ofNat d := by decide
  exact hall large ⟨d, h⟩

theorem toNat_base (h : b ≤ 16) : (UInt32.ofNat b).toNat = b :=
  UInt32.toNat_ofNat_of_lt' (Nat.lt_of_le_of_lt h (by decide))

/-- The digits that are written are those of the number, lowest first. -/
theorem tmpDigits_eq (hb : 2 ≤ base.toNat) :
    ∀ (n : Nat) (num : UInt32), num.toNat < 2 ^ n →
      tmpDigits large base n num = (Nat.digits base.toNat num.toNat).map (digitChar large) := by
  intro n
  induction n with
  | zero =>
    intro num hnum
    rw [show num.toNat = 0 by omega]
    simp [tmpDigits]
  | succ n ih =>
    intro num hnum
    rw [tmpDigits]
    split
    · next h0 => simp [h0]
    · next h0 =>
      have hpos : 0 < num.toNat := by
        rw [Nat.pos_iff_ne_zero]
        exact fun h => h0 (UInt32.toNat_inj.mp h)
      have hdiv : (num / base).toNat < 2 ^ n := by
        rw [UInt32.toNat_div]
        apply Nat.div_lt_of_lt_mul
        calc num.toNat < 2 * 2 ^ n := by rw [← Nat.pow_succ']; exact hnum
          _ ≤ base.toNat * 2 ^ n := Nat.mul_le_mul_right _ hb
      rw [ih _ hdiv, Nat.digits_def' hb hpos, UInt32.toNat_div, List.map_cons, digitChar,
        ← UInt32.toNat_mod, UInt32.ofNat_toNat]

/-- The digits of a number are read up to the next other character. -/
theorem digits_read (large : Bool) (hb : 2 ≤ b ∧ b ≤ 16)
    (hrest : ∀ c ∈ rest.head?, isXDigit c = false) (hds : ∀ d ∈ ds, d < b) :
    digits (UInt32.ofNat b) (UInt32.ofNat r) (ds.map (digitChar large) ++ rest) =
      (UInt32.ofNat (ds.foldl (fun r d => r * b + d) r), rest) := by
  induction ds generalizing r with
  | nil =>
    cases rest with
    | nil => rfl
    | cons c cp =>
      have hc := hrest c rfl
      simp [digits, hc]
  | cons d ds ih =>
    have hd := hds d List.mem_cons_self
    obtain ⟨hx, hv⟩ := digitChar_hex large (Nat.lt_of_lt_of_le hd hb.2)
    have hlt : UInt32.ofNat d < UInt32.ofNat b := by
      rw [UInt32.lt_iff_toNat_lt, toNat_base hb.2, toNat_base (by omega)]
      exact hd
    rw [List.map_cons, List.cons_append, digits, hx, hv, decide_eq_true hlt]
    rw [if_pos (by rfl), ← UInt32.ofNat_mul, ← UInt32.ofNat_add]
    exact ih fun d h => hds d (List.mem_cons_of_mem _ h)

/-- A leading 0 is read with the digits, if no `x` stands behind it. -/
theorem simpleStrtoul_eq (hb : 0 < base) (hx : cp[1]? ≠ some 0x78) :
    simpleStrtoul cp base = digits base 0 cp := by
  have hbase : base ≠ 0 := (UInt32.ne_of_lt hb).symm
  unfold simpleStrtoul
  split
  · exact absurd rfl hx
  · next cp h =>
    rw [if_neg hbase, digits, show value 0x30 = 0 from rfl, decide_eq_true hb]
    simp [show isXDigit 0x30 = true from rfl]
  · rw [if_neg hbase]

theorem simpleStrtoul_hex {c : UInt8} (hc : isXDigit c = true) :
    simpleStrtoul (0x30 :: 0x78 :: c :: cp) base = digits 16 0 (c :: cp) := by
  rw [simpleStrtoul, if_pos hc]

/-- `ds` are the digits of a number, with any number of zeros before them. -/
structure Digits (b m : Nat) (ds : List Nat) : Prop where
  nonempty : ds ≠ []
  lt : ∀ d ∈ ds, d < b
  value : ds.foldl (fun r d => r * b + d) 0 = m

theorem Digits.zeros {m : Nat} (h : Digits b m ds) (hb : 0 < b) (j : Nat) :
    Digits b m (List.replicate j 0 ++ ds) := by
  induction j with
  | zero => exact h
  | succ j ih =>
    rw [List.replicate_succ, List.cons_append]
    refine ⟨List.cons_ne_nil _ _, fun d hd => ?_, ?_⟩
    · rcases List.mem_cons.mp hd with rfl | hd
      · exact hb
      · exact ih.lt d hd
    · rw [List.foldl_cons, Nat.zero_mul]
      exact ih.value

/-- `tmp`, from its end -/
theorem tmp_digits (large : Bool) (hb : 2 ≤ base.toNat) (num : UInt32) :
    ∃ ds, Digits base.toNat num.toNat ds ∧
      (if num = 0 then [zero] else tmpDigits large base 32 num).reverse =
        ds.map (digitChar large) := by
  by_cases h0 : num = 0
  · refine ⟨[0], ⟨List.cons_ne_nil _ _, ?_, ?_⟩, ?_⟩
    · simp
      omega
    · simp [h0]
    · rw [if_pos h0]
      rfl
  · have hpos : num.toNat ≠ 0 := fun h => h0 (UInt32.toNat_inj.mp h)
    refine ⟨(Nat.digits base.toNat num.toNat).reverse, ⟨?_, ?_, ?_⟩, ?_⟩
    · simpa [Nat.digits_eq_nil_iff_eq_zero] using hpos
    · intro d hd
      exact Nat.digits_lt_base hb (List.mem_reverse.mp hd)
    · have heq := Nat.ofDigits_digits base.toNat num.toNat
      rw [Nat.ofDigits_eq_foldr] at heq
      rw [List.foldl_reverse]
      simpa [Nat.mul_comm, Nat.add_comm] using heq
    · rw [if_neg h0, tmpDigits_eq hb 32 num num.toNat_lt, List.map_reverse]

theorem fill_fst (made : Bool) (size : Int) (c : UInt8) :
    (fill made size c).1 = List.replicate (if made then size.toNat else 0) c := by
  cases made <;> rfl

theorem digitChar_zero (large : Bool) : digitChar large 0 = zero := by
  cases large <;> rfl

/-- What stands behind the sign and the prefix and before the digits: zeros, if anything. -/
theorem inside_zeros (left zeropad : Bool) (size : Int) (hleft : left = true → zeropad = false) :
    ∃ j, (fill (!left) (fill (!(zeropad || left)) size blank).2
      (if zeropad then zero else blank)).1 = List.replicate j zero := by
  cases left with
  | true => exact ⟨0, rfl⟩
  | false =>
    cases zeropad with
    | true => exact ⟨size.toNat, rfl⟩
    | false =>
      have hneg : (min size 0 - 1).toNat = 0 := by omega
      exact ⟨0, by simp [fill, hneg]⟩

theorem specialOf_size (base : UInt32) (size : Int) (type : Flags) :
    (specialOf base size type).1 = (specialOf base 0 type).1 := by
  rw [specialOf, specialOf]
  by_cases hs : type.special <;> simp only [hs, if_true]
  · by_cases h16 : base = 16
    · simp only [h16, if_true]
    · by_cases h8 : base = 8 <;> simp [h16, h8]
  · rfl

/-- Blanks, a sign, a prefix, the digits, and blanks. -/
theorem number_form (hb : 2 ≤ base.toNat ∧ base.toNat ≤ 36) (num : UInt32) (size precision : Int)
    (type : Flags) :
    ∃ i k ds, Digits base.toNat (signOf num size type).2.1.toNat ds ∧
      number num base size precision type = some (List.replicate i blank ++
        ((signOf num size type).1 ++ ((specialOf base 0 type).1 ++
          (ds.map (digitChar type.large) ++ List.replicate k blank)))) := by
  have hbase : ¬(base < 2 ∨ base > 36) := by
    rw [gt_iff_lt, UInt32.lt_iff_toNat_lt, UInt32.lt_iff_toNat_lt]
    show ¬(base.toNat < 2 ∨ 36 < base.toNat)
    omega
  rw [number]
  generalize htype : (if type.left then { type with zeropad := false } else type) = type'
  obtain ⟨hleft, hsign, hspecial, hlarge⟩ : (type'.left = true → type'.zeropad = false) ∧
      signOf num size type' = signOf num size type ∧ type'.special = type.special ∧
        type'.large = type.large := by
    rw [← htype]
    by_cases h : type.left = true
    · simp only [h, if_true, signOf, implies_true, and_self]
    · simp [h]
  have hprefix : ∀ size, (specialOf base size type').1 = (specialOf base 0 type).1 := by
    intro size
    rw [specialOf_size, specialOf, specialOf, hspecial, hlarge]
  simp only [if_neg hbase, hsign, hlarge, hprefix]
  obtain ⟨ds, hds, htmp⟩ := tmp_digits type.large hb.1 (signOf num size type).2.1
  choose j hinside using fun size => inside_zeros type'.left type'.zeropad size hleft
  have hpos : 0 < base.toNat := by omega
  have hmap : ∀ i j rest, List.replicate i zero ++ (List.replicate j zero ++
      (ds.map (digitChar type.large) ++ rest)) =
        (List.replicate i 0 ++ (List.replicate j 0 ++ ds)).map (digitChar type.large) ++ rest := by
    intro i j rest
    simp only [List.map_append, List.map_replicate, digitChar_zero, List.append_assoc]
  simp only [htmp, hinside, fill_fst, List.append_assoc, hmap]
  exact ⟨_, _, _, (hds.zeros hpos _).zeros hpos _, rfl⟩

/-- A character that stands in none of what `number` writes of a base up to 16 but its prefix. -/
theorem digits_noPrefix {b : Nat} (hb : b ≤ 16) {m k : Nat} (hds : Digits b m ds) (large : Bool) :
    0x78 ∉ ds.map (digitChar large) ++ List.replicate k blank := by
  intro hmem
  rcases List.mem_append.mp hmem with h | h
  · obtain ⟨d, hd, heq⟩ := List.mem_map.mp h
    have hx := (digitChar_hex large (Nat.lt_of_lt_of_le (hds.lt d hd) hb)).1
    rw [heq] at hx
    exact absurd hx (by decide)
  · exact absurd (List.eq_of_mem_replicate h) (by decide)

theorem digits_body (hb : 2 ≤ b ∧ b ≤ 16) {m : UInt32} (hds : Digits b m.toNat ds) (large : Bool)
    (k : Nat) :
    digits (UInt32.ofNat b) 0 (ds.map (digitChar large) ++ List.replicate k blank) =
      (m, List.replicate k blank) := by
  have hrest : ∀ c ∈ (List.replicate k blank).head?, isXDigit c = false := by
    intro c hc
    rw [List.eq_of_mem_replicate (List.mem_of_mem_head? hc)]
    rfl
  have hread := digits_read (r := 0) large hb hrest hds.lt
  rw [hds.value, UInt32.ofNat_toNat] at hread
  exact hread

theorem strtoul_body (hb : 2 ≤ b ∧ b ≤ 16) {m : UInt32} (hds : Digits b m.toNat ds)
    (large : Bool) (k : Nat) :
    simpleStrtoul (ds.map (digitChar large) ++ List.replicate k blank) (UInt32.ofNat b) =
      (m, List.replicate k blank) := by
  have hpos : 0 < UInt32.ofNat b := by
    rw [UInt32.lt_iff_toNat_lt, toNat_base hb.2]
    exact Nat.lt_of_lt_of_le Nat.two_pos hb.1
  rw [simpleStrtoul_eq hpos, digits_body hb hds]
  intro hx
  exact digits_noPrefix hb.2 hds large (List.mem_of_getElem? hx)

/-- The prefix is read, too, unless it is written in upper case. -/
theorem strtoul_prefixed (type : Flags) (hb : 2 ≤ b ∧ b ≤ 16) {m : UInt32}
    (hds : Digits b m.toNat ds) (hspecial : ¬(type.special ∧ type.large ∧ UInt32.ofNat b = 16))
    (k : Nat) :
    simpleStrtoul ((specialOf (UInt32.ofNat b) 0 type).1 ++
      (ds.map (digitChar type.large) ++ List.replicate k blank)) (UInt32.ofNat b) =
        (m, List.replicate k blank) := by
  rw [specialOf]
  by_cases hs : type.special = true
  · rw [if_pos hs]
    by_cases h16 : UInt32.ofNat b = 16
    · have hlarge : type.large = false := by
        by_contra h
        exact hspecial ⟨hs, by simpa using h, h16⟩
      obtain ⟨d, ds', rfl⟩ := List.exists_cons_of_ne_nil hds.nonempty
      have hd := (digitChar_hex type.large
        (Nat.lt_of_lt_of_le (hds.lt d List.mem_cons_self) hb.2)).1
      have hbody := digits_body hb hds type.large k
      rw [if_pos h16, hlarge] at *
      rw [h16] at hbody
      exact (simpleStrtoul_hex hd).trans hbody
    · rw [if_neg h16]
      by_cases h8 : UInt32.ofNat b = 8
      · rw [if_pos h8]
        have hbody := strtoul_body hb (hds.zeros (by omega) 1) type.large k
        simpa [digitChar_zero] using hbody
      · rw [if_neg h8]
        exact strtoul_body hb hds type.large k
  · rw [if_neg hs]
    exact strtoul_body hb hds type.large k

/-- The prefix and the digits begin with a digit. -/
theorem body_head (hb : b ≤ 16) {m k : Nat} (hds : Digits b m ds) (base : UInt32)
    (type : Flags) :
    ∃ c cp, (specialOf base 0 type).1 ++ (ds.map (digitChar type.large) ++ List.replicate k blank) =
      c :: cp ∧ isXDigit c = true := by
  obtain ⟨d, ds', rfl⟩ := List.exists_cons_of_ne_nil hds.nonempty
  have hd := (digitChar_hex type.large (Nat.lt_of_lt_of_le (hds.lt d List.mem_cons_self) hb)).1
  rw [specialOf]
  split
  · split
    · exact ⟨zero, _, rfl, rfl⟩
    · split
      · exact ⟨zero, _, rfl, rfl⟩
      · exact ⟨_, _, rfl, hd⟩
  · exact ⟨_, _, rfl, hd⟩

theorem dropWhile_blanks (i : Nat) (xs : List UInt8) :
    (List.replicate i blank ++ xs).dropWhile (· == blank) = xs.dropWhile (· == blank) := by
  induction i with
  | zero => rfl
  | succ i ih => exact ih

theorem dropWhile_digit {c : UInt8} (hc : isXDigit c = true) :
    (c :: cp).dropWhile (· == blank) = c :: cp := by
  have hne : c ≠ blank := by
    rintro rfl
    exact absurd hc (by decide)
  simp [hne]

theorem simpleStrtol_digit {c : UInt8} (hc : isXDigit c = true) :
    simpleStrtol (c :: cp) base = simpleStrtoul (c :: cp) base := by
  unfold simpleStrtol
  split
  · next h =>
    cases h
    exact absurd hc (by decide)
  · rfl

/-- What is written is read back, in every base up to 16, with every width and precision and for
every number, the least one included. `simple_strtol` knows no plus, and none of both functions a
prefix in upper case. -/
theorem number_reads (hb : 2 ≤ base.toNat ∧ base.toNat ≤ 16)
    (hplus : ¬(type.sign ∧ type.plus ∧ ¬isNegative num))
    (hspecial : ¬(type.special ∧ type.large ∧ base = 16)) (size precision : Int) :
    ∃ text k, number num base size precision type = some text ∧
      (if type.sign then simpleStrtol else simpleStrtoul) (text.dropWhile (· == blank)) base =
        (num, List.replicate k blank) := by
  obtain ⟨i, k, ds, hds, htext⟩ := number_form ⟨hb.1, by omega⟩ num size precision type
  refine ⟨_, k, htext, ?_⟩
  obtain ⟨c, cp, hbody, hc⟩ := body_head (k := k) hb.2 hds base type
  have hread := strtoul_prefixed type hb hds (by simpa using hspecial) k
  rw [UInt32.ofNat_toNat] at hread
  rw [dropWhile_blanks, hbody] at *
  rw [signOf] at *
  by_cases hs : type.sign = true
  · simp only [if_pos hs] at hread ⊢
    by_cases hneg : isNegative num = true
    · rw [if_pos hneg] at hread ⊢
      show ((-(simpleStrtoul (c :: cp) base).1), (simpleStrtoul (c :: cp) base).2) = _
      rw [hread]
      simp
    · rw [if_neg hneg] at hread ⊢
      have hnoplus : ¬type.plus = true := fun h => hplus ⟨hs, h, hneg⟩
      rw [if_neg hnoplus] at hread ⊢
      -- A blank for a plus is skipped like the others.
      have hskip : ((if type.space then ([blank], num, size - 1) else ([], num, size)).1 ++
          c :: cp).dropWhile (· == blank) = c :: cp := by
        split
        · exact dropWhile_digit hc
        · exact dropWhile_digit hc
      rw [hskip, simpleStrtol_digit hc, hread]
      split <;> rfl
  · simp only [if_neg hs] at hread ⊢
    rw [List.nil_append, dropWhile_digit hc]
    exact hread

/-- The least number, with blanks before it. -/
theorem number_reads_least :
    ∃ text k, number 0x80000000 10 14 (-1) { sign := true } = some text ∧
      simpleStrtol (text.dropWhile (· == blank)) 10 = (0x80000000, List.replicate k blank) :=
  number_reads (by decide) (by decide) (by decide) 14 (-1)

end Plak1a.Boot.Number
