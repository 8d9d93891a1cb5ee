import Mathlib.Algebra.BigOperators.Group.List.Basic
import Mathlib.Data.List.Basic
import Mathlib.Data.UInt

/-!
# Motorola S-records

`srec_decode` takes a line without its NUL. The bytes that the sum is taken of are collected
here, and added up where it is tested.
-/

namespace Plak1a.Boot.SRecord

/-- `'S'` -/
def charS : UInt8 := 0x53

/-- The codes from `SREC_START` to `SREC_END2`. -/
inductive SrecType where
  | start | data2 | data3 | data4 | count | end4 | end3 | end2
deriving DecidableEq

inductive SrecError where
  | badType | noSrec | badChks
deriving DecidableEq

/-- What `srec_decode` gives back without an error: `SREC_EMPTY`, or a record. -/
inductive Srec where
  | empty
  | record (type : SrecType) (count : Int) (addr : UInt32) (data : List UInt8)
deriving DecidableEq

/-- `hex1_bin` -/
def hex1Bin (c : UInt8) : Option UInt8 :=
  if 0x30 ≤ c && c ≤ 0x39 then some (c - 0x30)
  else if 0x61 ≤ c && c ≤ 0x66 then some (c + 10 - 0x61)
  else if 0x41 ≤ c && c ≤ 0x46 then some (c + 10 - 0x41)
  else none

/-- `hex2_bin`, and what is behind the two characters. -/
def hex2Bin : List UInt8 → Option (UInt8 × List UInt8)
  | a :: b :: input => do
    let i ← hex1Bin a
    let j ← hex1Bin b
    some ((i <<< 4) + j, input)
  | _ => none

/-- `n` bytes one after the other -/
def readBytes : (n : Nat) → List UInt8 → Option (List UInt8 × List UInt8)
  | 0, input => some ([], input)
  | n + 1, input => do
    let (v, input) ← hex2Bin input
    let (bytes, input) ← readBytes n input
    some (v :: bytes, input)

def typeOf (v : UInt8) : Option SrecType :=
  if v = 0x30 then some .start
  else if v = 0x31 then some .data2
  else if v = 0x32 then some .data3
  else if v = 0x33 then some .data4
  else if v = 0x35 then some .count
  else if v = 0x37 then some .end4
  else if v = 0x38 then some .end3
  else if v = 0x39 then some .end2
  else none

/-- The bytes of the address field. -/
def addrBytes : SrecType → Nat
  | .start | .data2 | .count | .end2 => 2
  | .data3 | .end3 => 3
  | .data4 | .end4 => 4

/-- `*count`, from the length field -/
def countOf (type : SrecType) (len : UInt8) : Int :=
  if type = .count then 0 else len.toNat - (addrBytes type + 1)

/-- `*addr <<= 8; *addr += v` -/
def addrOf (field : List UInt8) : UInt32 := field.foldl (fun addr v => (addr <<< 8) + v.toUInt32) 0

/-- What stands behind the first `S`. -/
def skipS (input : List UInt8) : List UInt8 := (input.dropWhile (· ≠ charS)).tail

/-- A reading of bytes that does not find them. -/
def bytes {α : Type} (r : Option α) : Except SrecError α := r.elim (.error .noSrec) .ok

/-- `srec_decode` -/
def srecDecode (input : List UInt8) : Except SrecError Srec :=
  match skipS input with
  | [] => .ok .empty
  | v :: input => do
    let (len, input) ← bytes (hex2Bin input)
    match typeOf v with
    | none => .error .badType
    | some type =>
      let (field, input) ← bytes (readBytes (addrBytes type) input)
      let count := countOf type len
      let (data, input) ← bytes (readBytes count.toNat input)
      let (v, _) ← bytes (hex2Bin input)
      let chksum := (len :: (field ++ data)).sum
      if v ≠ ~~~chksum then .error .badChks
      else .ok (.record type count (addrOf field) data)

/-- A text spells bytes with two hexadecimal digits each. -/
inductive Spells : List UInt8 → List UInt8 → Prop
  | nil : Spells [] []
  | cons {a b i j : UInt8} {text bs : List UInt8} (ha : hex1Bin a = some i)
      (hb : hex1Bin b = some j) (h : Spells text bs) :
      Spells (a :: b :: text) (((i <<< 4) + j) :: bs)

/-- A line is a record, whatever stands before its first `S` and behind its end. -/
structure IsRecord (input : List UInt8) (type : SrecType) (len : UInt8) (field data : List UInt8) :
    Prop where
  spelled : ∃ before v text rest chk, charS ∉ before ∧ typeOf v = some type ∧
    input = before ++ charS :: v :: (text ++ rest) ∧ Spells text (len :: field ++ data ++ [chk]) ∧
      (len :: field ++ data ++ [chk]).sum = 0xFF
  field : field.length = addrBytes type
  data : data.length = (countOf type len).toNat

variable {input text text' rest bs bs' field data : List UInt8} {type : SrecType} {n : Nat}

theorem hex2Bin_iff {v : UInt8} :
    hex2Bin input = some (v, rest) ↔ ∃ text, input = text ++ rest ∧ Spells text [v] := by
  constructor
  · intro h
    match input, h with
    | a :: b :: input, h =>
      rw [hex2Bin] at h
      simp only [Option.bind_eq_bind, Option.bind_eq_some_iff, Option.some.injEq,
        Prod.mk.injEq] at h
      obtain ⟨i, hi, j, hj, rfl, rfl⟩ := h
      exact ⟨[a, b], rfl, .cons hi hj .nil⟩
  · rintro ⟨text, rfl, hs⟩
    cases hs with
    | cons ha hb h =>
      cases h
      simp [hex2Bin, ha, hb]

theorem Spells.append (h : Spells text bs) (h' : Spells text' bs') :
    Spells (text ++ text') (bs ++ bs') := by
  induction h with
  | nil => exact h'
  | cons ha hb _ ih => exact .cons ha hb ih

theorem Spells.split (bs : List UInt8) (h : Spells text (bs ++ bs')) :
    ∃ t t', text = t ++ t' ∧ Spells t bs ∧ Spells t' bs' := by
  induction bs generalizing text with
  | nil => exact ⟨[], text, rfl, .nil, h⟩
  | cons b bs ih =>
    cases h with
    | cons ha hb h =>
      obtain ⟨t, t', rfl, ht, ht'⟩ := ih h
      exact ⟨_, t', rfl, .cons ha hb ht, ht'⟩

/-- `n` bytes are read exactly if they are spelled. -/
theorem readBytes_iff :
    readBytes n input = some (bs, rest) ↔
      ∃ text, input = text ++ rest ∧ Spells text bs ∧ bs.length = n := by
  induction n generalizing input bs rest with
  | zero =>
    constructor
    · intro h
      cases h
      exact ⟨[], rfl, .nil, rfl⟩
    · rintro ⟨text, rfl, hs, hlen⟩
      rw [List.length_eq_zero_iff.mp hlen] at hs ⊢
      cases hs
      rfl
  | succ n ih =>
    rw [readBytes]
    simp only [Option.bind_eq_bind, Option.bind_eq_some_iff, Option.some.injEq, Prod.mk.injEq,
      Prod.exists, hex2Bin_iff, ih]
    constructor
    · rintro ⟨v, _, ⟨t, rfl, ht⟩, bs, _, ⟨t', rfl, ht', hlen⟩, rfl, rfl⟩
      exact ⟨t ++ t', (List.append_assoc ..).symm, ht.append ht', by simp [hlen]⟩
    · rintro ⟨text, rfl, hs, hlen⟩
      obtain ⟨b, bs, rfl⟩ := List.exists_cons_of_length_eq_add_one hlen
      obtain ⟨t, t', rfl, ht, ht'⟩ := hs.split [b]
      exact ⟨b, _, ⟨t, List.append_assoc .., ht⟩, bs, rest, ⟨t', rfl, ht', by simpa using hlen⟩,
        rfl, rfl⟩

theorem bytes_bind {α β : Type} {r : Option α} {f : α → Except SrecError β} {s : β} :
    (bytes r >>= f) = .ok s ↔ ∃ a, r = some a ∧ f a = .ok s := by
  cases r with
  | none => exact ⟨nofun, fun ⟨_, h, _⟩ => nomatch h⟩
  | some a => exact ⟨fun h => ⟨a, rfl, h⟩, fun ⟨_, h, hf⟩ => Option.some.inj h ▸ hf⟩

/-- The first `S` of a line, if something stands behind it. -/
theorem skipS_iff {v : UInt8} :
    skipS input = v :: rest ↔ ∃ before, charS ∉ before ∧ input = before ++ charS :: v :: rest := by
  rw [skipS]
  induction input with
  | nil =>
    refine ⟨nofun, ?_⟩
    rintro ⟨before, -, h⟩
    simp at h
  | cons c input ih =>
    by_cases hc : c = charS
    · subst hc
      constructor
      · intro h
        exact ⟨[], List.not_mem_nil, by simpa using h⟩
      · rintro ⟨before, hbefore, h⟩
        cases before with
        | nil => simpa using h
        | cons b before =>
          rw [List.cons_append, List.cons.injEq] at h
          rw [← h.1] at hbefore
          exact absurd List.mem_cons_self hbefore
    · rw [List.dropWhile_cons_of_pos (by simpa using hc), ih]
      constructor
      · rintro ⟨before, hbefore, rfl⟩
        exact ⟨c :: before, by simp [hbefore, Ne.symm hc], rfl⟩
      · rintro ⟨before, hbefore, h⟩
        cases before with
        | nil => exact absurd (List.cons.inj h).1 hc
        | cons b before =>
          exact ⟨before, fun hm => hbefore (List.mem_cons_of_mem _ hm), (List.cons.inj h).2⟩

theorem not_sum (s v : UInt8) : ¬v ≠ ~~~s ↔ s + v = 0xFF := by
  rw [not_not, ← UInt8.toBitVec_inj, ← UInt8.toBitVec_inj]
  show v.toBitVec = ~~~s.toBitVec ↔ s.toBitVec + v.toBitVec = BitVec.allOnes 8
  rw [← BitVec.allOnes_sub_eq_not, BitVec.eq_sub_iff_add_eq, BitVec.add_comm]

theorem isRecord_of_srecDecode {count : Int} {addr : UInt32}
    (h : srecDecode input = .ok (.record type count addr data)) :
    ∃ len field, IsRecord input type len field data ∧ count = countOf type len ∧
      addr = addrOf field := by
  rw [srecDecode] at h
  split at h
  · cases h
  · next v input' hskip =>
    obtain ⟨before, hbefore, rfl⟩ := skipS_iff.mp hskip
    obtain ⟨⟨len, r₁⟩, hlen, h₁⟩ := bytes_bind.mp h
    obtain ⟨t₁, rfl, hs₁⟩ := hex2Bin_iff.mp hlen
    cases htype : typeOf v with
    | none =>
      rw [htype] at h₁
      cases h₁
    | some type' =>
      rw [htype] at h₁
      obtain ⟨⟨field, r₂⟩, hfield, h₂⟩ := bytes_bind.mp h₁
      obtain ⟨t₂, rfl, hs₂, hl₂⟩ := readBytes_iff.mp hfield
      obtain ⟨⟨data', r₃⟩, hdata, h₃⟩ := bytes_bind.mp h₂
      obtain ⟨t₃, rfl, hs₃, hl₃⟩ := readBytes_iff.mp hdata
      obtain ⟨⟨chk, r₄⟩, hchk, h₄⟩ := bytes_bind.mp h₃
      obtain ⟨t₄, rfl, hs₄⟩ := hex2Bin_iff.mp hchk
      dsimp only at h₄
      by_cases hsum : chk ≠ ~~~(len :: (field ++ data')).sum
      · rw [if_pos hsum] at h₄
        cases h₄
      · rw [if_neg hsum] at h₄
        cases h₄
        refine ⟨len, field, ⟨⟨before, v, t₁ ++ (t₂ ++ (t₃ ++ t₄)), r₄, chk, hbefore, htype, ?_,
          ?_, ?_⟩, hl₂, hl₃⟩, rfl, rfl⟩
        · simp only [List.append_assoc]
        · simpa using hs₁.append (hs₂.append (hs₃.append hs₄))
        · rw [not_sum] at hsum
          simpa [List.sum_append, UInt8.add_assoc] using hsum

theorem srecDecode_of_isRecord {len : UInt8} {field : List UInt8}
    (h : IsRecord input type len field data) :
    srecDecode input = .ok (.record type (countOf type len) (addrOf field) data) := by
  obtain ⟨⟨before, v, text, rest, chk, hbefore, htype, rfl, hs, hsum⟩, hl₂, hl₃⟩ := h
  rw [srecDecode]
  obtain ⟨t, t₄, rfl, hs, hs₄⟩ := hs.split _
  obtain ⟨t, t₃, rfl, hs, hs₃⟩ := hs.split _
  obtain ⟨t₁, t₂, rfl, hs₁, hs₂⟩ := hs.split [len]
  simp only [List.append_assoc]
  rw [skipS_iff.mpr ⟨before, hbefore, rfl⟩]
  refine bytes_bind.mpr ⟨(len, _), hex2Bin_iff.mpr ⟨t₁, rfl, hs₁⟩, ?_⟩
  rw [htype]
  refine bytes_bind.mpr ⟨(field, _), readBytes_iff.mpr ⟨t₂, rfl, hs₂, hl₂⟩, ?_⟩
  refine bytes_bind.mpr ⟨(data, _), readBytes_iff.mpr ⟨t₃, rfl, hs₃, hl₃⟩, ?_⟩
  refine bytes_bind.mpr ⟨(chk, rest), hex2Bin_iff.mpr ⟨t₄, rfl, hs₄⟩, ?_⟩
  refine if_neg ((not_sum _ _).mpr ?_)
  simpa [List.sum_append, UInt8.add_assoc] using hsum

/-- A line is taken for a record exactly if it is one. Of a length field that is too small the
count is negative, and there are no data. -/
theorem srecDecode_iff {count : Int} {addr : UInt32} :
    srecDecode input = .ok (.record type count addr data) ↔
      ∃ len field, IsRecord input type len field data ∧ count = countOf type len ∧
        addr = addrOf field := by
  constructor
  · exact isRecord_of_srecDecode
  · rintro ⟨len, field, hrecord, rfl, rfl⟩
    exact srecDecode_of_isRecord hrecord

theorem Spells.length (h : Spells text bs) : text.length = 2 * bs.length := by
  induction h with
  | nil => rfl
  | cons _ _ _ ih => simp [ih, Nat.mul_add]

theorem Spells.unique (h : Spells text bs) (h' : Spells text bs') : bs = bs' := by
  induction h generalizing bs' with
  | nil => cases h'; rfl
  | cons ha hb _ ih =>
    cases h' with
    | cons ha' hb' h' =>
      rw [ha] at ha'
      rw [hb] at hb'
      rw [ih h', Option.some.inj ha', Option.some.inj hb']

theorem Spells.pair {v : UInt8} (h : Spells text [v]) :
    ∃ a b, text = [a, b] ∧ hex2Bin [a, b] = some (v, []) := by
  have hread := hex2Bin_iff.mpr ⟨text, (List.append_nil text).symm, h⟩
  cases h with
  | cons ha hb hn =>
    cases hn
    exact ⟨_, _, rfl, hread⟩

/-- The byte that two characters of a text stand for, and what is spelled before and behind. -/
theorem Spells.at {l r : List UInt8} {c d : UInt8} {k : Nat} (h : Spells text bs)
    (heq : text ++ rest = l ++ c :: d :: r) (hl : l.length = 2 * k) (hk : k < bs.length) :
    ∃ b₁ x b₂ t, bs = b₁ ++ x :: b₂ ∧ Spells l b₁ ∧ hex2Bin [c, d] = some (x, []) ∧
      Spells t b₂ ∧ r = t ++ rest := by
  have hparts : bs = bs.take k ++ bs[k] :: bs.drop (k + 1) := by
    rw [← List.drop_eq_getElem_cons hk, List.take_append_drop]
  rw [hparts] at h
  obtain ⟨t₁, t, rfl, hs₁, hs⟩ := h.split _
  obtain ⟨t₂, t₃, rfl, hs₂, hs₃⟩ := hs.split [bs[k]]
  have hlen : t₁.length = l.length := by
    rw [hs₁.length, hl, List.length_take]
    omega
  obtain ⟨c', d', rfl, hpair⟩ := hs₂.pair
  rw [List.append_assoc] at heq
  obtain ⟨rfl, htail⟩ := List.append_inj heq hlen
  simp only [List.cons_append, List.nil_append, List.cons.injEq] at htail
  obtain ⟨rfl, rfl, rfl⟩ := htail
  exact ⟨_, _, _, t₃, hparts, hs₁, hpair, hs₃, rfl⟩

/-- What a record has behind its length field. -/
theorem srecDecode_bytes {before tail : List UInt8} {v a b : UInt8} {count : Int}
    {addr : UInt32} (hbefore : charS ∉ before)
    (h : srecDecode (before ++ charS :: v :: a :: b :: tail) = .ok (.record type count addr data)) :
    ∃ len bs text rest, typeOf v = some type ∧ hex2Bin [a, b] = some (len, []) ∧
      count = countOf type len ∧ bs.length = addrBytes type + count.toNat + 1 ∧
        len + bs.sum = 0xFF ∧ text ++ rest = tail ∧ Spells text bs := by
  obtain ⟨len, field, ⟨⟨before', v', text, rest, chk, hbefore', htype, heq, hs, hsum⟩, hl₂, hl₃⟩,
    rfl, -⟩ := isRecord_of_srecDecode h
  have hskip := (skipS_iff.mpr ⟨before, hbefore, rfl⟩).symm.trans
    (skipS_iff.mpr ⟨before', hbefore', heq⟩)
  obtain ⟨rfl, htext⟩ := List.cons.inj hskip
  have hparts : Spells text ([len] ++ (field ++ data ++ [chk])) := hs
  obtain ⟨t₀, t, rfl, hs₀, hs₁⟩ := hparts.split [len]
  obtain ⟨a', b', rfl, hpair⟩ := hs₀.pair
  simp only [List.cons_append, List.nil_append, List.cons.injEq] at htext
  obtain ⟨rfl, rfl, rfl⟩ := htext
  refine ⟨len, _, t, rest, htype, hpair, rfl, ?_, ?_, rfl, hs₁⟩
  · simp [hl₂, hl₃, Nat.add_assoc]
  · simpa using hsum

theorem srecDecode_ne_empty {before tail : List UInt8} {v : UInt8} (hbefore : charS ∉ before) :
    srecDecode (before ++ charS :: v :: tail) ≠ .ok .empty := by
  rw [srecDecode, skipS_iff.mpr ⟨before, hbefore, rfl⟩]
  intro h
  obtain ⟨_, -, h⟩ := bytes_bind.mp h
  cases htype : typeOf v with
  | none =>
    rw [htype] at h
    cases h
  | some type =>
    rw [htype] at h
    obtain ⟨_, -, h⟩ := bytes_bind.mp h
    obtain ⟨_, -, h⟩ := bytes_bind.mp h
    obtain ⟨_, -, h⟩ := bytes_bind.mp h
    dsimp only at h
    split at h <;> cases h

/-- A line that is a record is none any more when one byte behind its length field is another one:
`load_serial` gives up. -/
theorem srecDecode_detects {before l r : List UInt8} {v a b c d c' d' : UInt8} {count : Int}
    {addr : UInt32} {k : Nat} (hbefore : charS ∉ before) (hl : l.length = 2 * k)
    (hk : k < addrBytes type + count.toNat + 1)
    (h : srecDecode (before ++ charS :: v :: a :: b :: (l ++ c :: d :: r)) =
      .ok (.record type count addr data))
    (hne : hex2Bin [c', d'] ≠ hex2Bin [c, d]) :
    ∃ e, srecDecode (before ++ charS :: v :: a :: b :: (l ++ c' :: d' :: r)) = .error e := by
  obtain ⟨len, bs, text, rest, htype, hlen, rfl, hbs, hsum, htext, hs⟩ :=
    srecDecode_bytes hbefore h
  obtain ⟨b₁, x, b₂, t, rfl, hs₁, hx, hs₂, hr⟩ := hs.at htext hl (hbs ▸ hk)
  cases h' : srecDecode (before ++ charS :: v :: a :: b :: (l ++ c' :: d' :: r)) with
  | error e => exact ⟨e, rfl⟩
  | ok s =>
    exfalso
    cases s with
    | empty => exact srecDecode_ne_empty hbefore h'
    | record type' count' addr' data' =>
      obtain ⟨len', bs', text', rest', htype', hlen', rfl, hbs', hsum', htext', hs'⟩ :=
        srecDecode_bytes hbefore h'
      obtain rfl : type = type' := Option.some.inj (htype.symm.trans htype')
      obtain ⟨rfl, -⟩ := Prod.mk.inj (Option.some.inj (hlen.symm.trans hlen'))
      obtain ⟨b₁', x', b₂', t', rfl, hs₁', hx', hs₂', hr'⟩ := hs'.at htext' hl (hbs' ▸ hk)
      obtain rfl := hs₁.unique hs₁'
      have hlb : b₂.length = b₂'.length := by
        simp only [List.length_append, List.length_cons] at hbs hbs'
        omega
      obtain ⟨rfl, -⟩ := List.append_inj (hr.symm.trans hr') (by rw [hs₂.length, hs₂'.length, hlb])
      obtain rfl := hs₂.unique hs₂'
      refine hne (hx'.trans ?_)
      rw [hx]
      simp only [List.sum_append, List.sum_cons] at hsum hsum'
      have heq := hsum'.trans hsum.symm
      simp only [UInt8.add_right_inj, UInt8.add_left_inj] at heq
      rw [heq]

/-- `S10411223395` with 34 for 33. -/
theorem srecDecode_detects_34 :
    ∃ e, srecDecode ([] ++ charS :: 0x31 :: 0x30 :: 0x34 :: ([0x31, 0x31, 0x32, 0x32] ++
      0x33 :: 0x34 :: [0x39, 0x35])) = .error e := by
  have hrecord : srecDecode ([] ++ charS :: 0x31 :: 0x30 :: 0x34 :: ([0x31, 0x31, 0x32, 0x32] ++
      0x33 :: 0x33 :: [0x39, 0x35])) = .ok (.record .data2 1 0x1122 [0x33]) := rfl
  exact srecDecode_detects (k := 2) List.not_mem_nil rfl (by decide) hrecord (by decide)

end Plak1a.Boot.SRecord
