import Mathlib.Tactic.ByContra
import Plak1a.Flash.WriteBuff

/-!
# What `write_buff` programs

Head and tail of the range are merged with the bytes the flash already holds, so that
every word of the range is programmed with the contents it is to have. The whole words
are loaded through the source pointer as it is: from an unaligned pointer the load wraps
around inside one aligned word, and the bytes before the pointer take the place of those
behind the word.
-/

namespace Plak1a.Flash.Programmed

open Plak1a.Lib.Bytes Plak1a.Flash.WriteBuff

/-- The flash with the range replaced by the source bytes. -/
def target (ram : Memory) (src addr cnt : Nat) (flash : Memory) : Memory :=
  fun p => if addr ≤ p ∧ p < addr + cnt then ram (src + (p - addr)) else flash p

/-- The contents `f` below `w`, the flash from `w` on. -/
def upTo (flash f : Memory) (w : Nat) : Memory := fun p => if p < w then f p else flash p

/-- Some bit of the word at `w` is to be 1 and is 0. -/
def Blocked (flash f : Memory) (w : Nat) : Prop :=
  ∃ j < 4, flash (w + j) &&& f (w + j) ≠ f (w + j)

/-- The words that hold a byte of the range, and the word of `addr` if that is unaligned. -/
def Touched (addr cnt w : Nat) : Prop :=
  w % 4 = 0 ∧ addr - addr % 4 ≤ w ∧ w < addr + cnt

/-- `r` is the outcome of programming `f`: everything on 0, and on 2 the words before one
that cannot be programmed. -/
def Programs (flash f : Memory) (addr cnt : Nat) (r : Nat × Memory) : Prop :=
  (r.1 = 0 ∨ r.1 = 2) ∧ (r.1 = 0 → r.2 = f) ∧
    (r.1 = 2 → ∃ w, Touched addr cnt w ∧ Blocked flash f w ∧ r.2 = upTo flash f w)

/-- `write_buff` programs exactly the requested range. -/
def Meets (ram : Memory) (src addr cnt : Nat) (flash : Memory) : Prop :=
  Programs flash (target ram src addr cnt flash) addr cnt (writeBuff ram src addr cnt flash)

/-- At every whole word of the range, the source bytes below the pointer in its aligned
word are those four further on. There are none below an aligned pointer. -/
def Straight (ram : Memory) (src addr cnt : Nat) : Prop :=
  ∀ w, w % 4 = 0 → addr ≤ w → w + 4 ≤ addr + cnt →
    let s := src + (w - addr)
    ∀ i < s % 4, ram (s - s % 4 + i) = ram (s - s % 4 + 4 + i)

/-- What the code programs: whole words as they are loaded. -/
def loaded (ram : Memory) (src addr cnt : Nat) (flash : Memory) : Memory :=
  fun p =>
    let w := p - p % 4
    if addr ≤ w ∧ w + 4 ≤ addr + cnt then byteOf (load ram (src + (w - addr))) (p % 4)
    else target ram src addr cnt flash p

variable {ram flash f g : Memory} {src addr cnt wp w l k s : Nat} {data : UInt32} {m : Merge}

theorem byteOf_load (ram : Memory) (s : Nat) {j : Nat} (hj : j < 4) :
    byteOf (load ram s) j = ram (s - s % 4 + (j + s % 4) % 4) := by
  rw [load, byteOf_rotateBytes _ (Nat.mod_lt _ (by decide)) hj,
    byteOf_wordAt _ _ (Nat.mod_lt _ (by decide))]

/-- A load gives the bytes from the pointer on if they repeat with distance four. -/
theorem load_straight_iff :
    (∀ j < 4, byteOf (load ram s) j = ram (s + j)) ↔
      ∀ i < s % 4, ram (s - s % 4 + i) = ram (s - s % 4 + 4 + i) := by
  constructor
  · intro h i hi
    have hb := h (4 - s % 4 + i) (by omega)
    rw [byteOf_load ram s (by omega)] at hb
    rw [show (4 - s % 4 + i + s % 4) % 4 = i from by omega] at hb
    rw [hb]
    congr 1
    omega
  · intro h j hj
    rw [byteOf_load ram s hj]
    by_cases hlt : j + s % 4 < 4
    · rw [Nat.mod_eq_of_lt hlt]
      congr 1
      omega
    · have hb := h (j + s % 4 - 4) (by omega)
      rw [show (j + s % 4) % 4 = j + s % 4 - 4 from by omega, hb]
      congr 1
      omega

theorem load_aligned (m : Memory) (h : w % 4 = 0) {j : Nat} (hj : j < 4) :
    byteOf (load m w) j = m (w + j) := by
  rw [byteOf_load m w hj, h, Nat.add_zero, Nat.mod_eq_of_lt hj, Nat.sub_zero]

theorem refused_iff (h : w % 4 = 0) (hd : ∀ j < 4, byteOf data j = f (w + j)) :
    load flash w &&& data ≠ data ↔ Blocked flash f w := by
  constructor
  · intro hne
    by_contra hb
    apply hne
    apply word_ext
    intro j hj
    rw [byteOf_and, load_aligned flash h hj, hd j hj]
    by_contra hj'
    exact hb ⟨j, hj, hj'⟩
  · intro ⟨j, hj, hne⟩ heq
    apply hne
    rw [← hd j hj, ← load_aligned flash h hj, ← byteOf_and, heq]

/-- A half word whose bits the flash has left is programmed, and its poll ends. -/
theorem writeHalf_eq {v : UInt16} {p : Nat} (h₀ : v.toUInt8 = f p)
    (h₁ : (v >>> 8).toUInt8 = f (p + 1)) (hf₀ : flash p &&& f p = f p)
    (hf₁ : flash (p + 1) &&& f (p + 1) = f (p + 1)) :
    writeHalf (upTo flash f p) p v = (true, upTo flash f (p + 2)) := by
  have hp : program (upTo flash f p) p v = upTo flash f (p + 2) := by
    funext q
    unfold program upTo
    by_cases hq : q = p
    · rw [if_pos hq, hq, if_neg (Nat.lt_irrefl p), if_pos (by omega), h₀, hf₀]
    · by_cases hq₁ : q = p + 1
      · rw [if_neg hq, if_pos hq₁, hq₁, if_neg (by omega), if_pos (by omega), h₁, hf₁]
      · rw [if_neg hq, if_neg hq₁]
        by_cases hlt : q < p
        · rw [if_pos hlt, if_pos (by omega)]
        · rw [if_neg hlt, if_neg (by omega)]
  have hh : halfAt (upTo flash f (p + 2)) p = v := by
    apply halfAt_of_bytes
    · rw [h₀, upTo, if_pos (by omega)]
    · rw [h₁, upTo, if_pos (by omega)]
  rw [writeHalf, hp, hh, decide_eq_true rfl]

theorem halves (data : UInt32) :
    data.toUInt16.toUInt8 = byteOf data 0 ∧ (data.toUInt16 >>> 8).toUInt8 = byteOf data 1 ∧
      (data >>> 16).toUInt16.toUInt8 = byteOf data 2 ∧
      ((data >>> 16).toUInt16 >>> 8).toUInt8 = byteOf data 3 := by
  have hd := data.toNat_lt
  simp only [byteOf, ← UInt8.toNat_inj, UInt16.toNat_toUInt8, UInt32.toNat_toUInt8,
    UInt32.toNat_toUInt16, UInt16.toNat_shiftRight, UInt32.toNat_shiftRight,
    Nat.shiftRight_eq_div_pow]
  simp only [show (8 : UInt16).toNat % 16 = 8 from rfl, show (16 : UInt32).toNat % 32 = 16 from rfl,
    show (UInt32.ofNat (8 * 0)).toNat % 32 = 0 from rfl,
    show (UInt32.ofNat (8 * 1)).toNat % 32 = 8 from rfl,
    show (UInt32.ofNat (8 * 2)).toNat % 32 = 16 from rfl,
    show (UInt32.ofNat (8 * 3)).toNat % 32 = 24 from rfl]
  omega

theorem blocked_upTo : Blocked (upTo flash f w) f w ↔ Blocked flash f w := by
  have hup : ∀ j, upTo flash f w (w + j) = flash (w + j) := fun j =>
    if_neg (Nat.not_lt.mpr (Nat.le_add_right w j))
  simp only [Blocked, hup]

/-- Nothing in the way of a word is in the way of its halves. -/
theorem writeHalf_word (hd : ∀ j < 4, byteOf data j = f (w + j)) (hb : ¬ Blocked flash f w) :
    writeHalf (upTo flash f w) w data.toUInt16 = (true, upTo flash f (w + 2)) ∧
      writeHalf (upTo flash f (w + 2)) (w + 2) (data >>> 16).toUInt16 =
        (true, upTo flash f (w + 4)) := by
  have hfree : ∀ j < 4, flash (w + j) &&& f (w + j) = f (w + j) := fun j hj => by
    by_contra hne
    exact hb ⟨j, hj, hne⟩
  obtain ⟨h₀, h₁, h₂, h₃⟩ := halves data
  rw [hd 0 (by decide), Nat.add_zero] at h₀
  rw [hd 1 (by decide)] at h₁
  rw [hd 2 (by decide)] at h₂
  rw [hd 3 (by decide)] at h₃
  constructor
  · exact writeHalf_eq h₀ h₁ (hfree 0 (by decide)) (hfree 1 (by decide))
  · exact writeHalf_eq h₂ h₃ (hfree 2 (by decide)) (hfree 3 (by decide))

/-- `write_word` on a flash that is programmed up to its word. -/
theorem writeWord_eq (flash : Memory) (h : w % 4 = 0) (hd : ∀ j < 4, byteOf data j = f (w + j)) :
    (Blocked flash f w ∧ writeWord (upTo flash f w) w data = (2, upTo flash f w)) ∨
      (¬ Blocked flash f w ∧
        writeWord (upTo flash f w) w data = (0, upTo flash f (w + 4))) := by
  by_cases hb : Blocked flash f w
  · left
    refine ⟨hb, ?_⟩
    rw [writeWord, if_pos ((refused_iff h hd).mpr (blocked_upTo.mpr hb))]
  · right
    obtain ⟨hlow, hhigh⟩ := writeHalf_word hd hb
    refine ⟨hb, ?_⟩
    rw [writeWord, if_neg (fun hr => hb (blocked_upTo.mp ((refused_iff h hd).mp hr))), hlow]
    dsimp only
    rw [if_pos rfl, hhigh]
    rfl

theorem forLoop_inv (more : Merge → Bool) (body : Merge → Merge) {I : Merge → Prop}
    (hmore : ∀ m, more m = true → m.i < 4)
    (hbody : ∀ m, I m → more m = true → I (body m) ∧ (body m).i = m.i + 1) :
    ∀ {n : Nat} {m : Merge}, 4 ≤ m.i + n → I m →
      I (forLoop more body n m) ∧ more (forLoop more body n m) = false := by
  intro n
  induction n with
  | zero =>
    intro m hn hm
    refine ⟨hm, Bool.eq_false_iff.mpr fun h => ?_⟩
    have := hmore m h
    omega
  | succ n ih =>
    intro m hn hm
    rw [forLoop]
    split
    · rename_i h
      obtain ⟨hI, hi⟩ := hbody m hm h
      exact ih (by omega) hI
    · rename_i h
      exact ⟨hm, Bool.eq_false_iff.mpr h⟩

/-- The first `i` bytes of the word are those of `f` from `wp` on, `k` of them taken from
the source. -/
structure Merged (f : Memory) (wp src cnt k : Nat) (m : Merge) : Prop where
  i_le : m.i ≤ 4
  cp : m.cp = wp + m.i
  src : m.src = src + k
  cnt : m.cnt + k = cnt
  data : ∀ j < 4, byteOf m.data j = if j < m.i then f (wp + j) else 0

theorem merged_start (f : Memory) (wp src cnt : Nat) :
    Merged f wp src cnt 0 ⟨0, wp, src, cnt, 0⟩ where
  i_le := Nat.zero_le 4
  cp := rfl
  src := rfl
  cnt := rfl
  data := by
    intro j hj
    rw [if_neg (Nat.not_lt_zero j), byteOf, UInt32.zero_shiftRight]
    rfl

theorem Merged.data_or (h : Merged f wp src cnt k m) (hi : m.i < 4) {b : UInt8}
    (hb : b = f m.cp) {j : Nat} (hj : j < 4) :
    byteOf (m.data ||| shifted b m.i) j = if j < m.i + 1 then f (wp + j) else 0 := by
  rw [byteOf_or, byteOf_shifted b hj hi, h.data j hj]
  by_cases heq : j = m.i
  · rw [if_neg (by omega), if_pos heq, if_pos (by omega), hb, h.cp, heq, UInt8.zero_or]
  · rw [if_neg heq, UInt8.or_zero]
    by_cases hlt : j < m.i
    · rw [if_pos hlt, if_pos (by omega)]
    · rw [if_neg hlt, if_neg (by omega)]

theorem Merged.ofFlash (h : Merged f wp src cnt k m) (hi : m.i < 4) (hb : g m.cp = f m.cp) :
    Merged f wp src cnt k (mergeFlash g m) where
  i_le := hi
  cp := by show m.cp + 1 = wp + (m.i + 1); rw [h.cp]; omega
  src := h.src
  cnt := h.cnt
  data := fun _ hj => h.data_or hi hb hj

theorem Merged.ofSource (h : Merged f wp src cnt k m) (hi : m.i < 4) (hc : 0 < m.cnt)
    (hb : ram m.src = f m.cp) : Merged f wp src cnt (k + 1) (mergeSource ram m) where
  i_le := hi
  cp := by show m.cp + 1 = wp + (m.i + 1); rw [h.cp]; omega
  src := by show m.src + 1 = src + (k + 1); rw [h.src]; omega
  cnt := by
    have := h.cnt
    show m.cnt - 1 + (k + 1) = cnt
    omega
  data := fun _ hj => h.data_or hi hb hj

/-- Source bytes are taken until the word or the range ends. -/
theorem Merged.sourceLoop (h : Merged f wp src cnt 0 m) (ram : Memory) (hl : m.i = l)
    (hin : ∀ j < cnt, l + j < 4 → ram (src + j) = f (wp + (l + j))) :
    let k := min (4 - l) cnt
    let m := forLoop (fun m => m.i < 4 && 0 < m.cnt) (mergeSource ram) 4 m
    Merged f wp src cnt k m ∧ m.i = l + k := by
  have hmore : ∀ m : Merge, (m.i < 4 && 0 < m.cnt) = true → m.i < 4 ∧ 0 < m.cnt := by
    intro m hm
    simpa only [Bool.and_eq_true, decide_eq_true_eq] using hm
  have hinv := forLoop_inv (fun m => m.i < 4 && 0 < m.cnt) (mergeSource ram)
    (I := fun m => ∃ k, Merged f wp src cnt k m ∧ m.i = l + k)
    (fun m hm => (hmore m hm).1)
    (fun m ⟨k, hk, hi⟩ hm => by
      have hcnt := hk.cnt
      obtain ⟨hi4, hpos⟩ := hmore m hm
      refine ⟨⟨k + 1, hk.ofSource hi4 hpos ?_, by show m.i + 1 = _; omega⟩, rfl⟩
      rw [hk.src, hk.cp, hi]
      exact hin k (by omega) (by omega))
    (show 4 ≤ m.i + 4 from by omega) ⟨0, h, hl⟩
  obtain ⟨⟨k, hk, hi⟩, hstop⟩ := hinv
  have hcnt := hk.cnt
  have hle := hk.i_le
  simp only [Bool.and_eq_false_iff, decide_eq_false_iff_not] at hstop
  obtain rfl : k = min (4 - l) cnt := by omega
  exact ⟨hk, hi⟩

/-- Flash bytes are taken while `more` holds, up to byte `n`. -/
theorem Merged.flashLoop (h : Merged f wp src cnt k m) (more : Merge → Bool) {n : Nat}
    (hn : n ≤ 4) (hm : m.i ≤ n) (hmore : ∀ m, more m = true → m.i < n)
    (hb : ∀ m', more m' = true → m'.cnt = m.cnt → m.i ≤ m'.i → g (wp + m'.i) = f (wp + m'.i)) :
    let m' := forLoop more (mergeFlash g) 4 m
    Merged f wp src cnt k m' ∧ m.i ≤ m'.i ∧ m'.i ≤ n ∧ more m' = false := by
  have hinv := forLoop_inv more (mergeFlash g)
    (I := fun m' => Merged f wp src cnt k m' ∧ m'.cnt = m.cnt ∧ m.i ≤ m'.i ∧ m'.i ≤ n)
    (fun m' hgo => Nat.lt_of_lt_of_le (hmore m' hgo) hn)
    (fun m' ⟨hm, hc, hle, _⟩ hgo => by
      have hlt := hmore m' hgo
      refine ⟨⟨hm.ofFlash (Nat.lt_of_lt_of_le hlt hn) ?_, hc, Nat.le_succ_of_le hle, hlt⟩, rfl⟩
      rw [hm.cp]
      exact hb m' hgo hc hle)
    (show 4 ≤ m.i + 4 from by omega) ⟨h, rfl, Nat.le_refl _, hm⟩
  obtain ⟨⟨hm', _, hle, hn'⟩, hstop⟩ := hinv
  exact ⟨hm', hle, hn', hstop⟩

/-- The head is merged from the flash before the range, the source and, if the range ends
in the word, the flash behind it. -/
theorem mergeHead_spec (ram g f : Memory) (wp src cnt : Nat) (hl : l < 4)
    (hbefore : ∀ j < l, g (wp + j) = f (wp + j))
    (hin : ∀ j < cnt, l + j < 4 → ram (src + j) = f (wp + (l + j)))
    (hafter : ∀ j < 4, l + cnt ≤ j → g (wp + j) = f (wp + j)) :
    let m := mergeHead ram g l ⟨0, wp, src, cnt, 0⟩
    (∀ j < 4, byteOf m.data j = f (wp + j)) ∧ m.src = src + min (4 - l) cnt ∧
      m.cnt = cnt - (4 - l) := by
  obtain ⟨h₁, _, hle₁, hstop₁⟩ := (merged_start f wp src cnt).flashLoop (g := g)
    (fun m => m.i < l) (Nat.le_of_lt hl) (Nat.zero_le l) (fun m hm => of_decide_eq_true hm)
    (fun m hm _ _ => hbefore m.i (of_decide_eq_true hm))
  have hi₁ := of_decide_eq_false hstop₁
  obtain ⟨h₂, hi₂⟩ := h₁.sourceLoop ram (l := l) (by omega) hin
  have hcnt₂ := h₂.cnt
  obtain ⟨h₃, hge₃, hle₃, hstop₃⟩ := h₂.flashLoop (g := g) (fun m => m.cnt = 0 && m.i < 4)
    (Nat.le_refl 4) h₂.i_le
    (fun m hm => by
      simp only [Bool.and_eq_true, decide_eq_true_eq] at hm
      exact hm.2)
    (fun m hm hc hle => by
      simp only [Bool.and_eq_true, decide_eq_true_eq] at hm
      exact hafter m.i hm.2 (by omega))
  have hcnt₃ := h₃.cnt
  simp only [Bool.and_eq_false_iff, decide_eq_false_iff_not] at hstop₃
  rw [mergeHead]
  constructor
  · intro j hj
    rw [h₃.data j hj, if_pos (by omega)]
  · exact ⟨h₃.src, by omega⟩

/-- The tail is merged from the source and the flash behind the range. -/
theorem mergeTail_spec (ram g f : Memory) (wp src cnt : Nat) (hcnt : cnt < 4)
    (hin : ∀ j < cnt, ram (src + j) = f (wp + j))
    (hafter : ∀ j < 4, cnt ≤ j → g (wp + j) = f (wp + j)) :
    ∀ j < 4, byteOf (mergeTail ram g ⟨0, wp, src, cnt, 0⟩).data j = f (wp + j) := by
  obtain ⟨h₁, hi₁⟩ := (merged_start f wp src cnt).sourceLoop ram (l := 0) rfl
    (fun j hj _ => by rw [Nat.zero_add]; exact hin j hj)
  have hcnt₁ := h₁.cnt
  obtain ⟨h₂, _, hle₂, hstop₂⟩ := h₁.flashLoop (g := g) (fun m => m.i < 4) (Nat.le_refl 4) h₁.i_le
    (fun m hm => of_decide_eq_true hm)
    (fun m hm hc hle => hafter m.i (of_decide_eq_true hm) (by omega))
  have hi₂ := of_decide_eq_false hstop₂
  intro j hj
  rw [mergeTail, h₂.data j hj, if_pos (by omega)]

/-- The tail on a flash that is programmed up to its word. -/
theorem mergeTail_upTo (hf : ∀ p, addr + cnt ≤ p → f p = flash p) {n : Nat} (hn : n < 4)
    (hend : addr + cnt ≤ w + n) (hin : ∀ j < n, ram (s + j) = f (w + j)) :
    ∀ j < 4, byteOf (mergeTail ram (upTo flash f w) ⟨0, w, s, n, 0⟩).data j = f (w + j) := by
  apply mergeTail_spec ram (upTo flash f w) f w s n hn hin
  intro j _ hj
  rw [upTo, if_neg (by omega), hf _ (by omega)]

theorem writeAligned_of_lt (ram : Memory) (s wp : Nat) {n : Nat} (h : n < 4) (flash : Memory) :
    writeAligned ram s wp n flash =
      if n = 0 then (0, flash)
      else writeWord flash wp (mergeTail ram flash ⟨0, wp, s, n, 0⟩).data := by
  rcases n with _ | _ | _ | _ | n
  · rfl
  · rfl
  · rfl
  · rfl
  · omega

/-- A word that cannot be programmed ends the call. -/
theorem programs_blocked (ht : Touched addr cnt w) (hb : Blocked flash f w) :
    Programs flash f addr cnt (2, upTo flash f w) :=
  ⟨Or.inr rfl, fun h => absurd h (show (2 : Nat) ≠ 0 from by decide), fun _ => ⟨w, ht, hb, rfl⟩⟩

/-- Everything is programmed when the words up to the end of the range are. -/
theorem programs_done (hf : ∀ p, addr + cnt ≤ p → f p = flash p) (hw : addr + cnt ≤ w) :
    Programs flash f addr cnt (0, upTo flash f w) := by
  refine ⟨Or.inl rfl, fun _ => ?_, fun h => absurd h (show (0 : Nat) ≠ 2 from by decide)⟩
  funext p
  show upTo flash f w p = f p
  unfold upTo
  by_cases hp : p < w
  · rw [if_pos hp]
  · rw [if_neg hp, hf p (by omega)]

/-- From a word boundary on, with the flash programmed up to it. -/
theorem writeAligned_programs (hf : ∀ p, addr + cnt ≤ p → f p = flash p)
    (hw : ∀ w, w % 4 = 0 → addr ≤ w → w + 4 ≤ addr + cnt →
      ∀ j < 4, byteOf (load ram (src + (w - addr))) j = f (w + j))
    (ht : ∀ w, w % 4 = 0 → addr ≤ w → addr + cnt < w + 4 →
      ∀ j < addr + cnt - w, ram (src + (w - addr) + j) = f (w + j)) :
    ∀ {n s w : Nat}, w % 4 = 0 → addr ≤ w → n = addr + cnt - w →
      (0 < n → s = src + (w - addr)) →
      Programs flash f addr cnt (writeAligned ram s w n (upTo flash f w)) := by
  intro n
  induction n using Nat.strongRecOn with
  | _ n ih =>
    intro s wp h4 hle hn hs
    by_cases hcnt : 4 ≤ n
    · obtain ⟨n, rfl⟩ : ∃ n', n = n' + 4 := ⟨n - 4, by omega⟩
      have htouched : Touched addr cnt wp := ⟨h4, by omega, by omega⟩
      have hnext := ih n (by omega) (s := s + 4) (w := wp + 4) (by omega) (by omega) (by omega)
        (fun _ => by rw [hs (by omega)]; omega)
      obtain rfl := hs (by omega)
      rw [writeAligned]
      rcases writeWord_eq flash h4 (hw wp h4 hle (by omega)) with ⟨hb, he⟩ | ⟨_, he⟩
      · rw [he]
        exact programs_blocked htouched hb
      · rw [he]
        exact hnext
    · rw [writeAligned_of_lt ram s wp (by omega)]
      by_cases hz : n = 0
      · rw [if_pos hz]
        exact programs_done hf (by omega)
      · rw [if_neg hz]
        obtain rfl := hs (by omega)
        have hd := mergeTail_upTo hf (show n < 4 by omega) (by omega)
          (fun j hj => ht wp h4 hle (by omega) j (by omega))
        rcases writeWord_eq flash h4 hd with ⟨hb, he⟩ | ⟨_, he⟩
        · rw [he]
          exact programs_blocked ⟨h4, by omega, by omega⟩ hb
        · rw [he]
          exact programs_done hf (by omega)

theorem target_of_lt (h : addr + cnt ≤ k) : target ram src addr cnt flash k = flash k :=
  if_neg (by omega)

theorem target_add (ram flash : Memory) (src : Nat) {j : Nat} (h : j < cnt) :
    target ram src addr cnt flash (addr + j) = ram (src + j) := by
  rw [target, if_pos (by omega), Nat.add_sub_cancel_left]

/-- Outside the whole words of the range the code programs what it is to program. -/
theorem loaded_eq_target (h : ¬ (addr ≤ k - k % 4 ∧ k - k % 4 + 4 ≤ addr + cnt)) :
    loaded ram src addr cnt flash k = target ram src addr cnt flash k := if_neg h

theorem loaded_whole (ram flash : Memory) (src : Nat) (h4 : w % 4 = 0) (hle : addr ≤ w)
    (hend : w + 4 ≤ addr + cnt) {j : Nat} (hj : j < 4) :
    loaded ram src addr cnt flash (w + j) = byteOf (load ram (src + (w - addr))) j := by
  have hm : (w + j) % 4 = j := by omega
  rw [loaded, hm, Nat.add_sub_cancel, if_pos ⟨hle, hend⟩]

theorem loaded_of_ge (ram flash : Memory) (src : Nat) (h : addr + cnt ≤ k) :
    loaded ram src addr cnt flash k = flash k := by
  rw [loaded_eq_target (by omega), target_of_lt h]

theorem loaded_of_lt (ram flash : Memory) (src cnt : Nat) (h : k < addr) :
    loaded ram src addr cnt flash k = flash k := by
  rw [loaded_eq_target (by omega)]
  exact if_neg (by omega)

/-- Behind the last whole word the source bytes themselves are programmed. -/
theorem loaded_tail (ram flash : Memory) (src : Nat) (h4 : w % 4 = 0) (hle : addr ≤ w)
    (hend : addr + cnt < w + 4) {j : Nat} (hj : j < addr + cnt - w) :
    ram (src + (w - addr) + j) = loaded ram src addr cnt flash (w + j) := by
  rw [loaded_eq_target (by omega), show w + j = addr + (w - addr + j) from by omega,
    target_add ram flash src (by omega), Nat.add_assoc]

theorem upTo_start (ram flash : Memory) (src addr cnt : Nat) :
    upTo flash (loaded ram src addr cnt flash) (addr - addr % 4) = flash := by
  funext p
  unfold upTo
  by_cases hp : p < addr - addr % 4
  · rw [if_pos hp, loaded_of_lt ram flash src cnt (by omega)]
  · rw [if_neg hp]

/-- The head on the flash as it is before the call. -/
theorem mergeHead_loaded (ram flash : Memory) (src cnt : Nat) (hl : addr % 4 ≠ 0) :
    let m := mergeHead ram flash (addr % 4) ⟨0, addr - addr % 4, src, cnt, 0⟩
    (∀ j < 4, byteOf m.data j = loaded ram src addr cnt flash (addr - addr % 4 + j)) ∧
      m.src = src + min (4 - addr % 4) cnt ∧ m.cnt = cnt - (4 - addr % 4) := by
  apply mergeHead_spec ram flash _ _ src cnt (Nat.mod_lt addr (by decide))
  · exact fun j hj => (loaded_of_lt ram flash src cnt (by omega)).symm
  · intro j hj hj4
    rw [show addr - addr % 4 + (addr % 4 + j) = addr + j from by omega,
      loaded_eq_target (by omega), target_add ram flash src hj]
  · exact fun j hj hle => (loaded_of_ge ram flash src (by omega)).symm

theorem writeAligned_loaded (ram flash : Memory) (src addr cnt : Nat) {n : Nat} (h4 : w % 4 = 0)
    (hle : addr ≤ w) (hn : n = addr + cnt - w) (hs : 0 < n → s = src + (w - addr)) :
    Programs flash (loaded ram src addr cnt flash) addr cnt
      (writeAligned ram s w n (upTo flash (loaded ram src addr cnt flash) w)) :=
  writeAligned_programs (fun _ hp => loaded_of_ge ram flash src hp)
    (fun _ h4 hle hend _ hj => (loaded_whole ram flash src h4 hle hend hj).symm)
    (fun _ h4 hle hend _ hj => loaded_tail ram flash src h4 hle hend hj) h4 hle hn hs

/-- `write_buff` programs the range with the whole words as they are loaded. -/
theorem writeBuff_programs (ram : Memory) (src addr cnt : Nat) (flash : Memory) :
    Programs flash (loaded ram src addr cnt flash) addr cnt (writeBuff ram src addr cnt flash) := by
  have hstart := upTo_start ram flash src addr cnt
  rw [writeBuff]
  by_cases hl : addr % 4 = 0
  · have hall := writeAligned_loaded ram flash src addr cnt (n := cnt) (s := src)
      (w := addr - addr % 4) (by omega) (by omega) (by omega) (fun _ => by omega)
    rw [hstart] at hall
    rw [if_neg (not_not_intro hl)]
    exact hall
  · obtain ⟨hd, hsrc, hcnt⟩ := mergeHead_loaded ram flash src cnt hl
    have hword := writeWord_eq flash (w := addr - addr % 4) (by omega) hd
    rw [hstart] at hword
    rw [if_pos hl]
    dsimp only
    rcases hword with ⟨hb, he⟩ | ⟨_, he⟩
    · have htouched : Touched addr cnt (addr - addr % 4) := ⟨by omega, by omega, by omega⟩
      have hout := programs_blocked htouched hb
      rw [hstart] at hout
      rw [he]
      exact hout
    · rw [he]
      exact writeAligned_loaded ram flash src addr cnt (by omega) (by omega) (by omega)
        fun h => by omega

/-- The flash has a 1 wherever the source bytes have one. -/
def Erased (ram : Memory) (src addr cnt : Nat) (flash : Memory) : Prop :=
  ∀ i < cnt, flash (addr + i) &&& ram (src + i) = ram (src + i)

theorem straight_iff (ram : Memory) (src addr cnt : Nat) (flash : Memory) :
    Straight ram src addr cnt ↔
      loaded ram src addr cnt flash = target ram src addr cnt flash := by
  have hbyte : ∀ {w : Nat}, addr ≤ w → w + 4 ≤ addr + cnt → ∀ j < 4,
      target ram src addr cnt flash (w + j) = ram (src + (w - addr) + j) := by
    intro w hle hend j hj
    rw [show w + j = addr + (w - addr + j) from by omega, target_add ram flash src (by omega),
      Nat.add_assoc]
  constructor
  · intro h
    funext p
    by_cases hp : addr ≤ p - p % 4 ∧ p - p % 4 + 4 ≤ addr + cnt
    · have hb := load_straight_iff.mpr (h (p - p % 4) (by omega) hp.1 hp.2) (p % 4) (by omega)
      rw [← loaded_whole ram flash src (by omega) hp.1 hp.2 (by omega),
        ← hbyte hp.1 hp.2 (p % 4) (by omega)] at hb
      rwa [show p - p % 4 + p % 4 = p from by omega] at hb
    · exact loaded_eq_target hp
  · intro h w h4 hle hend
    apply load_straight_iff.mp
    intro j hj
    rw [← loaded_whole ram flash src h4 hle hend hj, h, hbyte hle hend j hj]

theorem meets_of_straight (h : Straight ram src addr cnt) (flash : Memory) :
    Meets ram src addr cnt flash := by
  rw [Meets, ← (straight_iff ram src addr cnt flash).mp h]
  exact writeBuff_programs ram src addr cnt flash

theorem Erased.not_blocked (h : Erased ram src addr cnt flash) :
    ¬ Blocked flash (target ram src addr cnt flash) w := by
  intro ⟨j, _, hne⟩
  apply hne
  by_cases hp : addr ≤ w + j ∧ w + j < addr + cnt
  · have hb := h (w + j - addr) (by omega)
    rw [show addr + (w + j - addr) = w + j from by omega] at hb
    rw [target, if_pos hp, hb]
  · rw [target, if_neg hp, UInt8.and_self]

/-- Where nothing stands in the way of the data, the whole words decide. -/
theorem meets_iff_straight (flash : Memory) (h : Erased ram src addr cnt flash) :
    Meets ram src addr cnt flash ↔ Straight ram src addr cnt := by
  constructor
  · intro ⟨hrc, hdone, hblocked⟩
    have hzero : (writeBuff ram src addr cnt flash).1 = 0 := by
      rcases hrc with hrc | hrc
      · exact hrc
      · obtain ⟨w, _, hb, _⟩ := hblocked hrc
        exact absurd hb h.not_blocked
    rw [straight_iff ram src addr cnt flash, ← hdone hzero]
    exact ((writeBuff_programs ram src addr cnt flash).2.1 hzero).symm
  · exact fun hs => meets_of_straight hs flash

/-- `write_buff` programs the requested range on every flash exactly if its whole words are
loaded straight; on a flash that has room for the data this is so for that flash alone. -/
theorem writeBuff_iff (ram : Memory) (src addr cnt : Nat) :
    ((∀ flash, Meets ram src addr cnt flash) ↔ Straight ram src addr cnt) ∧
      ∀ flash, Erased ram src addr cnt flash →
        (Meets ram src addr cnt flash ↔ Straight ram src addr cnt) := by
  constructor
  · constructor
    · intro h
      apply (meets_iff_straight (fun _ => 0xFF) _).mp (h _)
      exact fun i _ => UInt8.neg_one_and
    · exact fun hs flash => meets_of_straight hs flash
  · exact fun flash h => meets_iff_straight flash h

/-- Four bytes from address 1 on an erased word: the load wraps around to address 0. -/
theorem unaligned_source_rotated :
    let ram : Memory := UInt8.ofNat
    let flash : Memory := fun _ => 0xFF
    (writeBuff ram 1 0 4 flash).1 = 0 ∧ (writeBuff ram 1 0 4 flash).2 3 = 0 ∧
      target ram 1 0 4 flash 3 = 4 ∧ ¬ Meets ram 1 0 4 flash := by
  have hrc : (writeBuff UInt8.ofNat 1 0 4 (fun _ => 0xFF)).1 = 0 := by decide
  have hbyte : (writeBuff UInt8.ofNat 1 0 4 (fun _ => 0xFF)).2 3 = 0 := by decide
  refine ⟨hrc, hbyte, by decide, ?_⟩
  intro h
  rw [h.2.1 hrc] at hbyte
  exact absurd hbyte (by decide)

end Plak1a.Flash.Programmed
