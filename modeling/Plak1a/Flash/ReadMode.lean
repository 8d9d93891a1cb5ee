import Plak1a.Flash.EraseTrace
import Plak1a.Flash.TimedWrite

/-!
# Whether the driver leaves the flash readable

`flash_erase` resets the bank behind an erase that it has seen finished, and `write_buff`
starts the next operation only then. Both give up a wait without a reset, so that the flash is
readable exactly if the device has finished by the time its wait is given up.
-/

namespace Plak1a.Flash.ReadMode

open Info Bank Erase EraseTrace Lib.Trace Programmed

/-- The call starts an erase. -/
def Starts (info : FlashInfo) (sFirst sLast : Int) : Prop :=
  0 ≤ sFirst ∧ sFirst ≤ sLast ∧ info.flashId ≠ flashUnknown ∧
    ∃ sect ∈ sectors sFirst sLast, isProtected info sect = false

/-- The word that operation `k` of a call writes the first or second half of. -/
def opWord (addr k : Nat) : Nat := addr - addr % 4 + 4 * (k / 2)

/-- Nothing is in the way of the words up to that of operation `k`, which is one of the call. -/
def Accepted (ram : WriteBuff.Memory) (src addr cnt : Nat) (flash : WriteBuff.Memory)
    (k : Nat) : Prop :=
  Touched addr cnt (opWord addr k) ∧ ∀ w, Touched addr cnt w → w ≤ opWord addr k →
    ¬ Blocked flash (loaded ram src addr cnt flash) w

variable {polls : Nat} {op : Operation} {info : FlashInfo} {sFirst sLast : Int}
  {ram flash f : WriteBuff.Memory} {src addr cnt k w : Nat} {ops : Nat → Operation}
  {base : UInt32}

theorem lSect_ne_none : lSect info sFirst sLast ≠ none ↔
    ∃ sect ∈ sectors sFirst sLast, isProtected info sect = false := by
  rw [lSect, ne_eq, List.getLast?_eq_none_iff, List.filter_eq_nil_iff]
  simp only [not_forall, Bool.not_eq_true', exists_prop, not_not]

/-- The last write of a call that starts an erase and does not get to the reset. -/
theorem commands_end (h : ∃ sect ∈ sectors sFirst sLast, isProtected info sect = false) :
    ∃ c, ((sectors sFirst sLast).flatMap (eraseSector info sFirst.toNat)).getLast? = some c ∧
      IsErase c := by
  obtain ⟨sect, hmem, hp⟩ := h
  obtain ⟨c, _, heq⟩ := eraseSector_eq hp sFirst.toNat
  have hne : (sectors sFirst sLast).flatMap (eraseSector info sFirst.toNat) ≠ [] := by
    intro hnil
    have hblock := List.flatMap_eq_nil_iff.mp hnil sect hmem
    rw [heq] at hblock
    exact List.append_ne_nil_of_right_ne_nil _ (List.cons_ne_nil c []) hblock
  obtain ⟨c', hc'⟩ := Option.ne_none_iff_exists'.mp (mt List.getLast?_eq_none_iff.mp hne)
  exact ⟨c', hc', endsIn_flatMap (endsIn_eraseSector info sFirst.toNat) c' hc'⟩

theorem flashErase_readable_iff (polls : Nat) (op : Operation) :
    LeftReadable (flashErase polls op info sFirst sLast) ↔
      (Starts info sFirst sLast → ¬ Late cfgFlashEraseTout polls op) := by
  rw [flashErase]
  by_cases hargs : sFirst < 0 ∨ sFirst > sLast
  · rw [if_pos hargs]
    exact iff_of_true (fun _ => Or.inl rfl) fun hs => absurd hs (by rw [Starts]; omega)
  · rw [if_neg hargs]
    by_cases hid : info.flashId = flashUnknown
    · rw [if_pos hid]
      exact iff_of_true (fun _ => Or.inl rfl) fun hs => absurd hid hs.2.2.1
    · rw [if_neg hid]
      dsimp only
      by_cases hsect : lSect info sFirst sLast = none
      · rw [if_pos hsect]
        exact iff_of_true (fun _ => Or.inr (Or.inr rfl)) fun hs =>
          absurd hsect (lSect_ne_none.mpr hs.2.2.2)
      · have hany := lSect_ne_none.mp hsect
        have hstarts : Starts info sFirst sLast := ⟨by omega, by omega, hid, hany⟩
        obtain ⟨c, hc, herase⟩ := commands_end hany
        have hreset : ∀ addr, c ≠ resetBank addr := by
          rintro addr rfl
          exact herase rfl
        rw [if_neg hsect, forall_prop_of_true hstarts]
        cases hwait : wait cfgFlashEraseTout polls op.done op.timer with
        | none => exact iff_of_true (fun hres => absurd rfl hres) (not_late_of_none hwait)
        | some i =>
          dsimp only
          by_cases hdone : op.done i = true
          · rw [if_pos hdone]
            exact iff_of_true (fun _ => Or.inr (Or.inr rfl))
              ((completes_iff hwait).mpr hdone).not_late
          · rw [if_neg hdone, not_late_iff hwait, leftReadable_iff_finished hc hreset]
            exact forall_prop_of_true (Option.some_ne_none 1)

theorem erase_iff (info : FlashInfo) (sFirst sLast : Int) (op : Operation) :
    (∀ polls, LeftReadable (flashErase polls op info sFirst sLast)) ↔
      (Starts info sFirst sLast → InTime cfgFlashEraseTout op) := by
  constructor
  · intro h hs
    by_contra hin
    obtain ⟨n, hn⟩ := late_of_not_inTime hin
    exact (flashErase_readable_iff n op).mp (h n) hs (hn n (Nat.le_refl n))
  · intro h polls
    exact (flashErase_readable_iff polls op).mpr fun hs => (h hs).not_late

/-- The first of the operations from `k` on that the wait does not see finished is not given
up too early, if it belongs to the call. -/
def Safe (accepted : Nat → Prop) (polls : Nat) (ops : Nat → Operation) (k : Nat) : Prop :=
  ∀ n, k ≤ n → accepted n → (∀ j, k ≤ j → j < n → Completes cfgFlashWriteTout polls (ops j)) →
    ¬ Late cfgFlashWriteTout polls (ops n)

variable {accepted : Nat → Prop} {s : TimedWrite.State} {r : Option Nat × TimedWrite.State}

theorem safe_completes (h : Completes cfgFlashWriteTout polls (ops k)) :
    Safe accepted polls ops k ↔ Safe accepted polls ops (k + 1) := by
  constructor
  · intro hs n hn ha hbefore
    apply hs n (by omega) ha
    intro j hj hjn
    rcases Nat.eq_or_lt_of_le hj with rfl | hlt
    · exact h
    · exact hbefore j hlt hjn
  · intro hs n hn ha hbefore
    rcases Nat.eq_or_lt_of_le hn with rfl | hlt
    · exact h.not_late
    · exact hs n hlt ha fun j hj hjn => hbefore j (by omega) hjn

theorem safe_iff_not_late (h : ¬ Completes cfgFlashWriteTout polls (ops k)) (ha : accepted k) :
    Safe accepted polls ops k ↔ ¬ Late cfgFlashWriteTout polls (ops k) := by
  constructor
  · exact fun hs => hs k (Nat.le_refl k) ha fun j hj hjk => absurd hjk (Nat.not_lt.mpr hj)
  · intro hlate n hn _ hbefore
    rcases Nat.eq_or_lt_of_le hn with rfl | hlt
    · exact hlate
    · exact absurd (hbefore k (Nat.le_refl k) hlt) h

def outcome (r : Option Nat × TimedWrite.State) : Outcome := ⟨r.2.cycles, r.1, r.2.finished⟩

/-- A round of `write_word` on a half word that is programmed right: either the wait sees the
end of the operation, or the call ends here. -/
theorem writeHalf_cases (polls : Nat) (ops : Nat → Operation) (base : UInt32) {dest : Nat}
    {data : UInt16} {g : WriteBuff.Memory}
    (hs : s.started = k) (hr : WriteBuff.writeHalf s.flash dest data = (true, g)) :
    (Completes cfgFlashWriteTout polls (ops k) ∧ ∃ cycles,
      TimedWrite.writeHalf polls ops base dest data s = (some 0, ⟨g, k + 1, cycles, true⟩)) ∨
    (¬ Completes cfgFlashWriteTout polls (ops k) ∧
      (TimedWrite.writeHalf polls ops base dest data s).1 ≠ some 0 ∧
      (LeftReadable (outcome (TimedWrite.writeHalf polls ops base dest data s)) ↔
        ¬ Late cfgFlashWriteTout polls (ops k))) := by
  rw [TimedWrite.writeHalf, hr, hs]
  simp only [Bool.and_true]
  cases hwait : wait cfgFlashWriteTout polls (ops k).done (ops k).timer with
  | none =>
    right
    refine ⟨not_completes_of_none hwait, ?_, ?_⟩
    · exact (Option.some_ne_none 0).symm
    · exact iff_of_true (fun hres => absurd rfl hres) (not_late_of_none hwait)
  | some i =>
    dsimp only
    by_cases hdone : (ops k).done i = true
    · rw [if_pos hdone]
      exact Or.inl ⟨(completes_iff hwait).mpr hdone, _, rfl⟩
    · rw [if_neg hdone, not_late_iff hwait]
      right
      refine ⟨mt (completes_iff hwait).mp hdone, ?_, ?_⟩
      · exact fun h => absurd (Option.some.inj h) Nat.one_ne_zero
      · have hlast : (s.cycles ++ TimedWrite.programCycles base dest data).getLast? =
            some (.datum (UInt32.ofNat dest) data) := by
          rw [List.getLast?_append]
          rfl
        have hreset : ∀ addr, Cycle.datum (UInt32.ofNat dest) data ≠ resetBank addr := by
          intro addr h
          cases h
        exact (leftReadable_iff_finished hlast hreset).trans
          (forall_prop_of_true (Option.some_ne_none 1))

variable {data : UInt32}

/-- `write_word` on a flash that is programmed up to its word, which it starts operations `k`
and `k + 1` for: it does not start them, comes to the end of both, or ends in one of them. -/
theorem writeWord_cases (polls : Nat) (ops : Nat → Operation) (base : UInt32)
    (hs : s.started = k) (hf : s.flash = upTo flash f w) (h4 : w % 4 = 0)
    (hd : ∀ j < 4, Lib.Bytes.byteOf data j = f (w + j)) :
    (Blocked flash f w ∧ TimedWrite.writeWord polls ops base w data s = (some 2, s)) ∨
    (¬ Blocked flash f w ∧ Completes cfgFlashWriteTout polls (ops k) ∧
      Completes cfgFlashWriteTout polls (ops (k + 1)) ∧ ∃ cycles,
        TimedWrite.writeWord polls ops base w data s =
          (some 0, ⟨upTo flash f (w + 4), k + 2, cycles, true⟩)) ∨
    (¬ Blocked flash f w ∧ (TimedWrite.writeWord polls ops base w data s).1 ≠ some 0 ∧
      ∀ accepted : Nat → Prop, accepted k → accepted (k + 1) →
        (LeftReadable (outcome (TimedWrite.writeWord polls ops base w data s)) ↔
          Safe accepted polls ops k)) := by
  rw [TimedWrite.writeWord, hf]
  by_cases hb : Blocked flash f w
  · left
    refine ⟨hb, ?_⟩
    rw [if_pos ((refused_iff h4 hd).mpr (blocked_upTo.mpr hb))]
  · right
    obtain ⟨hlow, hhigh⟩ := writeHalf_word hd hb
    rw [if_neg fun hr => hb (blocked_upTo.mp ((refused_iff h4 hd).mp hr))]
    rw [← hf] at hlow
    rcases writeHalf_cases polls ops base hs hlow with
      ⟨hc, cycles, heq⟩ | ⟨hc, hres, hread⟩
    · rw [heq, if_pos rfl]
      rcases writeHalf_cases polls ops (s := ⟨_, k + 1, cycles, true⟩) base rfl
        hhigh with ⟨hc', cycles', heq'⟩ | ⟨hc', hres, hread⟩
      · exact Or.inl ⟨hb, hc, hc', cycles', heq'⟩
      · refine Or.inr ⟨hb, hres, fun accepted _ ha => ?_⟩
        rw [safe_completes hc, safe_iff_not_late hc' ha]
        exact hread
    · right
      rw [if_neg hres]
      refine ⟨hb, hres, fun accepted ha _ => ?_⟩
      rw [safe_iff_not_late hc ha]
      exact hread

/-- Operation `k` is the first one of the word at `w`, up to which the flash is programmed;
nothing was in the way, and the device is idle. -/
structure AtWord (addr cnt : Nat) (flash f : WriteBuff.Memory) (k w : Nat)
    (s : TimedWrite.State) : Prop where
  even : k % 2 = 0
  word : opWord addr k = w
  free : ∀ v, Touched addr cnt v → v < w → ¬ Blocked flash f v
  started : s.started = k
  flash : s.flash = upTo flash f w
  idle : s.cycles = [] ∨ s.finished = true

theorem AtWord.next (h : AtWord addr cnt flash f k w s) (hw : Touched addr cnt w)
    (hb : ¬ Blocked flash f w) (cycles : List Cycle) :
    AtWord addr cnt flash f (k + 2) (w + 4) ⟨upTo flash f (w + 4), k + 2, cycles, true⟩ := by
  have hword := h.word
  have heven := h.even
  refine ⟨by omega, by rw [opWord] at *; omega, ?_, rfl, rfl, Or.inr rfl⟩
  intro v hv hlt
  by_cases hvw : v < w
  · exact h.free v hv hvw
  · obtain rfl : v = w := by
      have := hv.1
      have := hw.1
      omega
    exact hb

theorem AtWord.readable (h : AtWord addr cnt flash f k w s) (rc : Option Nat) :
    LeftReadable (outcome (rc, s)) := fun _ => h.idle.imp_right Or.inr

theorem opWord_mono (addr : Nat) {m n : Nat} (h : m ≤ n) : opWord addr m ≤ opWord addr n := by
  have := Nat.div_le_div_right (c := 2) h
  rw [opWord, opWord]
  omega

/-- A call that starts no more operations has nothing to wait for. -/
theorem safe_of_none (h : ∀ n, k ≤ n → ¬ accepted n) : Safe accepted polls ops k :=
  fun n hn ha => absurd ha (h n hn)

/-- A word of the range, and what comes behind it. -/
theorem writeWord_next (polls : Nat) (ops : Nat → Operation) (base : UInt32)
    (h : AtWord addr cnt flash (loaded ram src addr cnt flash) k w s) (hw : Touched addr cnt w)
    (hd : ∀ j < 4, Lib.Bytes.byteOf data j = loaded ram src addr cnt flash (w + j))
    (next : TimedWrite.State → Option Nat × TimedWrite.State)
    (hnext : ∀ t, AtWord addr cnt flash (loaded ram src addr cnt flash) (k + 2) (w + 4) t →
      (LeftReadable (outcome (next t)) ↔
        Safe (Accepted ram src addr cnt flash) polls ops (k + 2))) :
    let r := TimedWrite.writeWord polls ops base w data s
    LeftReadable (outcome (if r.1 = some 0 then next r.2 else r)) ↔
      Safe (Accepted ram src addr cnt flash) polls ops k := by
  have heven := h.even
  have hword : opWord addr k = w := h.word
  have hword' : opWord addr (k + 1) = w := by rw [opWord] at *; omega
  dsimp only
  rcases writeWord_cases polls ops base h.started h.flash hw.1 hd with
    ⟨hb, heq⟩ | ⟨hb, hc, hc', cycles, heq⟩ | ⟨hb, hres, hread⟩
  · rw [heq, if_neg (fun hres => absurd (Option.some.inj hres) (by decide))]
    refine iff_of_true (h.readable _) (safe_of_none fun n hn ha => ?_)
    exact ha.2 w hw (hword ▸ opWord_mono addr hn) hb
  · rw [heq, if_pos rfl, safe_completes hc, safe_completes hc']
    exact hnext _ (h.next hw hb cycles)
  · have haccepted : ∀ v, Touched addr cnt v → v ≤ w →
        ¬ Blocked flash (loaded ram src addr cnt flash) v := by
      intro v hv hle
      rcases Nat.eq_or_lt_of_le hle with rfl | hlt
      · exact hb
      · exact h.free v hv hlt
    rw [if_neg hres]
    apply hread
    · exact ⟨hword.symm ▸ hw, hword.symm ▸ haccepted⟩
    · exact ⟨hword'.symm ▸ hw, hword'.symm ▸ haccepted⟩

/-- Behind the range no operation is started. -/
theorem AtWord.past (h : AtWord addr cnt flash f k w s) (hw : addr + cnt ≤ w) (polls : Nat)
    (ops : Nat → Operation) : Safe (Accepted ram src addr cnt flash) polls ops k := by
  apply safe_of_none
  intro n hn ha
  have hle := opWord_mono addr hn
  have hlt := ha.1.2.2
  rw [h.word] at hle
  omega

theorem writeAligned_readable_iff (base : UInt32) {n s' : Nat} (h4 : w % 4 = 0) (hle : addr ≤ w)
    (hn : n = addr + cnt - w) (hs : 0 < n → s' = src + (w - addr))
    (h : AtWord addr cnt flash (loaded ram src addr cnt flash) k w s) :
    LeftReadable (outcome (TimedWrite.writeAligned polls ops base ram s' w n s)) ↔
      Safe (Accepted ram src addr cnt flash) polls ops k := by
  induction n using Nat.strongRecOn generalizing s' w k s with
  | _ n ih =>
    by_cases hcnt : 4 ≤ n
    · obtain ⟨n, rfl⟩ : ∃ n', n = n' + 4 := ⟨n - 4, by omega⟩
      obtain rfl := hs (by omega)
      rw [TimedWrite.writeAligned]
      apply writeWord_next polls ops base h ⟨h4, by omega, by omega⟩
      · exact fun j hj => (loaded_whole ram flash src h4 hle (by omega) hj).symm
      · intro t ht
        exact ih n (by omega) (by omega) (by omega) (by omega) (fun _ => by omega) ht
    · rw [TimedWrite.writeAligned_of_lt ram s' w (by omega)]
      by_cases hz : n = 0
      · rw [if_pos hz]
        exact iff_of_true (h.readable _) (h.past (by omega) polls ops)
      · obtain rfl := hs (by omega)
        rw [if_neg hz]
        have htail : ∀ j < 4, Lib.Bytes.byteOf (WriteBuff.mergeTail ram
            (upTo flash (loaded ram src addr cnt flash) w) ⟨0, w, src + (w - addr), n, 0⟩).data j =
              loaded ram src addr cnt flash (w + j) :=
          mergeTail_upTo (fun p hp => loaded_of_ge ram flash src hp) (by omega) (by omega)
            fun j hj => loaded_tail ram flash src h4 hle (by omega) (by omega)
        rw [← h.flash] at htail
        have hword := writeWord_next polls ops base h
          ⟨h4, by omega, by omega⟩ htail (fun t => (some 0, t))
          fun t ht => iff_of_true (ht.readable _) (ht.past (by omega) polls ops)
        dsimp only at hword
        split at hword
        · rename_i hres
          rwa [← hres] at hword
        · exact hword

/-- For the waits that are followed for `polls` rounds. -/
theorem writeBuff_readable_iff (polls : Nat) (ops : Nat → Operation) (base : UInt32)
    (ram : WriteBuff.Memory) (src addr cnt : Nat) (flash : WriteBuff.Memory) :
    LeftReadable (TimedWrite.writeBuff polls ops base ram src addr cnt flash) ↔
      Safe (Accepted ram src addr cnt flash) polls ops 0 := by
  have hstart := upTo_start ram flash src addr cnt
  have hat : AtWord addr cnt flash (loaded ram src addr cnt flash) 0 (addr - addr % 4)
      ⟨flash, 0, [], true⟩ := by
    refine ⟨rfl, rfl, ?_, rfl, hstart.symm, Or.inl rfl⟩
    intro v hv hlt
    exact absurd hv.2.1 (Nat.not_le.mpr hlt)
  show LeftReadable (outcome (TimedWrite.writeFrom polls ops base ram src addr cnt _)) ↔ _
  rw [TimedWrite.writeFrom]
  dsimp only
  by_cases hl : addr % 4 = 0
  · rw [if_neg (not_not_intro hl)]
    exact writeAligned_readable_iff base (by omega) (by omega) (by omega) (fun _ => by omega) hat
  · obtain ⟨hd, hsrc, hcnt⟩ := mergeHead_loaded ram flash src cnt hl
    rw [if_pos hl]
    apply writeWord_next polls ops base hat ⟨by omega, by omega, by omega⟩ hd
    intro t ht
    exact writeAligned_readable_iff base (by omega) (by omega) (by omega) (fun _ => by omega) ht

/-- The first operation of the call that its wait does not see finished is in time. -/
theorem writeBuff_iff_inTime (ops : Nat → Operation) (base : UInt32) (ram : WriteBuff.Memory)
    (src addr cnt : Nat) (flash : WriteBuff.Memory) :
    (∀ polls, LeftReadable (TimedWrite.writeBuff polls ops base ram src addr cnt flash)) ↔
      ∀ k, Accepted ram src addr cnt flash k → (∀ j < k, Seen cfgFlashWriteTout (ops j)) →
        InTime cfgFlashWriteTout (ops k) := by
  simp only [writeBuff_readable_iff]
  constructor
  · intro h k ha hseen
    by_contra hin
    obtain ⟨n, hn⟩ := late_of_not_inTime hin
    obtain ⟨n', hn'⟩ := seen_completes hseen
    exact h (max n n') k (Nat.zero_le k) ha
      (fun j _ hj => hn' _ (Nat.le_max_right n n') j hj) (hn _ (Nat.le_max_left n n'))
  · intro h polls k _ ha hbefore
    exact (h k ha fun j hj => (hbefore j (Nat.zero_le j) hj).seen).not_late

/-- A call leaves the flash readable exactly if no wait is given up before the device has
finished: the wait of `flash_erase`, if it starts an erase, and those of `write_buff` for its
operations up to the first one that is not seen finished. -/
theorem readable_iff (info : FlashInfo) (sFirst sLast : Int) (op : Operation)
    (ops : Nat → Operation) (ram : WriteBuff.Memory) (src addr cnt : Nat)
    (flash : WriteBuff.Memory) :
    ((∀ polls, LeftReadable (flashErase polls op info sFirst sLast)) ↔
      (Starts info sFirst sLast → InTime cfgFlashEraseTout op)) ∧
    ((∀ polls, LeftReadable
        (TimedWrite.writeBuff polls ops (sectorStart info 0) ram src addr cnt flash)) ↔
      ∀ k, Accepted ram src addr cnt flash k → (∀ j < k, Seen cfgFlashWriteTout (ops j)) →
        InTime cfgFlashWriteTout (ops k)) :=
  ⟨erase_iff info sFirst sLast op, writeBuff_iff_inTime ops _ ram src addr cnt flash⟩

/-- Devices that never finish: both functions give up and leave the bank busy. -/
theorem given_up_busy :
    let info := { (flashGetSize (Tiling.answers 0x80000000 0x2249) 0x80000000
      ⟨0, 0, flashUnknown, [], []⟩).2 with protect := [] }
    let erase := flashErase 1 ⟨none, fun _ => 120001⟩ info 1 1
    let write := TimedWrite.writeBuff 1 (fun _ => ⟨none, fun _ => 1001⟩) 0x80000000
      (fun _ => 0) 0 0x80000000 4 (fun _ => 0xFF)
    (erase.result = some 1 ∧ ¬ LeftReadable erase) ∧
      write.result = some 1 ∧ ¬ LeftReadable write := by
  intro info erase write
  have herase : erase.result = some 1 ∧ erase.finished = false ∧
      erase.cycles.getLast? = some (.command 0x80004000 0x0030) := by decide +kernel
  have hwrite : write.result = some 1 ∧ write.finished = false ∧
      write.cycles.getLast? = some (.datum 0x80000000 0) := by decide +kernel
  obtain ⟨heres, hefin, helast⟩ := herase
  obtain ⟨hwres, hwfin, hwlast⟩ := hwrite
  have hreset : ∀ addr, Cycle.command 0x80004000 0x0030 ≠ resetBank addr := by
    intro addr h
    cases h
  have hreset' : ∀ addr, Cycle.datum 0x80000000 0 ≠ resetBank addr := by
    intro addr h
    cases h
  refine ⟨⟨heres, ?_⟩, hwres, ?_⟩
  · rw [leftReadable_iff_finished helast hreset, heres, hefin]
    exact fun h => Bool.false_ne_true (h (Option.some_ne_none 1))
  · rw [leftReadable_iff_finished hwlast hreset', hwres, hwfin]
    exact fun h => Bool.false_ne_true (h (Option.some_ne_none 1))

end Plak1a.Flash.ReadMode
