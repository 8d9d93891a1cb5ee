import Mathlib.Logic.Relation
import Plak1a.Flash.Sectors

/-!
# What the protection of a sector is worth

`flash_write` refuses a range that touches a protected sector, and an erase leaves such a sector
out. So the bytes of a sector stay as long as it is protected, whatever the commands are, unless
the end of a range that is written wraps around the address space.
-/

namespace Plak1a.Flash.Guarded

open Info Bank Erase EraseTrace WriteBuff Programmed Tiling Access Sectors

/-- The table of a bank that was identified: it divides the bank, and has a flag for each
sector. Behind the bank there are more addresses: `flash_write` does not see the last sector of
one that ends with them. -/
structure Ready (info : FlashInfo) : Prop where
  table : SectorTable (sectorStart info 0) info
  known : info.flashId ≠ flashUnknown
  flags : info.protect.length = info.sectorCount
  room : (sectorStart info 0).toNat + info.size.toNat < 2 ^ 32

variable {info : FlashInfo} {addr cnt first last : UInt32} {ram flash : Memory}
  {src i j sect a : Nat} {p : UInt8}

/-- The range does not wrap around the address space. -/
def Straight (addr cnt : UInt32) : Prop := cnt ≠ 0 ∧ addr.toNat + cnt.toNat ≤ 2 ^ 32

def InRange (addr cnt : UInt32) (a : Nat) : Prop := addr.toNat ≤ a ∧ a < addr.toNat + cnt.toNat

instance (addr cnt : UInt32) (a : Nat) : Decidable (InRange addr cnt a) :=
  inferInstanceAs (Decidable (_ ∧ _))

theorem Straight.pos (h : Straight addr cnt) : 0 < cnt.toNat := by
  rw [Nat.pos_iff_ne_zero]
  exact fun h0 => h.1 (UInt32.toNat_inj.mp h0)

theorem Straight.toNat_last (h : Straight addr cnt) :
    (addr + cnt - 1).toNat + 1 = addr.toNat + cnt.toNat := by
  have hpos := h.pos
  obtain ⟨_, hle⟩ := h
  rw [UInt32.toNat_sub, UInt32.toNat_add, show (1 : UInt32).toNat = 1 from rfl]
  omega

theorem hits_iff (h : Ready info) (hs : sect < info.sectorCount) :
    hits info addr last sect = true ↔
      (sectorStart info sect).toNat ≤ last.toNat ∧ addr.toNat ≤ (sectorEnd info sect).toNat ∧
        isProtected info sect = true := by
  have hend := toNat_sectorEnd h.table hs
  have hbank := toNat_bankEnd h.table
  have hroom := h.room
  rw [hits]
  simp only [Bool.decide_and, Bool.and_eq_true, decide_eq_true_eq, Bool.decide_eq_true]
  rw [UInt32.le_iff_toNat_le]
  refine and_congr_right fun _ => and_congr_left fun _ => ?_
  rw [sectorEnd] at hend ⊢
  rw [UInt32.lt_iff_toNat_lt]
  by_cases hlast : sect + 1 = info.sectorCount
  · rw [if_pos hlast] at hend ⊢
    rw [if_pos hlast, UInt32.toNat_add, Nat.mod_eq_of_lt hroom]
    omega
  · have hsect := sectorStart_le_end h.table hs
    rw [if_neg hlast] at hend ⊢
    rw [if_neg hlast]
    have hnext := lt_length h.table (show sect + 1 < info.sectorCount by omega)
    rw [Lib.Cuts.pieceEnd_of_lt _ hnext, ← toNat_sectorStart] at hend
    omega

/-- A range in the bank touches a protected sector if the test finds one. -/
theorem hits_any (h : Ready info) (hr : Straight addr cnt) :
    (List.range info.sectorCount).any (hits info addr (addr + cnt - 1)) = true ↔
      ∃ sect a, InRange addr cnt a ∧ InSector info sect a ∧ isProtected info sect = true := by
  have hlast := hr.toNat_last
  have hpos := hr.pos
  rw [List.any_eq_true]
  constructor
  · intro ⟨sect, hmem, hhit⟩
    have hs := List.mem_range.mp hmem
    obtain ⟨hstart, hend, hprot⟩ := (hits_iff h hs).mp hhit
    have hsector := UInt32.le_iff_toNat_le.mp (sectorStart_le_end h.table hs)
    -- The first byte of the range in the sector.
    refine ⟨sect, max addr.toNat (sectorStart info sect).toNat, ⟨?_, ?_⟩, ?_, hprot⟩
    · exact Nat.le_max_left _ _
    · omega
    · rw [inSector_iff h.table hs]
      omega
  · intro ⟨sect, a, ⟨hlo, hhi⟩, hin, hprot⟩
    have hs := lt_count h.table hin
    obtain ⟨hstart, hend⟩ := (inSector_iff h.table hs).mp hin
    exact ⟨sect, List.mem_range.mpr hs, (hits_iff h hs).mpr ⟨by omega, by omega, hprot⟩⟩

theorem bank_iff (h : Ready info) (hr : Straight addr cnt) :
    (!addr2info info addr || !addr2info info (addr + cnt - 1)) = false ↔
      ∀ a, InRange addr cnt a → InBank info a := by
  have hlast := hr.toNat_last
  have hpos := hr.pos
  rw [Bool.or_eq_false_iff, Bool.not_eq_false', Bool.not_eq_false', addr2info_iff h.table h.known,
    addr2info_iff h.table h.known]
  constructor
  · intro ⟨⟨hlo, _⟩, _, hhi⟩ a ⟨ha, ha'⟩
    exact ⟨by omega, by omega⟩
  · intro hall
    exact ⟨hall _ ⟨Nat.le_refl _, by omega⟩, hall _ ⟨by omega, by omega⟩⟩

/-- What a call does with a range that does not wrap around. -/
theorem flashWrite_eq (h : Ready info) (hr : Straight addr cnt) (ram : Memory) (src : Nat)
    (flash : Memory) :
    (¬(∀ a, InRange addr cnt a → InBank info a) ∧
      flashWrite info ram src addr cnt flash = (8, flash)) ∨
    (∃ sect a, InRange addr cnt a ∧ InSector info sect a ∧ isProtected info sect = true) ∧
      flashWrite info ram src addr cnt flash = (4, flash) ∨
    (∀ a, InRange addr cnt a → InBank info a) ∧
      (∀ sect a, InRange addr cnt a → InSector info sect a → isProtected info sect = false) ∧
      flashWrite info ram src addr cnt flash = writeBuff ram src addr.toNat cnt.toNat flash := by
  have hpos := hr.pos
  have hbank := bank_iff h hr
  have hhits := hits_any h hr
  rw [flashWrite, if_neg hr.1]
  by_cases hin : ∀ a, InRange addr cnt a → InBank info a
  · rw [if_neg (Bool.not_eq_true _ ▸ hbank.mpr hin)]
    by_cases hprot : ∃ sect a, InRange addr cnt a ∧ InSector info sect a ∧
        isProtected info sect = true
    · rw [if_pos (hhits.mpr hprot)]
      exact .inr (.inl ⟨hprot, rfl⟩)
    · rw [if_neg (hhits.not.mpr hprot)]
      refine .inr (.inr ⟨hin, fun sect a hr hs => ?_, ?_⟩)
      · rw [← Bool.not_eq_true]
        exact fun hp => hprot ⟨sect, a, hr, hs, hp⟩
      · obtain ⟨_, hlt⟩ := hin (addr.toNat + cnt.toNat - 1) ⟨by omega, by omega⟩
        have hroom := h.room
        have hlen : (sectorStart info 0 + info.size - addr).toNat =
            (sectorStart info 0).toNat + info.size.toNat - addr.toNat := by
          rw [UInt32.toNat_sub, UInt32.toNat_add]
          omega
        dsimp only
        by_cases hmore : sectorStart info 0 + info.size - addr > cnt
        · rw [if_pos hmore]
        · have hle := UInt32.le_iff_toNat_le.mp (UInt32.not_lt.mp hmore)
          rw [if_neg hmore, hlen, show (sectorStart info 0).toNat + info.size.toNat - addr.toNat =
            cnt.toNat by omega]
  · rw [if_pos (Bool.not_eq_false _ ▸ hbank.not.mpr hin)]
    exact .inl ⟨hin, rfl⟩

/-- Programming leaves what lies outside of the range. -/
theorem writeBuff_frame (ram flash : Memory) {addr cnt : Nat} (src : Nat)
    (ha : ¬(addr ≤ a ∧ a < addr + cnt)) : (writeBuff ram src addr cnt flash).2 a = flash a := by
  have hloaded : loaded ram src addr cnt flash a = flash a := by
    by_cases hlt : a < addr
    · exact loaded_of_lt ram flash src cnt hlt
    · exact loaded_of_ge ram flash src (by omega)
  obtain ⟨hrc, hdone, hblocked⟩ := writeBuff_programs ram src addr cnt flash
  rcases hrc with hrc | hrc
  · rw [hdone hrc, hloaded]
  · obtain ⟨w, _, _, hw⟩ := hblocked hrc
    rw [hw, upTo, hloaded, ite_self]

/-- Only unprotected bytes of the range are changed. -/
theorem flashWrite_changes (h : Ready info) (hr : cnt ≠ 0 → Straight addr cnt)
    (ha : (flashWrite info ram src addr cnt flash).2 a ≠ flash a) :
    InRange addr cnt a ∧ ∀ sect, InSector info sect a → isProtected info sect = false := by
  by_cases h0 : cnt = 0
  · rw [flashWrite, if_pos h0] at ha
    exact absurd rfl ha
  rcases flashWrite_eq h (hr h0) ram src flash with ⟨_, heq⟩ | ⟨_, heq⟩ | ⟨_, hfree, heq⟩
  · exact absurd (by rw [heq]) ha
  · exact absurd (by rw [heq]) ha
  · have hin : InRange addr cnt a := by
      by_contra hout
      exact ha (by rw [heq, writeBuff_frame ram flash src hout])
    exact ⟨hin, fun sect hs => hfree sect a hin hs⟩

/-- A range whose end wraps around to a sector before the first one is programmed to the end of
the bank, whatever is protected. -/
theorem flashWrite_wrapped (h : Ready info) (hcnt : cnt ≠ 0) (hi : InSector info i addr.toNat)
    (hj : InSector info j (addr + cnt - 1).toNat) (hij : j < i) (ram : Memory) (src : Nat)
    (flash : Memory) :
    flashWrite info ram src addr cnt flash = writeBuff ram src addr.toNat
      ((sectorStart info 0).toNat + info.size.toNat - addr.toNat) flash := by
  have his := lt_count h.table hi
  have hjs := lt_count h.table hj
  obtain ⟨hi₁, hi₂⟩ := (inSector_iff h.table his).mp hi
  obtain ⟨hj₁, hj₂⟩ := (inSector_iff h.table hjs).mp hj
  have hroom := h.room
  have hbank := toNat_bankEnd h.table
  have hend : ∀ k < info.sectorCount, (sectorEnd info k).toNat ≤ (bankEnd info).toNat :=
    fun k hk => UInt32.le_iff_toNat_le.mp (sectorEnd_le h.table hk)
  have hin : ∀ k < info.sectorCount, ∀ a, (sectorStart info k).toNat ≤ a →
      a ≤ (sectorEnd info k).toNat → InBank info a := by
    intro k hk a hlo hhi
    have := (sectorStart_lt h.table hk).1
    have := hend k hk
    exact ⟨by omega, by omega⟩
  have hfound : (!addr2info info addr || !addr2info info (addr + cnt - 1)) = false := by
    rw [Bool.or_eq_false_iff, Bool.not_eq_false', Bool.not_eq_false',
      addr2info_iff h.table h.known, addr2info_iff h.table h.known]
    exact ⟨hin i his _ hi₁ hi₂, hin j hjs _ hj₁ hj₂⟩
  have hmiss : ¬(List.range info.sectorCount).any (hits info addr (addr + cnt - 1)) = true := by
    rw [List.any_eq_true]
    intro ⟨k, hmem, hhit⟩
    have hk := List.mem_range.mp hmem
    obtain ⟨hstart, haddr, _⟩ := (hits_iff h hk).mp hhit
    have hle : k ≤ j := by
      by_contra hlt
      have hnext := sectorStart_mono h.table (show j + 1 ≤ k by omega) hk
      have := sectorStart_after h.table (show j + 1 < info.sectorCount by omega)
      rw [UInt32.le_iff_toNat_le] at hnext
      omega
    have hnext := sectorStart_mono h.table (show k + 1 ≤ i by omega) his
    have := sectorStart_after h.table (show k + 1 < info.sectorCount by omega)
    rw [UInt32.le_iff_toNat_le] at hnext
    omega
  obtain ⟨_, hlt⟩ := hin i his _ hi₁ hi₂
  have hlen : (sectorStart info 0 + info.size - addr).toNat =
      (sectorStart info 0).toNat + info.size.toNat - addr.toNat := by
    rw [UInt32.toNat_sub, UInt32.toNat_add]
    omega
  have hshort : ¬sectorStart info 0 + info.size - addr > cnt := by
    have hlast : (addr + cnt - 1).toNat < addr.toNat := by
      have hnext := sectorStart_mono h.table (show j + 1 ≤ i by omega) his
      have := sectorStart_after h.table (show j + 1 < info.sectorCount by omega)
      rw [UInt32.le_iff_toNat_le] at hnext
      omega
    have hpos : 0 < cnt.toNat := by
      rw [Nat.pos_iff_ne_zero]
      exact fun h0 => hcnt (UInt32.toNat_inj.mp h0)
    have := cnt.toNat_lt
    rw [UInt32.toNat_sub, UInt32.toNat_add, show (1 : UInt32).toNat = 1 from rfl] at hlast
    rw [gt_iff_lt, UInt32.lt_iff_toNat_lt, hlen]
    omega
  rw [flashWrite, if_neg hcnt, if_neg (Bool.not_eq_true _ ▸ hfound), if_neg hmiss]
  dsimp only
  rw [if_neg hshort, hlen]

theorem foldl_set_length (l : List UInt8) (is : List Nat) (p : UInt8) :
    (is.foldl (fun l i => l.set i p) l).length = l.length := by
  induction is generalizing l with
  | nil => rfl
  | cons i is ih => rw [List.foldl_cons, ih, List.length_set]

theorem foldl_set_getD (l : List UInt8) (is : List Nat) (p : UInt8) (hs : sect < l.length) :
    (is.foldl (fun l i => l.set i p) l).getD sect 0 = if sect ∈ is then p else l.getD sect 0 := by
  induction is generalizing l with
  | nil => rw [if_neg List.not_mem_nil, List.foldl_nil]
  | cons i is ih =>
    rw [List.foldl_cons, ih _ (by rw [List.length_set]; exact hs)]
    by_cases hmem : sect ∈ is
    · rw [if_pos hmem, if_pos (List.mem_cons_of_mem i hmem)]
    · rw [if_neg hmem]
      by_cases hi : sect = i
      · subst hi
        rw [if_pos List.mem_cons_self, List.getD_eq_getElem?_getD, List.getElem?_set_self hs]
        rfl
      · rw [if_neg (fun h => (List.mem_cons.mp h).elim hi hmem),
          List.getD_eq_getElem?_getD, List.getElem?_set_ne (Ne.symm hi),
          ← List.getD_eq_getElem?_getD]

theorem sectors_cast (i j : Nat) : sectors i j = List.range' i (j + 1 - i) := by
  rw [sectors, Int.toNat_natCast]
  congr 1
  omega

theorem flashSectProtect_selected (h : Ready info) (hs : Selected info first last i j) (p : UInt8) :
    flashSectProtect p info first last = (0, protectSectors p ⟨i, j⟩ info) := by
  have hij : (i : Int) ≤ j := Int.ofNat_le.mpr hs.1
  rw [flashSectProtect, flashFillSectRanges_selected h.table h.known hs]
  dsimp only
  rw [if_pos ⟨by omega, rfl⟩, if_neg h.known, if_pos ⟨Int.natCast_nonneg i, hij⟩]

theorem flashSectProtect_none (h : Ready info) (hnone : ∀ i j, ¬Selected info first last i j)
    (p : UInt8) : flashSectProtect p info first last = (1, info) := by
  obtain ⟨hgo, hrc⟩ := flashFillSectRanges_none h.table hnone
  rw [flashSectProtect, if_neg hgo]
  rcases hrc with hrc | hrc
  · rw [if_pos hrc]
  · rw [if_neg (by omega), hrc]

/-- The flags of the sectors that the addresses stand for are set, or none is. -/
theorem flashSectProtect_sets (h : Ready info) (first last : UInt32) (p : UInt8) :
    let r := flashSectProtect p info first last
    (r.1 = 0 ∧ ∃ i j, Selected info first last i j ∧ ∀ sect < info.sectorCount,
      r.2.protect.getD sect 0 =
        if i ≤ sect ∧ sect ≤ j then p else info.protect.getD sect 0) ∨
    r.1 = 1 ∧ (∀ i j, ¬Selected info first last i j) ∧ r.2 = info := by
  by_cases hs : ∃ i j, Selected info first last i j
  · obtain ⟨i, j, hs⟩ := hs
    rw [flashSectProtect_selected h hs]
    refine .inl ⟨rfl, i, j, hs, fun sect hsect => ?_⟩
    show ((sectors i j).foldl (fun l i => l.set i p) info.protect).getD sect 0 = _
    rw [foldl_set_getD _ _ _ (h.flags.symm ▸ hsect), sectors_cast]
    refine if_congr ?_ rfl rfl
    rw [List.mem_range'_1]
    have hij := hs.1
    omega
  · have hnone : ∀ i j, ¬Selected info first last i j := fun i j hij => hs ⟨i, j, hij⟩
    rw [flashSectProtect_none h hnone]
    exact .inr ⟨rfl, hnone, rfl⟩

/-- The table of sectors is the same. -/
theorem flashSectProtect_eq (h : Ready info) (first last : UInt32) (p : UInt8) :
    ∃ protect, (flashSectProtect p info first last).2 = { info with protect } ∧
      protect.length = info.protect.length := by
  by_cases hs : ∃ i j, Selected info first last i j
  · obtain ⟨i, j, hs⟩ := hs
    rw [flashSectProtect_selected h hs]
    exact ⟨_, rfl, foldl_set_length _ _ _⟩
  · rw [flashSectProtect_none h fun i j hij => hs ⟨i, j, hij⟩]
    exact ⟨info.protect, rfl, rfl⟩

theorem Ready.withFlags (h : Ready info) {protect : List UInt8}
    (hlength : protect.length = info.protect.length) : Ready { info with protect } where
  table := ⟨h.table.addresses, h.table.count, h.table.room, h.table.tiles, h.table.partition,
    h.table.nonempty, h.table.offsets⟩
  known := h.known
  flags := hlength.trans h.flags
  room := h.room

theorem flashSectErase_selected (h : Ready info) (hs : Selected info first last i j) (polls : Nat)
    (op : Operation) :
    flashSectErase polls op info first last = flashErase polls op info i j := by
  have hij : (i : Int) ≤ j := Int.ofNat_le.mpr hs.1
  rw [flashSectErase, flashFillSectRanges_selected h.table h.known hs]
  dsimp only
  rw [if_pos ⟨by omega, rfl⟩, if_pos (Int.natCast_nonneg i)]

theorem flashSectErase_none (h : Ready info) (hnone : ∀ i j, ¬Selected info first last i j)
    (polls : Nat) (op : Operation) :
    flashSectErase polls op info first last = ⟨[], some 1, true⟩ := by
  obtain ⟨hgo, hrc⟩ := flashFillSectRanges_none h.table hnone
  rw [flashSectErase, if_neg hgo]
  rcases hrc with hrc | hrc
  · rw [if_pos hrc]
  · rw [if_neg (by omega), hrc]

/-- An erase command goes to an unprotected sector that the addresses stand for. -/
theorem flashSectErase_cycles (h : Ready info) {polls : Nat} {op : Operation} {c : Cycle}
    {start : UInt32} (hc : c ∈ (flashSectErase polls op info first last).cycles)
    (ha : eraseAddr c = some start) :
    ∃ i j sect, Selected info first last i j ∧ i ≤ sect ∧ sect ≤ j ∧
      isProtected info sect = false ∧ sectorStart info sect = start := by
  by_cases hs : ∃ i j, Selected info first last i j
  · obtain ⟨i, j, hs⟩ := hs
    rw [flashSectErase_selected h hs] at hc
    obtain ⟨tail, hcycles, htail⟩ := flashErase_cycles info polls op hs.1 h.known
    rw [hcycles, List.mem_append] at hc
    rcases hc with hc | hc
    · obtain ⟨sect, hsect, hc⟩ := List.mem_flatMap.mp hc
      obtain ⟨hprot, hstart⟩ := mem_eraseSector hc ha
      rw [List.mem_range'_1] at hsect
      exact ⟨i, j, sect, hs, hsect.1, by omega, hprot, hstart⟩
    · exact absurd (isErase_of ha) (htail c hc)
  · rw [flashSectErase_none h fun i j hij => hs ⟨i, j, hij⟩] at hc
    exact absurd hc List.not_mem_nil

/-- The table and the bank. -/
structure State where
  info : FlashInfo
  flash : Memory

/-- The device changes only sectors that it was told to erase. -/
def Obeys (info : FlashInfo) (cycles : List Cycle) (flash flash' : Memory) : Prop :=
  ∀ a, flash' a ≠ flash a → ∃ sect, InSector info sect a ∧
    ∃ c ∈ cycles, eraseAddr c = some (sectorStart info sect)

/-- The commands, in any order. -/
inductive Step : State → State → Prop
  | write (s : State) (ram : Memory) (src : Nat) (addr cnt : UInt32)
      (h : cnt ≠ 0 → Straight addr cnt) :
      Step s ⟨s.info, (flashWrite s.info ram src addr cnt s.flash).2⟩
  | protect (s : State) (p : UInt8) (first last : UInt32) :
      Step s ⟨(flashSectProtect p s.info first last).2, s.flash⟩
  | erase (s : State) (polls : Nat) (op : Operation) (first last : UInt32) (flash : Memory)
      (h : Obeys s.info (flashSectErase polls op s.info first last).cycles s.flash flash) :
      Step s ⟨s.info, flash⟩

variable {s t : State}

/-- The table stays one, and its sectors are the same. -/
theorem Step.ready (hstep : Step s t) (h : Ready s.info) :
    Ready t.info ∧ (InSector s.info sect a ↔ InSector t.info sect a) := by
  cases hstep with
  | write => exact ⟨h, Iff.rfl⟩
  | protect p first last =>
    obtain ⟨protect, heq, hlength⟩ := flashSectProtect_eq h first last p
    rw [heq]
    exact ⟨h.withFlags hlength, Iff.rfl⟩
  | erase => exact ⟨h, Iff.rfl⟩

/-- A command leaves the bytes of a protected sector. -/
theorem Step.keeps (hstep : Step s t) (h : Ready s.info) (ha : InSector s.info sect a)
    (hprot : isProtected s.info sect = true) : t.flash a = s.flash a := by
  cases hstep with
  | write ram src addr cnt hr =>
    by_contra hne
    exact absurd (hprot.symm.trans ((flashWrite_changes h hr hne).2 sect ha)) Bool.true_eq_false.mp
  | protect => rfl
  | erase polls op first last flash hobeys =>
    by_contra hne
    obtain ⟨sect', ha', c, hc, haddr⟩ := hobeys a hne
    obtain ⟨i, j, k, hs, _, hk, hfree, hstart⟩ := flashSectErase_cycles h hc haddr
    have hk := sectorStart_inj h.table (Nat.lt_of_le_of_lt hk hs.2.1) (lt_count h.table ha') hstart
    rw [hk, ← inSector_unique h.table ha ha', hprot] at hfree
    cases hfree

/-- Through any run of commands the bytes of a sector stay while it is protected. -/
theorem protected_kept (h : Ready s.info) (ha : InSector s.info sect a)
    (hprot : isProtected s.info sect = true)
    (hrun : Relation.ReflTransGen (fun s t => Step s t ∧ isProtected t.info sect = true) s t) :
    t.flash a = s.flash a := by
  have hall : Ready t.info ∧ InSector t.info sect a ∧ isProtected t.info sect = true ∧
      t.flash a = s.flash a := by
    induction hrun with
    | refl => exact ⟨h, ha, hprot, rfl⟩
    | tail _ hlast ih =>
      obtain ⟨hready, hin, hp, hsame⟩ := ih
      obtain ⟨hstep, hp'⟩ := hlast
      obtain ⟨hready', hsect⟩ := hstep.ready hready
      exact ⟨hready', hsect.mp hin, hp', (hstep.keeps hready hin hp).trans hsame⟩
  exact hall.2.2.2

end Plak1a.Flash.Guarded
