import Plak1a.Flash.Access

/-!
# The sectors of the bank

With a table that divides the range of the device, the comparisons of addresses that the
functions make pick the sectors they mean.
-/

namespace Plak1a.Flash.Sectors

open Info Bank Erase Tiling Access Lib.Cuts

/-- The address lies in the sector. -/
def InSector (info : FlashInfo) (sect a : Nat) : Prop :=
  InPiece (info.start.map UInt32.toNat) ((sectorStart info 0).toNat + info.size.toNat) sect a

/-- The address lies in the bank. -/
def InBank (info : FlashInfo) (a : Nat) : Prop :=
  (sectorStart info 0).toNat ≤ a ∧ a < (sectorStart info 0).toNat + info.size.toNat

variable {base addr first last : UInt32} {info : FlashInfo} {i j sect a : Nat}

theorem starts_eq (h : SectorTable base info) : sectorStart info 0 = base := by
  have hstarts := h.tiles.starts
  rw [List.head?_map] at hstarts
  obtain ⟨c, hc, hbase⟩ := Option.map_eq_some_iff.mp hstarts
  rw [sectorStart, List.getD_eq_getElem?_getD, ← List.head?_eq_getElem?, hc]
  exact UInt32.toNat_inj.mp hbase

theorem lt_length (h : SectorTable base info) (hi : i < info.sectorCount) :
    i < (info.start.map UInt32.toNat).length := by
  rw [List.length_map, h.count]
  exact hi

theorem toNat_sectorStart (hi : i < (info.start.map UInt32.toNat).length) :
    (sectorStart info i).toNat = (info.start.map UInt32.toNat)[i] := by
  rw [List.length_map] at hi
  rw [List.getElem_map, sectorStart, List.getD_eq_getElem _ _ hi]

theorem tiles (h : SectorTable base info) : Tiles (info.start.map UInt32.toNat)
    (sectorStart info 0).toNat ((sectorStart info 0).toNat + info.size.toNat) := by
  rw [starts_eq h]
  exact h.tiles

theorem addresses (h : SectorTable base info) :
    (sectorStart info 0).toNat + info.size.toNat ≤ 2 ^ 32 := by
  rw [starts_eq h]
  exact h.addresses

theorem count_pos (h : SectorTable base info) : 0 < info.sectorCount := by
  rw [← h.count, List.length_pos_iff]
  intro hnil
  have hstarts := h.tiles.starts
  rw [hnil] at hstarts
  cases hstarts

/-- A sector begins and ends in the bank. -/
theorem sectorStart_lt (h : SectorTable base info) (hi : i < info.sectorCount) :
    InBank info (sectorStart info i).toNat := by
  rw [toNat_sectorStart (lt_length h hi)]
  exact ⟨(tiles h).le (List.getElem_mem _), (tiles h).below _ (List.getElem_mem _)⟩

theorem size_pos (h : SectorTable base info) : 0 < info.size.toNat := by
  have hbank := sectorStart_lt h (count_pos h)
  obtain ⟨_, hlt⟩ := hbank
  omega

theorem toNat_bankEnd (h : SectorTable base info) :
    (bankEnd info).toNat + 1 = (sectorStart info 0).toNat + info.size.toNat := by
  have haddr := addresses h
  have hsize := size_pos h
  rw [bankEnd, UInt32.toNat_sub, UInt32.toNat_add, show (1 : UInt32).toNat = 1 from rfl]
  omega

/-- The end of a sector is the address before the next one. -/
theorem toNat_sectorEnd (h : SectorTable base info) (hi : i < info.sectorCount) :
    (sectorEnd info i).toNat + 1 = pieceEnd (info.start.map UInt32.toNat)
      ((sectorStart info 0).toNat + info.size.toNat) i := by
  rw [sectorEnd]
  by_cases hlast : i + 1 = info.sectorCount
  · rw [if_pos hlast, toNat_bankEnd h, pieceEnd, List.getD_eq_default]
    rw [List.length_map, h.count]
    exact Nat.le_of_eq hlast.symm
  · have hnext : i + 1 < info.sectorCount := by omega
    have hlt := List.pairwise_iff_getElem.mp (tiles h).increasing i (i + 1) (lt_length h hi)
      (lt_length h hnext) (Nat.lt_succ_self i)
    rw [← toNat_sectorStart (lt_length h hnext)] at hlt
    rw [if_neg hlast, pieceEnd_of_lt _ (lt_length h hnext), ← toNat_sectorStart (lt_length h hnext),
      UInt32.toNat_sub, show (1 : UInt32).toNat = 1 from rfl]
    have := (sectorStart info (i + 1)).toNat_lt
    omega

theorem inSector_iff (h : SectorTable base info) (hi : i < info.sectorCount) :
    InSector info i a ↔ (sectorStart info i).toNat ≤ a ∧ a ≤ (sectorEnd info i).toNat := by
  have hend := toNat_sectorEnd h hi
  have hstart := toNat_sectorStart (lt_length h hi)
  constructor
  · intro ⟨_, hle, hlt⟩
    omega
  · intro ⟨hle, hge⟩
    exact ⟨lt_length h hi, by omega, by omega⟩

theorem lt_count (h : SectorTable base info) (ha : InSector info i a) : i < info.sectorCount := by
  obtain ⟨hi, _⟩ := ha
  rw [List.length_map, h.count] at hi
  exact hi

theorem inSector_unique (h : SectorTable base info) (hi : InSector info i a)
    (hj : InSector info j a) : i = j :=
  Nat.le_antisymm ((tiles h).le_of_inPiece hj hi) ((tiles h).le_of_inPiece hi hj)

theorem addr2info_iff (h : SectorTable base info) (hid : info.flashId ≠ flashUnknown) :
    addr2info info addr = true ↔ InBank info addr.toNat := by
  have hend := toNat_bankEnd h
  rw [addr2info, decide_eq_true_iff, UInt32.le_iff_toNat_le, UInt32.le_iff_toNat_le, InBank]
  constructor
  · intro ⟨_, hle, hge⟩
    omega
  · intro ⟨hle, hlt⟩
    exact ⟨hid, hle, by omega⟩

/-- The addresses stand for the sectors from `i` to `j`; an end behind the bank stands for its
last sector. -/
def Selected (info : FlashInfo) (first last : UInt32) (i j : Nat) : Prop :=
  i ≤ j ∧ j < info.sectorCount ∧ first = sectorStart info i ∧
    (last = sectorEnd info j ∨ j + 1 = info.sectorCount ∧ bankEnd info < last)

/-- What the loop knows after `n` sectors. -/
structure Filled (info : FlashInfo) (first last : UInt32) (n : Nat) (s : Selection) : Prop where
  first : (s.sFirst = -1 ∧ ∀ i < n, first ≠ sectorStart info i) ∨
    ∃ i < n, s.sFirst = i ∧ first = sectorStart info i
  last : (s.sLast = -1 ∧ ∀ i < n, last ≠ sectorEnd info i) ∨
    ∃ i < n, s.sLast = i ∧ last = sectorEnd info i

theorem sectorStart_le_end (h : SectorTable base info) (hi : i < info.sectorCount) :
    sectorStart info i ≤ sectorEnd info i := by
  have hself := (tiles h).inPiece_self (lt_length h hi)
  rw [← toNat_sectorStart] at hself
  exact UInt32.le_iff_toNat_le.mpr ((inSector_iff h hi).mp hself).2

/-- With the addresses in order, the two tests of the loop leave out no boundary. -/
theorem fillSector_eq (h : SectorTable base info) (hi : i < info.sectorCount)
    (hle : first ≤ last) (s : Selection) :
    fillSector info first last s i =
      { sFirst := if first = sectorStart info i then i else s.sFirst
        sLast := if last = sectorEnd info i then i else s.sLast } := by
  have hsector := UInt32.le_iff_toNat_le.mp (sectorStart_le_end h hi)
  rw [UInt32.le_iff_toNat_le] at hle
  rw [fillSector]
  by_cases hbehind : first > sectorEnd info i
  · have hlt := UInt32.lt_iff_toNat_lt.mp hbehind
    rw [if_pos hbehind, if_neg (fun heq => by rw [heq] at hlt; omega),
      if_neg (fun heq => by rw [heq] at hle; omega)]
  · rw [if_neg hbehind]
    by_cases hbefore : last < sectorStart info i
    · have hlt := UInt32.lt_iff_toNat_lt.mp hbefore
      rw [if_pos hbefore, if_neg (fun heq => by rw [heq] at hle; omega),
        if_neg (fun heq => by rw [heq] at hlt; omega)]
    · rw [if_neg hbefore]

theorem filled (h : SectorTable base info) (hle : first ≤ last) {n : Nat}
    (hn : n ≤ info.sectorCount) :
    Filled info first last n
      ((List.range n).foldl (fillSector info first last) ⟨-1, -1⟩) := by
  induction n with
  | zero => exact ⟨.inl ⟨rfl, fun _ hi => nomatch hi⟩, .inl ⟨rfl, fun _ hi => nomatch hi⟩⟩
  | succ n ih =>
    obtain ⟨hfirst, hlast⟩ := ih (Nat.le_of_succ_le hn)
    rw [List.range_succ, List.foldl_append, List.foldl_cons, List.foldl_nil,
      fillSector_eq h hn hle]
    generalize (List.range n).foldl (fillSector info first last) ⟨-1, -1⟩ = s at hfirst hlast ⊢
    constructor
    · by_cases heq : first = sectorStart info n
      · exact .inr ⟨n, Nat.lt_succ_self n, if_pos heq, heq⟩
      · dsimp only
        rw [if_neg heq]
        refine hfirst.imp (fun ⟨hs, hne⟩ => ⟨hs, fun i hi => ?_⟩)
          fun ⟨i, hi, hs⟩ => ⟨i, Nat.lt_succ_of_lt hi, hs⟩
        rcases Nat.lt_succ_iff_lt_or_eq.mp hi with hi | rfl
        · exact hne i hi
        · exact heq
    · by_cases heq : last = sectorEnd info n
      · exact .inr ⟨n, Nat.lt_succ_self n, if_pos heq, heq⟩
      · dsimp only
        rw [if_neg heq]
        refine hlast.imp (fun ⟨hs, hne⟩ => ⟨hs, fun i hi => ?_⟩)
          fun ⟨i, hi, hs⟩ => ⟨i, Nat.lt_succ_of_lt hi, hs⟩
        rcases Nat.lt_succ_iff_lt_or_eq.mp hi with hi | rfl
        · exact hne i hi
        · exact heq

theorem sectorStart_inj (h : SectorTable base info) (hi : i < info.sectorCount)
    (hj : j < info.sectorCount) (heq : sectorStart info i = sectorStart info j) : i = j := by
  have hself := UInt32.le_iff_toNat_le.mp (sectorStart_le_end h hi)
  have hself' := UInt32.le_iff_toNat_le.mp (sectorStart_le_end h hj)
  apply inSector_unique h ((inSector_iff h hi).mpr ⟨Nat.le_refl _, hself⟩)
  rw [heq]
  exact (inSector_iff h hj).mpr ⟨Nat.le_refl _, hself'⟩

theorem sectorEnd_inj (h : SectorTable base info) (hi : i < info.sectorCount)
    (hj : j < info.sectorCount) (heq : sectorEnd info i = sectorEnd info j) : i = j := by
  have hself := UInt32.le_iff_toNat_le.mp (sectorStart_le_end h hi)
  have hself' := UInt32.le_iff_toNat_le.mp (sectorStart_le_end h hj)
  apply inSector_unique h ((inSector_iff h hi).mpr ⟨hself, Nat.le_refl _⟩)
  rw [heq]
  exact (inSector_iff h hj).mpr ⟨hself', Nat.le_refl _⟩

/-- The sectors come one behind the other. -/
theorem sectorStart_mono (h : SectorTable base info) (hij : i ≤ j) (hj : j < info.sectorCount) :
    sectorStart info i ≤ sectorStart info j := by
  rcases Nat.eq_or_lt_of_le hij with rfl | hlt
  · exact UInt32.le_refl _
  · have hi := Nat.lt_trans hlt hj
    rw [UInt32.le_iff_toNat_le, toNat_sectorStart (lt_length h hi),
      toNat_sectorStart (lt_length h hj)]
    exact Nat.le_of_lt (List.pairwise_iff_getElem.mp (tiles h).increasing i j _ _ hlt)

/-- The next sector begins behind the end of one. -/
theorem sectorStart_after (h : SectorTable base info) (hi : i + 1 < info.sectorCount) :
    (sectorStart info (i + 1)).toNat = (sectorEnd info i).toNat + 1 := by
  have hnext := lt_length h hi
  rw [toNat_sectorEnd h (Nat.lt_of_succ_lt hi), pieceEnd_of_lt _ hnext, toNat_sectorStart hnext]

theorem sectorEnd_le (h : SectorTable base info) (hi : i < info.sectorCount) :
    sectorEnd info i ≤ bankEnd info := by
  have hend := toNat_bankEnd h
  have hsector := toNat_sectorEnd h hi
  have hle := (tiles h).pieceEnd_le i
  rw [UInt32.le_iff_toNat_le]
  omega

theorem Selected.le (h : SectorTable base info) (hs : Selected info first last i j) :
    first ≤ last := by
  obtain ⟨hij, hj, rfl, hlast⟩ := hs
  have hstart := sectorStart_mono h hij hj
  have hsector := sectorStart_le_end h hj
  rcases hlast with rfl | ⟨_, hlast⟩
  · exact UInt32.le_trans hstart hsector
  · exact UInt32.le_trans hstart (UInt32.le_trans hsector
      (UInt32.le_trans (sectorEnd_le h hj) (UInt32.le_of_lt hlast)))

/-- The ranges are those of the sectors that the addresses stand for. -/
theorem flashFillSectRanges_selected (h : SectorTable base info)
    (hid : info.flashId ≠ flashUnknown) (hs : Selected info first last i j) :
    flashFillSectRanges info first last = ⟨0, ⟨i, j⟩, j - i + 1⟩ := by
  have hle := hs.le h
  obtain ⟨hij, hj, hfirst, hlast⟩ := hs
  obtain ⟨hf, hl⟩ := filled h hle (Nat.le_refl _)
  have hsFirst : ((List.range info.sectorCount).foldl (fillSector info first last)
      ⟨-1, -1⟩).sFirst = i := by
    rcases hf with ⟨_, hne⟩ | ⟨k, hk, hs, heq⟩
    · exact absurd hfirst (hne i (by omega))
    · rw [hs, sectorStart_inj h hk (by omega) (heq.symm.trans hfirst)]
  rw [flashFillSectRanges, if_neg (not_or.mpr ⟨UInt32.not_lt.mpr hle, hid⟩)]
  generalize (List.range info.sectorCount).foldl (fillSector info first last) ⟨-1, -1⟩ = s
    at hl hsFirst ⊢
  dsimp only
  rw [if_pos (by omega)]
  rcases hlast with hlast | ⟨hcount, hbehind⟩
  · have hsLast : s.sLast = j := by
      rcases hl with ⟨_, hne⟩ | ⟨k, hk, hs, heq⟩
      · exact absurd hlast (hne j hj)
      · rw [hs, sectorEnd_inj h hk hj (heq.symm.trans hlast)]
    rw [if_neg (by omega), if_neg (show ¬s.sLast < 0 by omega), if_neg (by omega), hsFirst, hsLast]
    exact congrArg (Ranges.mk 0 · _) (congrArg₂ Selection.mk hsFirst hsLast)
  · have hsLast : s.sLast = -1 := by
      rcases hl with ⟨hs, _⟩ | ⟨k, hk, hs, heq⟩
      · exact hs
      · exact absurd (UInt32.lt_of_lt_of_le hbehind (heq ▸ sectorEnd_le h hk))
          (UInt32.lt_irrefl _)
    rw [if_neg (fun hgo => hgo.2 hbehind), if_pos (show s.sLast < 0 by omega)]
    dsimp only
    rw [if_neg (by omega), hsFirst, ← hcount]
    congr 2 <;> omega

/-- Other addresses are refused. -/
theorem flashFillSectRanges_none (h : SectorTable base info)
    (hnone : ∀ i j, ¬Selected info first last i j) :
    let r := flashFillSectRanges info first last
    ¬(r.count ≠ 0 ∧ r.rcode = 0) ∧ (r.rcode = 0 ∨ r.rcode = 1) := by
  rw [flashFillSectRanges]
  by_cases hearly : last < first ∨ info.flashId = flashUnknown
  · rw [if_pos hearly]
    exact ⟨fun h => h.1 rfl, .inl rfl⟩
  rw [if_neg hearly]
  have hle := UInt32.not_lt.mp (not_or.mp hearly).1
  obtain ⟨hf, hl⟩ := filled h hle (Nat.le_refl _)
  generalize (List.range info.sectorCount).foldl (fillSector info first last) ⟨-1, -1⟩ = s
    at hf hl ⊢
  have hrefused : ∀ s, let r : Ranges := ⟨1, s, 0⟩
      ¬(r.count ≠ 0 ∧ r.rcode = 0) ∧ (r.rcode = 0 ∨ r.rcode = 1) :=
    fun _ => ⟨fun h => absurd h.2 Nat.one_ne_zero, .inr rfl⟩
  dsimp only
  by_cases hpos : 0 ≤ s.sFirst
  · rw [if_pos hpos]
    obtain ⟨i, hi, hsi, hfirst⟩ := hf.resolve_left fun hf => by omega
    by_cases hinside : s.sLast < 0 ∧ ¬last > bankEnd info
    · rw [if_pos hinside]
      exact hrefused s
    rw [if_neg hinside]
    by_cases hend : s.sLast < 0
    · have hbehind : bankEnd info < last := by
        by_contra hle
        exact hinside ⟨hend, hle⟩
      exact absurd ⟨by omega, by omega, hfirst, .inr ⟨by omega, hbehind⟩⟩
        (hnone i (info.sectorCount - 1))
    · rw [if_neg hend]
      obtain ⟨j, hj, hsj, hlast⟩ := hl.resolve_left fun hl => by omega
      by_cases horder : s.sLast < s.sFirst
      · rw [if_pos horder]
        exact hrefused s
      · exact absurd ⟨by omega, hj, hfirst, .inl hlast⟩ (hnone i j)
  · rw [if_neg hpos]
    split
    · exact hrefused s
    · split
      · exact hrefused s
      · exact ⟨fun h => h.1 rfl, .inl rfl⟩

end Plak1a.Flash.Sectors
