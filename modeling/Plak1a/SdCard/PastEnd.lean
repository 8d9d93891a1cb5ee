import Mathlib.Data.Nat.Find
import Plak1a.SdCard.FatPlain
import Plak1a.SdCard.ReadFile

/-!
# Reading past the end of a file

`Load_FAT` takes 0xFFFF alone for the end of a chain, and leaves the index it was asked
for in `*Block` when it finds it. Any other end mark is followed like a cluster, as far
as the index says; an index of more than 16 bits is never reached.
-/

namespace Plak1a.SdCard.PastEnd

open Plak1a.Lib Plak1a.SdCard.Fat Plak1a.SdCard.FatWalk Plak1a.SdCard.FatVolume
open Plak1a.SdCard.ReadFile
open Plak1a.SdCard.Mmc (blockSize)

/-- What the last cluster of a chain has for its FAT entry. -/
def endMark (v : Volume) (c : UInt16) (cs : List UInt16) : UInt16 := v.next^[cs.length] c

/-- A data cluster outside the chain. -/
def Foreign (g : Parameters) (cs : List UInt16) (block : UInt32) : Prop :=
  ∃ x : UInt16, x.toUInt32 = block ∧ g.DataCluster x ∧ x ∉ cs

/-- A sector of a cluster that is in the chain of another file. -/
def OfOtherFile (v : Volume) (cs : List UInt16) (sector : UInt32) : Prop :=
  ∃ c' cs' x, v.Chain c' cs' ∧ x ∈ cs' ∧ x ∉ cs ∧
    ∃ blockCount, sector.toNat = v.layout.blockSector x blockCount

/-- After `Cluster_Data_Store`, `Load_FAT` returns and leaves no data cluster outside the chain
in `*Block`. -/
def LeavesNone (v : Volume) (c : UInt16) (cs : List UInt16) (block : UInt32) : Prop :=
  ∀ (stack buffer : Memory) (s : State), ∃ fuel r,
    loadFAT v.card fuel c block buffer (clusterDataStore v.card stack s) = some r ∧
      ¬ Foreign v.layout.toParameters cs r.1

/-- After `Cluster_Data_Store`, `Read_File` returns and has read no sector of another file. -/
def ReadsNone (v : Volume) (c : UInt16) (cs : List UInt16) (blockCount : UInt32) : Prop :=
  ∀ (stack buffer : Memory) (s : State), ∃ fuel r reads,
    readFile v.card fuel c buffer blockCount (clusterDataStore v.card stack s) = some r ∧
      r.2.reads = (clusterDataStore v.card stack s).reads ++ reads ∧
      ∀ sector ∈ reads, ¬ OfOtherFile v cs sector

/-- The end is detected for the cluster with this index, and for every block in it. -/
def DetectsEnd (v : Volume) (c : UInt16) (cs : List UInt16) (n : UInt32) : Prop :=
  LeavesNone v c cs n ∧
    ∀ blockCount, blockCount / v.layout.secPerClus.toUInt32 = n → ReadsNone v c cs blockCount

/-- The FAT has another content behind the end of the chain. -/
structure SameFile (v w : Volume) (c : UInt16) (cs : List UInt16) : Prop where
  layout : w.layout = v.layout
  chain : w.Chain c cs
  endMark : endMark w c cs = endMark v c cs

/-- The sector with the FAT entry of `x` has a 16-bit number. -/
def Reached (v : Volume) (x : UInt16) : Prop := entrySector v.layout.fatStart x < 2 ^ 16

/-- The index is the one behind the last cluster; or the mark is 0xFFFF and the index no data
cluster outside the chain; or there is no such cluster, and the counter can reach the index. -/
def Detectable (v : Volume) (c : UInt16) (cs : List UInt16) (n : UInt32) : Prop :=
  n.toNat = cs.length ∨
    (endMark v c cs = 0xFFFF ∧ ¬ Foreign v.layout.toParameters cs n) ∨
    (n.toNat < 2 ^ 16 ∧ ∀ x, v.layout.DataCluster x → x ∈ cs)

variable {v : Volume} {c : UInt16} {cs : List UInt16} {n block blockCount : UInt32}

theorem Reached.vbr_lt {x : UInt16} (h : Reached v x) : v.layout.vbr.toNat < 2 ^ 16 := by
  have hlt := vbr_lt_fatStart v.layout
  rw [Reached] at h
  exact Nat.lt_trans (Nat.lt_of_lt_of_le hlt (Nat.le_add_right _ _)) h

/-- No 16-bit number has its entry in a sector behind that of the end marks. -/
theorem Reached.of_endMark {x : UInt16} (h : Reached v x) (hx : EndMark x) (y : UInt16) :
    Reached v y := by
  have hy := y.toNat_lt
  rw [EndMark] at hx
  rw [Reached, entrySector, show blockSize = 512 from rfl] at h ⊢
  omega

/-- The sector `Read_File` asks for, where the driver fits. -/
def driverSector (g : Parameters) (block blockCount : UInt32) : UInt32 :=
  (block - 2) * g.secPerClus.toUInt32 + (UInt16.ofNat g.dataStart).toUInt32 +
    blockCount % g.secPerClus.toUInt32

theorem driverSector_toNat {g : Layout} (hdata : g.dataStart < 2 ^ 16) (h2 : 2 ≤ block.toNat) :
    (driverSector g.toParameters block blockCount).toNat =
      (g.dataStart + ((block.toNat - 2) * g.secPerClus.toNat +
        blockCount.toNat % g.secPerClus.toNat)) % 2 ^ 32 := by
  have hsub : (block - 2).toNat = block.toNat - 2 := by
    rw [UInt32.toNat_sub_of_le]
    · rfl
    · rw [UInt32.le_iff_toNat_le]
      exact h2
  rw [driverSector, UInt32.toNat_add, UInt32.toNat_add, UInt32.toNat_mul, UInt32.toNat_mod, hsub,
    UInt8.toNat_toUInt32, UInt16.toNat_toUInt32, UInt16.toNat_ofNat_of_lt' hdata]
  omega

/-- A place in the data area has one cluster. -/
theorem cluster_unique {q q' r r' size : Nat} (hr : r < size) (hr' : r' < size)
    (h : q * size + r = q' * size + r') : q = q' := by
  have hdiv {q r : Nat} (hr : r < size) : (q * size + r) / size = q := by
    rw [Nat.mul_comm, Nat.mul_add_div (Nat.zero_lt_of_lt hr), Nat.div_eq_of_lt hr, Nat.add_zero]
  rw [← hdiv (q := q) hr, h, hdiv hr']

/-- The sector of a block belongs to another file only if its cluster does. -/
theorem not_ofOtherFile (hf : DriverFits v.layout.toParameters) (h2 : 2 ≤ block.toNat)
    (hlt : (block.toNat - 2) * v.layout.secPerClus.toNat +
      blockCount.toNat % v.layout.secPerClus.toNat < 2 ^ 32)
    (hforeign : ¬ Foreign v.layout.toParameters cs block) :
    ¬ OfOtherFile v cs (driverSector v.layout.toParameters block blockCount) := by
  intro ⟨c', cs', x, hc, hx, hout, b, hb⟩
  have hcell : v.layout.DataCluster x := Linked.Chain.cell_of_mem hc hx
  have hpos := v.layout.spc_pos
  have hdata := hf.2
  rw [driverSector_toNat hf.2 h2, Parameters.blockSector, Nat.add_assoc] at hb
  have heq : (block.toNat - 2) * v.layout.secPerClus.toNat +
      blockCount.toNat % v.layout.secPerClus.toNat =
        (x.toNat - 2) * v.layout.secPerClus.toNat + b % v.layout.secPerClus.toNat := by
    omega
  have hq := cluster_unique (Nat.mod_lt _ hpos) (Nat.mod_lt _ hpos) heq
  refine hforeign ⟨x, ?_, hcell, hout⟩
  have hx2 := hcell.1
  rw [← UInt32.toNat_inj, UInt16.toNat_toUInt32]
  omega

/-- A FAT sector of a data cluster is in no file. -/
theorem fat_not_ofOtherFile {x : UInt16} {sector : UInt32} (hx : v.layout.DataCluster x)
    (h : sector.toNat = entrySector v.layout.fatStart x) : ¬ OfOtherFile v cs sector := by
  intro ⟨c', cs', y, _, _, _, b, hb⟩
  have hlt := entrySector_lt v.layout hx
  have hle := rootStart_le_blockSector v.layout.toParameters y b
  omega

/-- The walk to index `n` ends after `m` rounds. -/
structure WalkEnds (v : Volume) (c : UInt16) (n : UInt32) (m : Nat) : Prop where
  lt : m < 2 ^ 16
  le : m ≤ n.toNat
  stop : n.toNat = m ∨ v.next^[m] c = 0xFFFF
  before : ∀ k < m, v.next^[k] c ≠ 0xFFFF

/-- What it leaves in `*Block`. -/
def left (v : Volume) (c : UInt16) (n : UInt32) (m : Nat) : UInt32 :=
  if n.toNat = m then (v.next^[m] c).toUInt32 else n

theorem WalkEnds.loadFAT {m : Nat} (h : WalkEnds v c n m) (hv : v.layout.vbr.toNat < 2 ^ 16)
    (haddr : ∀ k < m, Reached v (v.next^[k] c)) (stack buffer : Memory) (s : State) :
    let t := clusterDataStore v.card stack s
    ∃ fuel buffer' rs, loadFAT v.card fuel c n buffer t =
        some (left v c n m, buffer', { t with reads := t.reads ++ rs }) ∧
      ∀ r ∈ rs, ∃ k < m, r.toNat = entrySector v.layout.fatStart (v.next^[k] c) := by
  intro t
  obtain ⟨_, hbase, _⟩ := stored stack s hv
  have hnext : v.next = entry v.card (fatBase t) := by
    rw [hbase]
    rfl
  have hpos : 0 < fatBase t := by
    rw [hbase]
    exact Nat.zero_lt_of_lt (vbr_lt_fatStart v.layout)
  obtain ⟨hlt, hle, hstop, hbefore⟩ := h
  simp only [Reached] at haddr
  rw [← hbase] at haddr ⊢
  rw [left]
  rw [hnext] at hstop haddr hbefore ⊢
  exact loadFAT_ends buffer hpos hlt hle hstop haddr hbefore

/-- For a 16-bit index `Load_FAT` returns, wherever it looks the entries up. -/
theorem loadFAT_returns (card : Card) (hlt : n.toNat < 2 ^ 16) (buffer : Memory) (s : State) :
    ∃ fuel block buffer' rs, loadFAT card fuel c n buffer s =
      some (block, buffer', { s with reads := s.reads ++ rs }) := by
  obtain ⟨w, hends⟩ := (FatPlain.returns_iff_ends card c n buffer s).mp
    ((FatPlain.loadFAT_returns_iff card c n buffer s).mpr (Or.inl hlt))
  have hinv : ∃ rs, w.state = { s with reads := s.reads ++ rs } := by
    refine (While.inv_of_ends (I := fun w => ∃ rs, w.state = { s with reads := s.reads ++ rs })
      ?_ hends ⟨[], by rw [List.append_nil]⟩).1
    intro w ⟨rs, hstate⟩ _
    rw [nextCluster_eq]
    dsimp only [served]
    split
    · exact ⟨rs ++ [_], by rw [mmcReadSector, hstate, List.append_assoc]⟩
    · exact ⟨rs, hstate⟩
  obtain ⟨fuel, hrun⟩ := hends
  obtain ⟨rs, hstate⟩ := hinv
  refine ⟨fuel, if w.a.toUInt32 = n then w.cluster.toUInt32 else n, w.buffer, rs, ?_⟩
  rw [loadFAT, hrun, Option.map_some, hstate]

theorem readFile_of_loadFAT {card : Card} {fuel : Nat} {buffer buffer' : Memory}
    {reads : List UInt32} {t : State} (hn : blockCount / t.clusterSize.toUInt32 = n)
    (h : loadFAT card fuel c n buffer t =
      some (block, buffer', { t with reads := t.reads ++ reads })) :
    ∃ r, readFile card fuel c buffer blockCount t = some r ∧
      r.2.reads = t.reads ++ (reads ++ [(block - 2) * t.clusterSize.toUInt32 +
        t.clusterOffset.toUInt32 + blockCount % t.clusterSize.toUInt32]) := by
  rw [readFile, hn, h, Option.map_some]
  exact ⟨_, rfl, List.append_assoc _ _ _⟩

theorem WalkEnds.leavesNone {m : Nat} (h : WalkEnds v c n m) (hv : v.layout.vbr.toNat < 2 ^ 16)
    (haddr : ∀ k < m, Reached v (v.next^[k] c))
    (hleft : ¬ Foreign v.layout.toParameters cs (left v c n m)) : LeavesNone v c cs n := by
  intro stack buffer s
  obtain ⟨fuel, buffer', rs, hload, _⟩ := h.loadFAT hv haddr stack buffer s
  exact ⟨fuel, _, hload, hleft⟩

/-- `Read_File` reads the FAT sectors of the walk and the sector of what it leaves. -/
theorem WalkEnds.readsNone {m : Nat} (h : WalkEnds v c n m) (hv : v.layout.vbr.toNat < 2 ^ 16)
    (haddr : ∀ k < m, Reached v (v.next^[k] c)) (hf : DriverFits v.layout.toParameters)
    (hn : blockCount / v.layout.secPerClus.toUInt32 = n)
    (hwalk : ∀ k < m, ∀ sector : UInt32,
      sector.toNat = entrySector v.layout.fatStart (v.next^[k] c) → ¬ OfOtherFile v cs sector)
    (hlast : ¬ OfOtherFile v cs
      (driverSector v.layout.toParameters (left v c n m) blockCount)) :
    ReadsNone v c cs blockCount := by
  intro stack buffer s
  obtain ⟨hsize, _, hoffset⟩ := stored_of_fits hf stack s
  obtain ⟨fuel, buffer', rs, hload, hrs⟩ := h.loadFAT hv haddr stack buffer s
  obtain ⟨r, hread, hreads⟩ := readFile_of_loadFAT (hsize ▸ hn) hload
  refine ⟨fuel, r, _, hread, hreads, ?_⟩
  intro sector hmem
  rcases List.mem_append.mp hmem with hmem | hmem
  · obtain ⟨k, hk, he⟩ := hrs sector hmem
    exact hwalk k hk sector he
  · rw [List.mem_singleton.mp hmem]
    rw [driverSector, ← hsize, ← hoffset, UInt16.ofNat_toNat] at hlast
    exact hlast

/-- The chain ends the walk at its length, if the index is no more or its mark is 0xFFFF. -/
theorem walkEnds_chain (h : v.Chain c cs) (hn : cs.length ≤ n.toNat)
    (hstop : n.toNat = cs.length ∨ endMark v c cs = 0xFFFF) : WalkEnds v c n cs.length := by
  refine ⟨chain_length_lt h, hn, hstop, fun k hk => ?_⟩
  exact cell_ne_ff (Linked.Chain.cell_of_mem h (Linked.Chain.iterate_mem h hk))

/-- The walk along a chain looks up entries of the chain only. -/
theorem chain_reached (h : v.Chain c cs) (hr : ∀ x ∈ cs, Reached v x) :
    v.layout.vbr.toNat < 2 ^ 16 ∧ ∀ k < cs.length, Reached v (v.next^[k] c) :=
  ⟨(hr c (List.mem_of_getElem? h.head?_eq)).vbr_lt, fun _ hk =>
    hr _ (Linked.Chain.iterate_mem h hk)⟩

/-- What the chain itself leaves at an index from its length on. -/
theorem left_chain (h : v.Chain c cs) :
    n.toNat = cs.length ∧ left v c n cs.length = (endMark v c cs).toUInt32 ∧
        EndMark (endMark v c cs) ∨
      n.toNat ≠ cs.length ∧ left v c n cs.length = n := by
  by_cases hL : n.toNat = cs.length
  · exact Or.inl ⟨hL, if_pos hL, Linked.Chain.mark h⟩
  · exact Or.inr ⟨hL, if_neg hL⟩

theorem left_not_foreign (h : v.Chain c cs) (hcond : n.toNat = cs.length ∨
    endMark v c cs = 0xFFFF ∧ ¬ Foreign v.layout.toParameters cs n) :
    ¬ Foreign v.layout.toParameters cs (left v c n cs.length) := by
  rcases left_chain h with ⟨_, hleft, hmark⟩ | ⟨hL, hleft⟩
  · intro ⟨x, hx, hcell, _⟩
    rw [hleft, ← UInt32.toNat_inj, UInt16.toNat_toUInt32, UInt16.toNat_toUInt32,
      UInt16.toNat_inj] at hx
    exact endMark_not_cell v.layout x (hx ▸ hmark) hcell
  · rw [hleft]
    exact (hcond.resolve_left hL).2

/-- The sector of what the chain leaves is computed without overflow. -/
theorem left_bounds (h : v.Chain c cs) (hn : cs.length ≤ n.toNat)
    (hblock : blockCount / v.layout.secPerClus.toUInt32 = n) :
    2 ≤ (left v c n cs.length).toNat ∧
      ((left v c n cs.length).toNat - 2) * v.layout.secPerClus.toNat +
        blockCount.toNat % v.layout.secPerClus.toNat < 2 ^ 32 := by
  have hspc := v.layout.secPerClus.toNat_lt
  have hmod := Nat.mod_lt blockCount.toNat v.layout.spc_pos
  rcases left_chain (n := n) h with ⟨_, hleft, hmark⟩ | ⟨hL, hleft⟩
  · have hlt := (endMark v c cs).toNat_lt
    have hmul : ((endMark v c cs).toNat - 2) * v.layout.secPerClus.toNat ≤ 2 ^ 16 * 2 ^ 8 :=
      Nat.mul_le_mul (by omega) (by omega)
    rw [EndMark] at hmark
    rw [hleft, UInt16.toNat_toUInt32]
    omega
  · have hpos : 0 < cs.length := List.length_pos_of_mem (List.mem_of_getElem? h.head?_eq)
    have hdiv : n.toNat = blockCount.toNat / v.layout.secPerClus.toNat := by
      rw [← hblock, UInt32.toNat_div, UInt8.toNat_toUInt32]
    have hsum := Nat.div_add_mod' blockCount.toNat v.layout.secPerClus.toNat
    have hmul : (n.toNat - 2) * v.layout.secPerClus.toNat ≤ n.toNat * v.layout.secPerClus.toNat :=
      Nat.mul_le_mul_right _ (Nat.sub_le _ _)
    have hlt := blockCount.toNat_lt
    rw [← hdiv] at hsum
    rw [hleft]
    omega

theorem leavesNone_of_detectable (h : v.Chain c cs) (hr : ∀ x ∈ cs, Reached v x)
    (hn : cs.length ≤ n.toNat) (hd : Detectable v c cs n) : LeavesNone v c cs n := by
  rcases or_assoc.mpr hd with hcond | ⟨hlt, hall⟩
  · obtain ⟨hv, haddr⟩ := chain_reached h hr
    have hwalk := walkEnds_chain h hn (hcond.imp_right And.left)
    exact hwalk.leavesNone hv haddr (left_not_foreign h hcond)
  · intro stack buffer s
    obtain ⟨fuel, block, buffer', rs, hload⟩ := loadFAT_returns v.card hlt buffer
      (clusterDataStore v.card stack s)
    refine ⟨fuel, _, hload, ?_⟩
    intro ⟨x, _, hcell, hout⟩
    exact hout (hall x hcell)

/-- Where the driver fits, it reaches the whole FAT. -/
theorem reached_of_fits (hf : DriverFits v.layout.toParameters) {x : UInt16}
    (hx : v.layout.DataCluster x) : Reached v x := by
  have hlt := entrySector_lt v.layout hx
  have hstart := dataStart_of_fits hf
  have hdata := hf.2
  rw [Reached]
  omega

theorem readsNone_of_detectable (h : v.Chain c cs) (hf : DriverFits v.layout.toParameters)
    (hn : cs.length ≤ n.toNat) (hd : Detectable v c cs n)
    (hblock : blockCount / v.layout.secPerClus.toUInt32 = n) : ReadsNone v c cs blockCount := by
  rcases or_assoc.mpr hd with hcond | ⟨hlt, hall⟩
  · obtain ⟨hv, haddr⟩ := chain_reached h fun x hx =>
      reached_of_fits hf (Linked.Chain.cell_of_mem h hx)
    have hwalk := walkEnds_chain h hn (hcond.imp_right And.left)
    apply hwalk.readsNone hv haddr hf hblock
    · intro k hk sector hsector
      have hcell := Linked.Chain.cell_of_mem h (Linked.Chain.iterate_mem h hk)
      exact fat_not_ofOtherFile hcell hsector
    · obtain ⟨h2, hlt⟩ := left_bounds h hn hblock
      exact not_ofOtherFile hf h2 hlt (left_not_foreign h hcond)
  · intro stack buffer s
    obtain ⟨hsize, _, _⟩ := stored_of_fits hf stack s
    obtain ⟨fuel, block, buffer', rs, hload⟩ := loadFAT_returns v.card hlt buffer
      (clusterDataStore v.card stack s)
    obtain ⟨r, hread, hreads⟩ := readFile_of_loadFAT (hsize ▸ hblock) hload
    refine ⟨fuel, r, _, hread, hreads, fun sector _ => ?_⟩
    intro ⟨c', cs', x, hc, hx, hout, _⟩
    exact hout (hall x (Linked.Chain.cell_of_mem hc hx))

theorem WalkEnds.not_foreign {m : Nat} (h : WalkEnds v c n m)
    (hv : v.layout.vbr.toNat < 2 ^ 16) (haddr : ∀ k < m, Reached v (v.next^[k] c))
    (hl : LeavesNone v c cs n) : ¬ Foreign v.layout.toParameters cs (left v c n m) := by
  obtain ⟨fuel, r, hr, hforeign⟩ := hl (fun _ => 0) (fun _ => 0) startUp
  obtain ⟨fuel', buffer', rs, hload, _⟩ := h.loadFAT hv haddr (fun _ => 0) (fun _ => 0) startUp
  obtain rfl := loadFAT_unique hr hload
  exact hforeign

theorem detectable_of_leavesNone (h : v.Chain c cs) (hr : ∀ x ∈ cs, Reached v x)
    (hn : cs.length ≤ n.toNat) (hm : endMark v c cs = 0xFFFF) (hl : LeavesNone v c cs n) :
    Detectable v c cs n := by
  obtain ⟨hv, haddr⟩ := chain_reached h hr
  have hforeign := (walkEnds_chain h hn (Or.inr hm)).not_foreign hv haddr hl
  rcases left_chain (n := n) h with ⟨hL, _⟩ | ⟨_, hleft⟩
  · exact Or.inl hL
  · exact Or.inr (Or.inl ⟨hm, hleft ▸ hforeign⟩)

/-- All FAT entries outside the chain lead to `y`. -/
def relinked (v : Volume) (cs : List UInt16) (y : UInt16) : Volume :=
  withFat v fun x => if x ∈ cs then v.next x else y

section Relinked

variable {y : UInt16}

theorem relinked_of_mem {x : UInt16} (hx : x ∈ cs) : (relinked v cs y).next x = v.next x := by
  rw [relinked, withFat_next]
  exact if_pos hx

theorem relinked_of_not_mem {x : UInt16} (hx : x ∉ cs) : (relinked v cs y).next x = y := by
  rw [relinked, withFat_next]
  exact if_neg hx

theorem sameFile_relinked (h : v.Chain c cs) (y : UInt16) :
    SameFile v (relinked v cs y) c cs := by
  constructor
  · rfl
  · exact Linked.Chain.congr h fun x hx => relinked_of_mem hx
  · exact Linked.Chain.iterate_congr h (fun x hx => relinked_of_mem hx) (Nat.le_refl _)

theorem endMark_not_mem (h : v.Chain c cs) : endMark v c cs ∉ cs := by
  intro hmem
  exact endMark_not_cell v.layout _ (Linked.Chain.mark h) (Linked.Chain.cell_of_mem h hmem)

/-- The walk goes from the end mark to `y` and stays there. -/
theorem relinked_iterate (h : v.Chain c cs) (hy : y ∉ cs) (k : Nat) :
    (relinked v cs y).next^[cs.length + 1 + k] c = y := by
  induction k with
  | zero =>
    have hmark : (relinked v cs y).next^[cs.length] c = endMark v c cs :=
      (sameFile_relinked h y).endMark
    rw [Nat.add_zero, Function.iterate_succ_apply', hmark]
    exact relinked_of_not_mem (endMark_not_mem h)
  | succ k ih =>
    rw [← Nat.add_assoc, Function.iterate_succ_apply', ih]
    exact relinked_of_not_mem hy

theorem relinked_ne_ff (h : v.Chain c cs) (hm : endMark v c cs ≠ 0xFFFF) (hy : y ∉ cs)
    (hff : y ≠ 0xFFFF) (k : Nat) : (relinked v cs y).next^[k] c ≠ 0xFFFF := by
  have hsame := sameFile_relinked h y
  rcases Nat.lt_trichotomy k cs.length with hlt | rfl | hgt
  · exact cell_ne_ff (Linked.Chain.cell_of_mem hsame.chain (hsame.chain.iterate_mem hlt))
  · exact fun heq => hm (hsame.endMark.symm.trans heq)
  · obtain ⟨j, rfl⟩ := Nat.exists_eq_add_of_lt hgt
    rw [show cs.length + j + 1 = cs.length + 1 + j from by omega, relinked_iterate h hy]
    exact hff

end Relinked

/-- With another mark than 0xFFFF and the FAT leading back to the mark, an index of more than
16 bits is searched for ever. -/
theorem index_lt_of_leavesNone (h : v.Chain c cs) (hr : ∀ x, Reached v x)
    (hm : endMark v c cs ≠ 0xFFFF) (hl : LeavesNone (relinked v cs (endMark v c cs)) c cs n) :
    n.toNat < 2 ^ 16 := by
  by_contra hge
  let w := relinked v cs (endMark v c cs)
  obtain ⟨fuel, r, hload, _⟩ := hl (fun _ => 0) (fun _ => 0) startUp
  obtain ⟨_, hbase, _⟩ := stored (v := w) (fun _ => 0) startUp (hr 0).vbr_lt
  have hpos : 0 < fatBase (clusterDataStore w.card (fun _ => 0) startUp) := by
    rw [hbase]
    exact Nat.zero_lt_of_lt (vbr_lt_fatStart w.layout)
  have hnone : loadFAT w.card fuel c n (fun _ => 0)
      (clusterDataStore w.card (fun _ => 0) startUp) = none := by
    apply loadFAT_none _ hpos (Nat.le_of_not_lt hge)
    · intro k
      rw [hbase]
      exact hr _
    · intro k
      rw [hbase]
      exact relinked_ne_ff h hm (endMark_not_mem h) hm k
  cases hnone.symm.trans hload

/-- With the FAT leading to a data cluster outside the chain, that is what a 16-bit index
leaves. -/
theorem mem_of_leavesNone (h : v.Chain c cs) (hr : ∀ x, Reached v x)
    (hm : endMark v c cs ≠ 0xFFFF) (hgt : cs.length < n.toNat) (hlt : n.toNat < 2 ^ 16)
    {x : UInt16} (hx : v.layout.DataCluster x) (hl : LeavesNone (relinked v cs x) c cs n) :
    x ∈ cs := by
  by_contra hout
  have hwalk : WalkEnds (relinked v cs x) c n n.toNat :=
    ⟨hlt, Nat.le_refl _, Or.inl rfl, fun k _ => relinked_ne_ff h hm hout (cell_ne_ff hx) k⟩
  refine hwalk.not_foreign (hr 0).vbr_lt (fun _ _ => hr _) hl ⟨x, ?_, hx, hout⟩
  obtain ⟨k, hk⟩ := Nat.exists_eq_add_of_lt hgt
  have hiter := relinked_iterate h hout k
  rw [show cs.length + 1 + k = n.toNat from by omega] at hiter
  rw [left, if_pos rfl, hiter]

theorem detectable_of_all (h : v.Chain c cs) (hr : ∀ x ∈ cs, Reached v x)
    (hn : cs.length ≤ n.toNat)
    (hmark : cs.length < n.toNat → endMark v c cs ≠ 0xFFFF → Reached v (endMark v c cs))
    (hall : ∀ w, SameFile v w c cs → LeavesNone w c cs n) : Detectable v c cs n := by
  by_cases hm : endMark v c cs = 0xFFFF
  · exact detectable_of_leavesNone h hr hn hm (hall v ⟨rfl, h, rfl⟩)
  · rcases Nat.eq_or_lt_of_le hn with heq | hgt
    · exact Or.inl heq.symm
    · have hall' := (hmark hgt hm).of_endMark (Linked.Chain.mark h)
      have hlt := index_lt_of_leavesNone h hall' hm (hall _ (sameFile_relinked h _))
      refine Or.inr (Or.inr ⟨hlt, fun x hx => ?_⟩)
      exact mem_of_leavesNone h hall' hm hgt hlt hx (hall _ (sameFile_relinked h x))

theorem SameFile.detectable {w : Volume} (h : SameFile v w c cs) (hd : Detectable v c cs n) :
    Detectable w c cs n := by
  rw [Detectable, h.layout, h.endMark]
  exact hd

/-- The layout, the chain, its mark and the index decide whether the end is detected, by
`Load_FAT` and, where the driver fits the volume, by `Read_File`. With the mark 0xFFFF this is
so for every FAT whose sectors with the entries of the chain can be asked for. With any other
mark it is so as long as nothing is known of the rest of the FAT, if the sector that is asked
for where the mark is taken for a cluster has its own number. -/
theorem detectsEnd_iff (h : v.Chain c cs) (hr : ∀ x ∈ cs, Reached v x)
    (hn : cs.length ≤ n.toNat) :
    (Detectable v c cs n → LeavesNone v c cs n ∧
      (DriverFits v.layout.toParameters → DetectsEnd v c cs n)) ∧
    (endMark v c cs = 0xFFFF → (LeavesNone v c cs n ↔ Detectable v c cs n) ∧
      (DriverFits v.layout.toParameters → (DetectsEnd v c cs n ↔ Detectable v c cs n))) ∧
    ((cs.length < n.toNat → endMark v c cs ≠ 0xFFFF → Reached v (endMark v c cs)) →
      ((∀ w, SameFile v w c cs → LeavesNone w c cs n) ↔ Detectable v c cs n) ∧
      (DriverFits v.layout.toParameters →
        ((∀ w, SameFile v w c cs → DetectsEnd w c cs n) ↔ Detectable v c cs n))) := by
  have hleaves {w : Volume} (hw : SameFile v w c cs) (hd : Detectable v c cs n) :
      LeavesNone w c cs n := by
    refine leavesNone_of_detectable hw.chain (fun x hx => ?_) hn (hw.detectable hd)
    rw [Reached, hw.layout]
    exact hr x hx
  have hdetects (hf : DriverFits v.layout.toParameters) {w : Volume} (hw : SameFile v w c cs)
      (hd : Detectable v c cs n) : DetectsEnd w c cs n :=
    ⟨hleaves hw hd, fun _ hblock =>
      readsNone_of_detectable hw.chain (hw.layout ▸ hf) hn (hw.detectable hd) hblock⟩
  have hself : SameFile v v c cs := ⟨rfl, h, rfl⟩
  refine ⟨fun hd => ⟨hleaves hself hd, fun hf => hdetects hf hself hd⟩,
    fun hm => ⟨?_, fun hf => ?_⟩, fun hmark => ⟨?_, fun hf => ?_⟩⟩
  · constructor
    · exact detectable_of_leavesNone h hr hn hm
    · exact hleaves hself
  · constructor
    · exact fun hd => detectable_of_leavesNone h hr hn hm hd.1
    · exact hdetects hf hself
  · constructor
    · exact detectable_of_all h hr hn hmark
    · exact fun hd w hw => hleaves hw hd
  · constructor
    · exact fun hall => detectable_of_all h hr hn hmark fun w hw => (hall w hw).1
    · exact fun hd w hw => hdetects hf hw hd

/-- A partition at sector 63 with 512 root entries and clusters of one sector. -/
def fullSizeRoot : Layout where
  toParameters := { smallRoot.toParameters with rootEntCnt := 512 }
  rsvd_pos := by decide
  numFATs_pos := by decide
  root_dvd := by decide
  spc_pos := by decide
  clusters_ge := by decide
  clusters_lt := by decide
  fat_holds := by decide
  fits := by decide

/-- Index 2 is behind the end of the file in cluster 2, but that cluster is its own. -/
theorem second_detected : DetectsEnd (oneFileVolume fullSizeRoot) 2 [2] 2 := by
  have hmark : endMark (oneFileVolume fullSizeRoot) 2 [2] = 0xFFFF := by decide +kernel
  have hiff := detectsEnd_iff (n := 2) (oneFileVolume_chain fullSizeRoot)
    (by
      intro x hx
      obtain rfl := List.mem_singleton.mp hx
      exact (by decide : entrySector fullSizeRoot.fatStart 2 < 2 ^ 16)) (by decide)
  apply ((hiff.2.1 hmark).2 ⟨rfl, by decide⟩).mpr
  refine Or.inr (Or.inl ⟨hmark, ?_⟩)
  intro ⟨x, hx, _, hout⟩
  rw [← UInt32.toNat_inj, UInt16.toNat_toUInt32] at hx
  exact hout (List.mem_singleton.mpr (UInt16.toNat_inj.mp hx))

/-- Two files of one cluster each. -/
def twoFiles : Volume :=
  withFat (oneFileVolume fullSizeRoot) fun x => if x = 2 ∨ x = 3 then 0xFFFF else 0

theorem twoFiles_chain {x : UInt16} (hx : x = 2 ∨ x = 3) : twoFiles.Chain x [x] := by
  have hcell : fullSizeRoot.DataCluster x := by
    rcases hx with rfl | rfl
    · exact ⟨by decide, by decide⟩
    · exact ⟨by decide, by decide⟩
  apply Linked.Chain.last hcell
  rw [twoFiles, withFat_next, if_pos hx]
  exact (by decide : 0xFFF8 ≤ (0xFFFF : UInt16).toNat)

/-- Index 3 of the file in cluster 2 is left as it is, which is the cluster of the other file,
and its sector is read. -/
theorem third_left :
    twoFiles.Chain 2 [2] ∧ twoFiles.Chain 3 [3] ∧
      (loadFAT twoFiles.card 2 2 3 (fun _ => 0)
        (clusterDataStore twoFiles.card (fun _ => 0) startUp)).map Prod.fst = some 3 ∧
      lastSector twoFiles.card 2 2 (fun _ => 0) 3
        (clusterDataStore twoFiles.card (fun _ => 0) startUp) = some 129 ∧
      fullSizeRoot.blockSector 3 3 = 129 ∧ ¬ DetectsEnd twoFiles 2 [2] 3 := by
  have hload : (loadFAT twoFiles.card 2 2 3 (fun _ => 0)
      (clusterDataStore twoFiles.card (fun _ => 0) startUp)).map Prod.fst = some 3 := by
    decide +kernel
  have hread : lastSector twoFiles.card 2 2 (fun _ => 0) 3
      (clusterDataStore twoFiles.card (fun _ => 0) startUp) = some 129 := by
    decide +kernel
  have hchain := twoFiles_chain (Or.inl rfl)
  have hmark : endMark twoFiles 2 [2] = 0xFFFF := by decide +kernel
  have hr : Reached twoFiles 2 :=
    (by decide : entrySector fullSizeRoot.fatStart 2 < 2 ^ 16)
  obtain ⟨hv, haddr⟩ := chain_reached hchain fun x hx => List.mem_singleton.mp hx ▸ hr
  refine ⟨hchain, twoFiles_chain (Or.inr rfl), hload, hread, by decide, fun hd => ?_⟩
  have hwalk := walkEnds_chain (n := 3) hchain (by decide) (Or.inr hmark)
  refine hwalk.not_foreign hv haddr hd.1 ⟨3, rfl, ?_, by decide⟩
  exact (twoFiles_chain (Or.inr rfl)).cell

end Plak1a.SdCard.PastEnd
