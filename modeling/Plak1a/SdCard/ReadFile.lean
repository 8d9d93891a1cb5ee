import Plak1a.SdCard.FatVolume

/-!
# The sector of a file's block

`Read_File` asks for the right sector when the data area begins where the driver puts
it. `Cluster_Data_Store` takes `BPB_BytesPerSec` entries for the size of the root
directory, which is right for 512 entries only, and keeps 16 bits of every sector
number and of the partition's start.
-/

namespace Plak1a.SdCard.ReadFile

open Plak1a.Lib Plak1a.SdCard.Fat Plak1a.SdCard.FatWalk Plak1a.SdCard.FatVolume
open Plak1a.SdCard.Mmc (blockSize)

/-- The last sector a call of `Read_File` asks for. -/
def lastSector (card : Card) (fuel : Nat) (c : UInt16) (buffer : Memory) (blockCount : UInt32)
    (s : State) : Option UInt32 :=
  (readFile card fuel c buffer blockCount s).bind fun r => r.2.reads.getLast?

/-- After `Cluster_Data_Store`, whose local buffer starts with the bytes of `stack`, the
last sector asked for is the one the layout gives, for every block of the file. -/
def ReadsFile (v : Volume) (c : UInt16) (cs : List UInt16) : Prop :=
  ∀ (s : State) (stack buffer : Memory) (blockCount : UInt32) (cluster : UInt16),
    cs[blockCount.toNat / v.layout.secPerClus.toNat]? = some cluster →
      ∃ fuel sector, lastSector v.card fuel c buffer blockCount
          (clusterDataStore v.card stack s) = some sector ∧
        sector.toNat = v.layout.blockSector cluster blockCount.toNat

/-- The root directory has 512 entries and the data area begins below sector 2^16. -/
def DriverFits (g : Parameters) : Prop := g.rootEntCnt.toNat = 512 ∧ g.dataStart < 2 ^ 16

variable {card : Card} {s : State} {v : Volume} {c : UInt16} {cs : List UInt16}

theorem mmcReadSector_word (card : Card) (addr : UInt32) (buffer : Memory) (s : State) {p : Nat}
    (hp : p + 1 < blockSize) :
    word (mmcReadSector card addr buffer s).1 p = word (card addr.toNat) p :=
  word_congr (fun _ hi => mmcReadSector_buffer card addr buffer s hi) hp

theorem mmcReadSector_state (card : Card) (addr : UInt32) (buffer : Memory) (s : State) :
    (mmcReadSector card addr buffer s).2 = { s with reads := s.reads ++ [addr] } := rfl

/-- The globals in terms of the master boot record and the sector it points to. -/
theorem clusterDataStore_spec (card : Card) (buffer : Memory) (s : State) :
    let vbr := word (card 0) vbrAddr
    let bootp := card vbr.toNat
    ∃ reads, clusterDataStore card buffer s =
      { clusterSize := bpbSecPerClus bootp
        fatOffset := bpbRsvdSecCnt bootp
        clusterOffset := UInt16.ofNat ((bpbBytesPerSec bootp).toNat * 32 / blockSize) +
          (UInt16.ofNat ((bpbRsvdSecCnt bootp).toNat +
            (bpbNumFATs bootp).toNat * (bpbFATSz16 bootp).toNat) + vbr)
        volumeBootRecordAddr := vbr
        reads := reads } := by
  intro vbr bootp
  have hvbr : word (mmcReadSector card masterBootRecord buffer s).1 vbrAddr = vbr :=
    mmcReadSector_word card _ buffer s (by decide)
  have hword (b : Memory) (s : State) {p : Nat} (hp : p + 1 < blockSize) :
      word (mmcReadSector card vbr.toUInt32 b s).1 p = word bootp p := by
    rw [mmcReadSector_word card _ b s hp, UInt16.toNat_toUInt32]
  have hbyte (b : Memory) (s : State) {p : Nat} (hp : p < blockSize) :
      (mmcReadSector card vbr.toUInt32 b s).1 p = bootp p := by
    rw [mmcReadSector_buffer card _ b s hp, UInt16.toNat_toUInt32]
  refine ⟨(clusterDataStore card buffer s).reads, ?_⟩
  simp (disch := decide) only [clusterDataStore, fatAddr, rootDirAddr, mmcReadSector_state, hvbr,
    bpbSecPerClus, bpbRsvdSecCnt, bpbBytesPerSec, bpbNumFATs, bpbFATSz16, hword, hbyte]

/-- With the partition below sector 2^16 the driver knows the FAT and the cluster size;
the data area it puts 32 sectors behind the start of the root directory. -/
theorem stored (stack : Memory) (s : State) (hv : v.layout.vbr.toNat < 2 ^ 16) :
    let t := clusterDataStore v.card stack s
    t.clusterSize = v.layout.secPerClus ∧ fatBase t = v.layout.fatStart ∧
      t.clusterOffset.toNat = (v.layout.rootStart + 32) % 2 ^ 16 := by
  intro t
  obtain ⟨reads, ht⟩ := clusterDataStore_spec v.card stack s
  have hp := v.partition
  have hvbr : (word (v.card 0) vbrAddr).toNat = v.layout.vbr.toNat := by omega
  rw [hvbr, v.secPerClus, v.rsvdSecCnt, v.bytesPerSec, v.numFATs, v.fatSz16,
    Nat.mul_div_cancel_left 32 (by decide)] at ht
  constructor
  · show t.clusterSize = _
    rw [show t = _ from ht]
  constructor
  · show fatBase t = _
    rw [show t = _ from ht, fatBase, hvbr]
    rfl
  · rw [show t = _ from ht]
    simp only [UInt16.toNat_add, UInt16.toNat_ofNat', hvbr, Parameters.rootStart,
      Parameters.fatStart]
    omega

theorem dataStart_of_fits (hf : DriverFits v.layout.toParameters) :
    v.layout.dataStart = v.layout.rootStart + 32 := by
  rw [Parameters.dataStart, hf.1]
  rfl

/-- Where the driver fits, it knows the start of the data area too. -/
theorem stored_of_fits (hf : DriverFits v.layout.toParameters) (stack : Memory) (s : State) :
    let t := clusterDataStore v.card stack s
    t.clusterSize = v.layout.secPerClus ∧ fatBase t = v.layout.fatStart ∧
      t.clusterOffset.toNat = v.layout.dataStart := by
  have hstart := dataStart_of_fits hf
  have hdata := hf.2
  have hvbr := vbr_lt_rootStart v.layout
  have hv : v.layout.vbr.toNat < 2 ^ 16 := by omega
  obtain ⟨hsize, hbase, hoffset⟩ := stored stack s hv
  exact ⟨hsize, hbase, by omega⟩

theorem lastSector_of_loadFAT {fuel : Nat} {buffer buffer' : Memory} {blockCount block : UInt32}
    {reads : List UInt32}
    (h : loadFAT card fuel c (blockCount / s.clusterSize.toUInt32) buffer s =
      some (block, buffer', { s with reads := reads })) :
    lastSector card fuel c buffer blockCount s =
      some ((block - 2) * s.clusterSize.toUInt32 + s.clusterOffset.toUInt32 +
        blockCount % s.clusterSize.toUInt32) := by
  rw [lastSector, readFile, h]
  exact List.getLast?_concat

/-- The first block of a file needs no FAT entry. -/
theorem lastSector_first {fuel : Nat} {buffer : Memory} {sector : UInt32}
    (h : lastSector card fuel c buffer 0 s = some sector) :
    sector = (c.toUInt32 - 2) * s.clusterSize.toUInt32 + s.clusterOffset.toUInt32 +
      0 % s.clusterSize.toUInt32 := by
  have hz : 0 / s.clusterSize.toUInt32 = 0 := by
    rw [← UInt32.toNat_inj, UInt32.toNat_div]
    exact Nat.zero_div _
  cases fuel with
  | zero => cases h
  | succ fuel =>
    have hload : loadFAT card (fuel + 1) c (0 / s.clusterSize.toUInt32) buffer s =
        some (c.toUInt32, buffer, { s with reads := s.reads }) := by
      rw [loadFAT, hz, While.run_stop fuel (by rfl), Option.map_some, if_pos (by rfl)]
    exact Option.some.inj (h.symm.trans (lastSector_of_loadFAT hload))

/-- The 32-bit arithmetic of `Read_File` does not wrap. -/
theorem sector_toNat {cluster offset : UInt16} {size : UInt8} (blockCount : UInt32)
    (h : 2 ≤ cluster.toNat) (hs : 1 ≤ size.toNat) :
    ((cluster.toUInt32 - 2) * size.toUInt32 + offset.toUInt32 +
        blockCount % size.toUInt32).toNat =
      (cluster.toNat - 2) * size.toNat + offset.toNat + blockCount.toNat % size.toNat := by
  have hc := cluster.toNat_lt
  have ho := offset.toNat_lt
  have hz := size.toNat_lt
  have hmod := Nat.mod_lt blockCount.toNat hs
  have hmul : (cluster.toNat - 2) * size.toNat ≤ 2 ^ 16 * 2 ^ 8 :=
    Nat.mul_le_mul (by omega) (by omega)
  have hsub : (cluster.toUInt32 - 2).toNat = cluster.toNat - 2 := by
    rw [UInt32.toNat_sub_of_le]
    · rfl
    · rw [UInt32.le_iff_toNat_le]
      exact h
  rw [UInt32.toNat_add, UInt32.toNat_add, UInt32.toNat_mul, UInt32.toNat_mod, hsub,
    UInt8.toNat_toUInt32, UInt16.toNat_toUInt32]
  omega

theorem cell_ne_ff {g : Layout} {x : UInt16} (h : g.DataCluster x) : x ≠ 0xFFFF := by
  intro he
  have hlt := g.clusters_lt
  have hx := h.2
  rw [he, show (0xFFFF : UInt16).toNat = 65535 from rfl] at hx
  omega

/-- Where the driver fits, every block of every file is found. -/
theorem readsFile_of_fits (hf : DriverFits v.layout.toParameters) (hc : v.Chain c cs) :
    ReadsFile v c cs := by
  intro s stack buffer blockCount cluster hcl
  have hstart := dataStart_of_fits hf
  have hdata := hf.2
  obtain ⟨hsize, hbase, hoffset⟩ := stored_of_fits hf stack s
  generalize clusterDataStore v.card stack s = t at hsize hbase hoffset ⊢
  obtain ⟨hiter, hcell⟩ := Linked.Chain.getElem?_eq hc hcl
  have hlen := (List.getElem?_eq_some_iff.mp hcl).1
  have hmax := chain_length_lt hc
  have hnext : v.next = entry v.card (fatBase t) := by rw [hbase]; rfl
  rw [hnext] at hiter hcell
  have hblock : (blockCount / t.clusterSize.toUInt32).toNat =
      blockCount.toNat / v.layout.secPerClus.toNat := by
    rw [UInt32.toNat_div, hsize]
    rfl
  have hpos : 0 < fatBase t := by
    rw [hbase]
    exact Nat.add_pos_right _ v.layout.rsvd_pos
  have haddr : ∀ k < blockCount.toNat / v.layout.secPerClus.toNat,
      entrySector (fatBase t) ((entry v.card (fatBase t))^[k] c) < 2 ^ 16 := by
    intro k hk
    have hlt := entrySector_lt v.layout (hcell k (Nat.le_of_lt hk))
    rw [hbase] at hlt ⊢
    omega
  obtain ⟨fuel, buffer', rs, hload, _⟩ := loadFAT_eq buffer hpos (by omega) hblock haddr
    fun k hk => cell_ne_ff (hcell k (Nat.le_of_lt hk))
  refine ⟨fuel, _, lastSector_of_loadFAT hload, ?_⟩
  rw [hiter, sector_toNat blockCount _ _, hsize, hoffset, Parameters.blockSector]
  · omega
  · exact hiter ▸ (hcell _ (Nat.le_refl _)).1
  · exact hsize ▸ v.layout.spc_pos

/-- Where the first block of a file is found, the driver knows the start of the data area. -/
theorem clusterOffset_of_reads (h : ReadsFile v c cs) (hc : v.Chain c cs) {stack : Memory}
    (hs : (clusterDataStore v.card stack s).clusterSize = v.layout.secPerClus) :
    (clusterDataStore v.card stack s).clusterOffset.toNat = v.layout.dataStart := by
  obtain ⟨fuel, sector, hsec, heq⟩ := h s stack stack 0 c (by
    rw [show (0 : UInt32).toNat = 0 from rfl, Nat.zero_div]
    exact hc.head?_eq)
  rw [lastSector_first hsec, sector_toNat 0 hc.cell.1 (hs ▸ v.layout.spc_pos), hs,
    Parameters.blockSector] at heq
  omega

theorem readsFile_iff_fits (hv : v.layout.vbr.toNat < 2 ^ 16) (hc : v.Chain c cs) :
    ReadsFile v c cs ↔ DriverFits v.layout.toParameters := by
  constructor
  · intro h
    obtain ⟨hsize, _, hoffset⟩ := stored (fun _ => 0) startUp hv
    have hdata := clusterOffset_of_reads h hc hsize
    have hdvd := v.layout.root_dvd
    have hroot := v.layout.rootEntCnt.toNat_lt
    rw [hoffset, Parameters.dataStart, show blockSize = 512 from rfl] at hdata
    rw [DriverFits, Parameters.dataStart, show blockSize = 512 from rfl]
    omega
  · exact fun hf => readsFile_of_fits hf hc

/-- With the partition further out the driver takes another sector for the boot record,
and a 16-bit number for the start of the data area. -/
theorem oneFile_not_read {g : Layout} (hv : 2 ^ 16 ≤ g.vbr.toNat) :
    ¬ ReadsFile (oneFileVolume g) 2 [2] := by
  intro h
  obtain ⟨reads, ht⟩ :=
    clusterDataStore_spec (oneFileVolume g).card (fun _ => 0) startUp
  have hlt : (word ((oneFileVolume g).card 0) vbrAddr).toNat < g.fatStart :=
    Nat.lt_of_lt_of_le (UInt16.toNat_lt _) (Nat.le_trans hv (Nat.le_add_right _ _))
  have hsize : (clusterDataStore (oneFileVolume g).card (fun _ => 0)
      startUp).clusterSize = g.secPerClus := by
    rw [ht]
    show oneFileCard g.toParameters _ 13 = _
    rw [oneFileCard_boot _ hlt]
    rfl
  have hdata := clusterOffset_of_reads h (oneFileVolume_chain g) hsize
  have hoffset := (clusterDataStore (oneFileVolume g).card (fun _ => 0)
    startUp).clusterOffset.toNat_lt
  have hle : g.rootStart ≤ g.dataStart := Nat.le_add_right _ _
  have hvbr := vbr_lt_rootStart g
  change (clusterDataStore (oneFileVolume g).card (fun _ => 0) startUp).clusterOffset.toNat =
    g.dataStart at hdata
  omega

/-- The files of all volumes with given parameters are read at the right sectors exactly
if the driver fits them; below sector 2^16 this is so for every single file. -/
theorem readsFile_iff (g : Layout) :
    ((∀ v : Volume, v.layout = g → ∀ c cs, v.Chain c cs → ReadsFile v c cs) ↔
      DriverFits g.toParameters) ∧
    (g.vbr.toNat < 2 ^ 16 → ∀ v : Volume, v.layout = g → ∀ c cs, v.Chain c cs →
      (ReadsFile v c cs ↔ DriverFits g.toParameters)) := by
  constructor
  · constructor
    · intro h
      have hone := h (oneFileVolume g) rfl 2 [2] (oneFileVolume_chain g)
      rcases Nat.lt_or_ge g.vbr.toNat (2 ^ 16) with hv | hv
      · exact (readsFile_iff_fits (v := oneFileVolume g) hv (oneFileVolume_chain g)).mp hone
      · exact absurd hone (oneFile_not_read hv)
    · rintro hf v rfl c cs hc
      exact readsFile_of_fits hf hc
  · rintro hv v rfl c cs hc
    exact readsFile_iff_fits hv hc

/-- A partition at sector 63 with 256 root entries and clusters of one sector. -/
def smallRoot : Layout where
  vbr := 63
  rsvdSecCnt := 1
  numFATs := 2
  fatSz16 := 16
  rootEntCnt := 256
  secPerClus := 1
  clusters := 4085
  rsvd_pos := by decide
  numFATs_pos := by decide
  root_dvd := by decide
  spc_pos := by decide
  clusters_ge := by decide
  clusters_lt := by decide
  fat_holds := by decide
  fits := by decide

/-- The file in cluster 2 begins at sector 112; the driver asks for sector 128. -/
theorem smallRoot_not_read :
    (oneFileVolume smallRoot).Chain 2 [2] ∧
      lastSector (oneFileVolume smallRoot).card 1 2 (fun _ => 0) 0
        (clusterDataStore (oneFileVolume smallRoot).card (fun _ => 0) startUp) =
          some 128 ∧
      smallRoot.blockSector 2 0 = 112 ∧ ¬ ReadsFile (oneFileVolume smallRoot) 2 [2] := by
  have hrun : lastSector (oneFileVolume smallRoot).card 1 2 (fun _ => 0) 0
      (clusterDataStore (oneFileVolume smallRoot).card (fun _ => 0) startUp) =
        some 128 := by
    decide +kernel
  refine ⟨oneFileVolume_chain smallRoot, hrun, by decide, ?_⟩
  rw [readsFile_iff_fits (by decide) (oneFileVolume_chain smallRoot)]
  exact fun hf => absurd hf.1 (by decide)

end Plak1a.SdCard.ReadFile
