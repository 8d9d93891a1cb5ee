import Plak1a.Lib.Linked
import Plak1a.SdCard.FatWalk

/-!
# FAT16 volumes

What the FAT16 format says about a volume with 512-byte sectors: the order of its
areas behind the boot record, the boot record fields, and the cluster chains of its
files. The driver appears here only through the little-endian reading of a field.
-/

namespace Plak1a.SdCard.FatVolume

open Plak1a.Lib Plak1a.SdCard.Fat Plak1a.SdCard.FatWalk
open Plak1a.SdCard.Mmc (blockSize)

/-- Where a volume lies and how it is divided. -/
structure Parameters where
  /-- the sector of the boot record -/
  vbr : UInt32
  rsvdSecCnt : UInt16
  numFATs : UInt8
  fatSz16 : UInt16
  rootEntCnt : UInt16
  secPerClus : UInt8
  /-- the number of data clusters -/
  clusters : Nat

namespace Parameters

variable (g : Parameters)

def fatStart : Nat := g.vbr.toNat + g.rsvdSecCnt.toNat

def rootStart : Nat := g.fatStart + g.numFATs.toNat * g.fatSz16.toNat

def dataStart : Nat := g.rootStart + g.rootEntCnt.toNat * 32 / blockSize

def DataCluster (x : UInt16) : Prop := 2 ≤ x.toNat ∧ x.toNat < g.clusters + 2

/-- The sector of a block in a cluster. -/
def blockSector (cluster : UInt16) (blockCount : Nat) : Nat :=
  g.dataStart + (cluster.toNat - 2) * g.secPerClus.toNat + blockCount % g.secPerClus.toNat

end Parameters

/-- The end-of-chain marks. -/
def EndMark (x : UInt16) : Prop := 0xFFF8 ≤ x.toNat

/-- The parameters of a FAT16 volume. -/
structure Layout extends Parameters where
  rsvd_pos : 1 ≤ rsvdSecCnt.toNat
  numFATs_pos : 1 ≤ numFATs.toNat
  root_dvd : 16 ∣ rootEntCnt.toNat
  spc_pos : 1 ≤ secPerClus.toNat
  clusters_ge : 4085 ≤ clusters
  clusters_lt : clusters < 65525
  fat_holds : clusters + 2 ≤ 256 * fatSz16.toNat
  fits : toParameters.dataStart + clusters * secPerClus.toNat ≤ 2 ^ 32

/-- A card with a FAT16 volume. -/
structure Volume where
  layout : Layout
  card : Card
  partition : (word (card 0) vbrAddr).toNat + 65536 * (word (card 0) (vbrAddr + 2)).toNat =
    layout.vbr.toNat
  bytesPerSec : (bpbBytesPerSec (card layout.vbr.toNat)).toNat = blockSize
  secPerClus : bpbSecPerClus (card layout.vbr.toNat) = layout.secPerClus
  rsvdSecCnt : bpbRsvdSecCnt (card layout.vbr.toNat) = layout.rsvdSecCnt
  numFATs : bpbNumFATs (card layout.vbr.toNat) = layout.numFATs
  rootEntCnt : bpbRootEntCnt (card layout.vbr.toNat) = layout.rootEntCnt
  fatSz16 : bpbFATSz16 (card layout.vbr.toNat) = layout.fatSz16

/-- The FAT entry of a cluster. -/
def Volume.next (v : Volume) : UInt16 → UInt16 := entry v.card v.layout.fatStart

/-- `cs` is the cluster chain of a file that starts at `c`. -/
def Volume.Chain (v : Volume) : UInt16 → List UInt16 → Prop :=
  Linked.Chain v.next v.layout.DataCluster EndMark

theorem endMark_not_cell (g : Layout) (x : UInt16) (h : EndMark x) : ¬ g.DataCluster x := by
  intro hx
  have hlt := g.clusters_lt
  have hcl := hx.2
  rw [EndMark] at h
  omega

/-- The 16-bit counter of the driver can count the clusters of a chain: cluster 0 is in none. -/
theorem chain_length_lt {v : Volume} {c : UInt16} {cs : List UInt16} (h : v.Chain c cs) :
    cs.length < 2 ^ 16 := by
  have h0 : 0 ∉ cs := by
    intro hmem
    exact absurd (Linked.Chain.cell_of_mem h hmem).1 (by decide)
  have hnodup := List.nodup_cons.mpr ⟨h0, Linked.Chain.nodup (endMark_not_cell v.layout) h⟩
  have hinj : Function.Injective UInt16.toFin := fun _ _ => UInt16.toFin_inj.mp
  have hcard := (hnodup.map hinj).length_le_card
  rwa [List.length_map, Fintype.card_fin] at hcard

theorem vbr_lt_fatStart (g : Layout) : g.vbr.toNat < g.fatStart :=
  Nat.lt_add_of_pos_right g.rsvd_pos

/-- The areas follow each other. -/
theorem vbr_lt_rootStart (g : Layout) : g.vbr.toNat < g.rootStart :=
  Nat.lt_of_lt_of_le (vbr_lt_fatStart g) (Nat.le_add_right _ _)

theorem rootStart_le_blockSector (g : Parameters) (x : UInt16) (b : Nat) :
    g.rootStart ≤ g.blockSector x b :=
  Nat.le_trans (Nat.le_add_right _ _) (Nat.le_trans (Nat.le_add_right _ _) (Nat.le_add_right _ _))

/-- The FAT entry of a data cluster lies in the first FAT. -/
theorem entrySector_lt (g : Layout) {x : UInt16} (h : g.DataCluster x) :
    entrySector g.fatStart x < g.rootStart := by
  have hholds := g.fat_holds
  have hx := h.2
  have hmul : 1 * g.fatSz16.toNat ≤ g.numFATs.toNat * g.fatSz16.toNat :=
    Nat.mul_le_mul_right _ g.numFATs_pos
  rw [entrySector, Parameters.rootStart, show blockSize = 512 from rfl]
  omega

theorem word_bytes (x : UInt16) :
    x.toUInt8.toUInt16 + (x >>> 8).toUInt8.toUInt16 <<< 8 = x := by
  rw [← UInt16.toNat_inj]
  have hx := x.toNat_lt
  simp only [UInt16.toNat_add, UInt16.toNat_shiftLeft, UInt8.toNat_toUInt16, UInt16.toNat_toUInt8,
    UInt16.toNat_shiftRight, Nat.shiftRight_eq_div_pow, Nat.shiftLeft_eq]
  rw [show (8 : UInt16).toNat % 16 = 8 from rfl]
  omega

/-- The master boot record and the boot record, which do not overlap. -/
def bootBytes (g : Parameters) : List (Nat × UInt8) :=
  [(11, 0), (12, 2), (13, g.secPerClus), (14, g.rsvdSecCnt.toUInt8),
    (15, (g.rsvdSecCnt >>> 8).toUInt8), (16, g.numFATs), (17, g.rootEntCnt.toUInt8),
    (18, (g.rootEntCnt >>> 8).toUInt8), (22, g.fatSz16.toUInt8),
    (23, (g.fatSz16 >>> 8).toUInt8), (0x1C6, g.vbr.toUInt16.toUInt8),
    (0x1C7, (g.vbr.toUInt16 >>> 8).toUInt8), (0x1C8, (g.vbr >>> 16).toUInt16.toUInt8),
    (0x1C9, ((g.vbr >>> 16).toUInt16 >>> 8).toUInt8)]

/-- The start of each FAT when the only file is one cluster long. -/
def fatBytes : List (Nat × UInt8) :=
  [(0, 0xF8), (1, 0xFF), (2, 0xFF), (3, 0xFF), (4, 0xFF), (5, 0xFF)]

/-- A card whose volume has one file, in cluster 2. -/
def oneFileCard (g : Parameters) : Card := fun sector i =>
  if sector < g.fatStart then ((bootBytes g).lookup i).getD 0
  else if sector < g.rootStart ∧ (sector - g.fatStart) % g.fatSz16.toNat = 0 then
    (fatBytes.lookup i).getD 0
  else 0

theorem oneFileCard_boot (g : Parameters) {sector : Nat} (h : sector < g.fatStart) :
    oneFileCard g sector = fun i => ((bootBytes g).lookup i).getD 0 := by
  funext i
  rw [oneFileCard, if_pos h]

def oneFileVolume (g : Layout) : Volume where
  layout := g
  card := oneFileCard g.toParameters
  partition := by
    have h0 : 0 < g.fatStart := Nat.add_pos_right _ g.rsvd_pos
    rw [oneFileCard_boot _ h0]
    have hlow : word (fun i => ((bootBytes g.toParameters).lookup i).getD 0) vbrAddr =
      g.vbr.toUInt16 := word_bytes _
    have hhigh : word (fun i => ((bootBytes g.toParameters).lookup i).getD 0) (vbrAddr + 2) =
      (g.vbr >>> 16).toUInt16 := word_bytes _
    have hv := g.vbr.toNat_lt
    rw [hlow, hhigh, UInt32.toNat_toUInt16, UInt32.toNat_toUInt16, UInt32.toNat_shiftRight,
      show (16 : UInt32).toNat % 32 = 16 from rfl, Nat.shiftRight_eq_div_pow]
    omega
  bytesPerSec := by
    have h : bpbBytesPerSec (fun i => ((bootBytes g.toParameters).lookup i).getD 0) = 512 :=
      word_bytes 512
    rw [oneFileCard_boot _ (Nat.lt_add_of_pos_right g.rsvd_pos), h]
    rfl
  secPerClus := by
    rw [oneFileCard_boot _ (Nat.lt_add_of_pos_right g.rsvd_pos)]
    rfl
  rsvdSecCnt := by
    rw [oneFileCard_boot _ (Nat.lt_add_of_pos_right g.rsvd_pos)]
    exact word_bytes _
  numFATs := by
    rw [oneFileCard_boot _ (Nat.lt_add_of_pos_right g.rsvd_pos)]
    rfl
  rootEntCnt := by
    rw [oneFileCard_boot _ (Nat.lt_add_of_pos_right g.rsvd_pos)]
    exact word_bytes _
  fatSz16 := by
    rw [oneFileCard_boot _ (Nat.lt_add_of_pos_right g.rsvd_pos)]
    exact word_bytes _

theorem oneFileVolume_chain (g : Layout) : (oneFileVolume g).Chain 2 [2] := by
  have hge := g.clusters_ge
  have hcell : g.DataCluster 2 := ⟨Nat.le_refl 2, show 2 < g.clusters + 2 from by omega⟩
  have hsector : entrySector g.fatStart 2 = g.fatStart := rfl
  have hroot : g.fatStart < g.rootStart := hsector ▸ entrySector_lt g hcell
  have hfat : oneFileCard g.toParameters g.fatStart = fun i => (fatBytes.lookup i).getD 0 := by
    funext i
    rw [oneFileCard, if_neg (Nat.lt_irrefl _), if_pos]
    exact ⟨hroot, by rw [Nat.sub_self, Nat.zero_mod]⟩
  have hnext : (oneFileVolume g).next 2 = 0xFFFF := by
    show word (oneFileCard g.toParameters (entrySector g.fatStart 2)) 4 = 0xFFFF
    rw [hsector, hfat]
    decide
  apply Linked.Chain.last hcell
  rw [hnext]
  exact (by decide : 0xFFF8 ≤ (0xFFFF : UInt16).toNat)

/-- The volume with other bytes in `n` sectors. -/
def Volume.overlay (v : Volume) {first : Nat} (h : v.layout.vbr.toNat < first) (n : Nat)
    (sectors : Card) : Volume :=
  let card : Card := fun k => if first ≤ k ∧ k < first + n then sectors k else v.card k
  have hboot : ∀ k ≤ v.layout.vbr.toNat, card k = v.card k := fun k hk => if_neg (by omega)
  { layout := v.layout
    card := card
    partition := by rw [hboot 0 (Nat.zero_le _)]; exact v.partition
    bytesPerSec := by rw [hboot _ (Nat.le_refl _)]; exact v.bytesPerSec
    secPerClus := by rw [hboot _ (Nat.le_refl _)]; exact v.secPerClus
    rsvdSecCnt := by rw [hboot _ (Nat.le_refl _)]; exact v.rsvdSecCnt
    numFATs := by rw [hboot _ (Nat.le_refl _)]; exact v.numFATs
    rootEntCnt := by rw [hboot _ (Nat.le_refl _)]; exact v.rootEntCnt
    fatSz16 := by rw [hboot _ (Nat.le_refl _)]; exact v.fatSz16 }

/-- The bytes of a FAT with the entries given. -/
def fatByte (next : UInt16 → UInt16) (k i : Nat) : UInt8 :=
  let x := next (UInt16.ofNat (256 * k + i / 2))
  if i % 2 = 0 then x.toUInt8 else (x >>> 8).toUInt8

/-- The volume with other FAT entries, for every number of 16 bits. -/
def withFat (v : Volume) (next : UInt16 → UInt16) : Volume :=
  v.overlay (vbr_lt_fatStart v.layout) 256 fun k => fatByte next (k - v.layout.fatStart)

theorem withFat_next (v : Volume) (next : UInt16 → UInt16) : (withFat v next).next = next := by
  funext x
  have hx := x.toNat_lt
  have hcard : (withFat v next).card (entrySector v.layout.fatStart x) =
      fatByte next (entrySector v.layout.fatStart x - v.layout.fatStart) := by
    apply if_pos
    rw [entrySector, show blockSize = 512 from rfl]
    omega
  have hindex : UInt16.ofNat (256 * (x.toNat * 2 / 512) + x.toNat * 2 % 512 / 2) = x := by
    rw [show 256 * (x.toNat * 2 / 512) + x.toNat * 2 % 512 / 2 = x.toNat from by omega,
      UInt16.ofNat_toNat]
  have hlow : fatByte next (x.toNat * 2 / 512) (x.toNat * 2 % 512) = (next x).toUInt8 := by
    rw [fatByte, hindex, if_pos (by omega)]
  have hhigh : fatByte next (x.toNat * 2 / 512) (x.toNat * 2 % 512 + 1) =
      (next x >>> 8).toUInt8 := by
    rw [fatByte, show (x.toNat * 2 % 512 + 1) / 2 = x.toNat * 2 % 512 / 2 from by omega,
      hindex, if_neg (by omega)]
  show word ((withFat v next).card (entrySector v.layout.fatStart x)) (x.toNat * 2 % 512) = _
  rw [hcard, entrySector, Nat.add_sub_cancel_left, show blockSize = 512 from rfl, word, hlow,
    hhigh]
  exact word_bytes _

end Plak1a.SdCard.FatVolume
